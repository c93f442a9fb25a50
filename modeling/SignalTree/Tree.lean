import SignalTree.Registry

/-!
# Tree — components under a root

A tree keeps its components under identifiers.  A new component gets the next identifier, so an
identifier of a removed component never leads to another one.

* `Tree.get?`, `Tree.component`: the component of an identifier, if it is still there;
* `Tree.pathOf`: the path of a component, put together from the names on the way up;
* `Tree.subtree`: a component and everything below it, parents before children;
* `World`: a tree with its surroundings, on which all operations act.
-/

namespace SignalTree

/-- Components under identifiers. -/
structure Tree (σ η : Type) where
  nodes : List (NodeId × Component σ η)
  /-- The identifier of the next new component. -/
  next : NodeId
  root : NodeId
  registry : Registry σ η

namespace Tree

variable {σ η : Type}

/-- A tree that consists of its root. -/
def new (rootName : String) (registry : Registry σ η) : Tree σ η where
  nodes := [(0, (Component.new rootName Builtin.groupType).placed rootName none "cpath:/")]
  next := 1
  root := 0
  registry

/-- The component of an identifier. -/
def get? (t : Tree σ η) (id : NodeId) : Option (Component σ η) := t.nodes.lookup id

def contains (t : Tree σ η) (id : NodeId) : Bool := (t.get? id).isSome

def size (t : Tree σ η) : Nat := t.nodes.length

def removed : Error := .notFound "component <id>"

/-- The component of an identifier, which has to be there. -/
def component (t : Tree σ η) (id : NodeId) : Except Error (Component σ η) :=
  match t.get? id with
  | some c => .ok c
  | none => .error removed

def modify (t : Tree σ η) (id : NodeId) (f : Component σ η → Component σ η) : Tree σ η :=
  { t with nodes := t.nodes.map fun p => if p.1 = id then (p.1, f p.2) else p }

/-- Adds a component under the next identifier. -/
def add (t : Tree σ η) (c : Component σ η) : NodeId × Tree σ η :=
  (t.next, { t with nodes := t.nodes ++ [(t.next, c)], next := t.next + 1 })

def remove (t : Tree σ η) (ids : List NodeId) : Tree σ η :=
  { t with nodes := t.nodes.filter fun p => !ids.contains p.1 }

/-! ## Paths -/

/-- The names from below the root down to a component.  No way up is longer than `fuel`. -/
def ancestry (t : Tree σ η) : Nat → NodeId → Except Error (List String)
  | 0, _ => .error removed
  | fuel + 1, id => do
    let c ← t.component id
    match c.parent with
    | none => return []
    | some p => return (← ancestry t fuel p) ++ [c.name]

/-- The path of a component; that of the root is `cpath:/`. -/
def pathOf (t : Tree σ η) (id : NodeId) : Except Error Uri := do
  let names ← t.ancestry t.size id
  return .component ("/" ++ "/".intercalate names)

/-- The path of a component as text, also if it has been removed. -/
def pathText (t : Tree σ η) (id : NodeId) : String :=
  match t.pathOf id with
  | .ok u => u.text
  | .error _ => "<removed>"

/-- The path of a name under another path. -/
def join (path name : String) : String :=
  if path.toList.getLast? = some '/' then path ++ name else path ++ "/" ++ name

/-- The path that a child of a component has or would have. -/
def childPath (t : Tree σ η) (parent : NodeId) (name : String) : String :=
  join (t.pathText parent) name

/-! ## Subtrees -/

/-- A component and everything below it, down to `fuel` levels. -/
def collect (t : Tree σ η) : Nat → NodeId → List NodeId
  | 0, _ => []
  | fuel + 1, id =>
    -- the component itself counts also if it is not there
    id :: match t.get? id with
      | some c => c.children.flatMap fun p => collect t fuel p.2
      | none => []

/-- A component and everything below it, parents before children. -/
def subtree (t : Tree σ η) (id : NodeId) : List NodeId :=
  if t.contains id then t.collect (t.size + 1) id else []

end Tree

/-- A tree and its surroundings. -/
structure World (σ η : Type) where
  tree : Tree σ η
  env : Env σ

namespace World

variable {σ η : Type}

def emit (w : World σ η) (m : Message) : World σ η := { w with env := w.env.emit m }

def emitAll (w : World σ η) (ms : List Message) : World σ η := ms.foldl emit w

end World
end SignalTree
