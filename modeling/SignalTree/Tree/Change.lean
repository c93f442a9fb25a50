import SignalTree.Tree

/-!
# Change — operations on a tree

Every operation gives its result and the world after it.  An operation that fails leaves the tree
as it was, except that a failing trigger comes after its option has changed.

* `World.createChild`, `World.addChild`, `World.removeChild`: the components;
* `World.link`, `World.unlink`, `World.followLink`: the links between them;
* `World.setOption`, `World.setOptionText`, `World.configure`: their options.
-/

namespace SignalTree

namespace Tree

/-- Why a component cannot have a name, if it cannot. -/
def nameFault (name : String) : Option String :=
  if name = "" then some "component names may not be empty"
  else if name.toList.contains '/' then some "component names may not contain '/'"
  else if name = "." || name = ".." then some "'.' and '..' are reserved path segments"
  else if name.toList.any Text.isBlank then some "component names may not contain whitespace"
  else none

variable {σ η : Type}

/-- Whether a component may get a child of a name. -/
def checkNewChild (t : Tree σ η) (parent : NodeId) (name : String) : Except Error Unit :=
  -- the text of a name is checked before the parent is looked for
  match nameFault name with
  | some reason => .error (.badName name reason)
  | none => do
    let p ← t.component parent
    if (p.child? name).isSome then .error (.nameTaken (t.pathText parent) name) else .ok ()

/-- The live target of a link. -/
def linkTarget (t : Tree σ η) (owner : NodeId) (name : String) : Except Error NodeId := do
  let c ← t.component owner
  match c.link? name with
  | none => throw (.notFound (t.pathText owner ++ "#" ++ name))
  | some target =>
    if t.contains target then return target
    else throw (.dangling (t.pathText owner ++ "#" ++ name))

end Tree

namespace World

variable {σ η : Type}

/-! ## Components -/

/-- Puts a component into the tree as a child. -/
def attach (w : World σ η) (parent : NodeId) (name : String) (c : Component σ η) :
    NodeId × World σ η :=
  let path := w.tree.childPath parent name
  let (id, tree) := w.tree.add (c.placed name (some parent) path)
  let tree := tree.modify parent fun p => { p with children := Keyed.put name id p.children }
  (id, { w with tree }.emit (.componentCreated path c.type))

/-- Builds a component of a type and puts it into the tree. -/
def createChild (w : World σ η) (parent : NodeId) (type name : String) :
    Except Error NodeId × World σ η :=
  match w.tree.registry.builder type with
  | .error e => (.error e, w)
  | .ok builder =>
    match w.tree.checkNewChild parent name with
    | .error e => (.error e, w)
    | .ok () =>
      match builder name w.env with
      | (.error e, env) => (.error e, { w with env })
      | (.ok c, env) =>
        let (id, w) := { w with env }.attach parent name { c with type }
        (.ok id, w)

def addChild (w : World σ η) (parent : NodeId) (c : Component σ η) :
    Except Error NodeId × World σ η :=
  match w.tree.checkNewChild parent c.name with
  | .error e => (.error e, w)
  | .ok () =>
    let (id, w) := w.attach parent c.name c
    (.ok id, w)

/-- Removes a child and everything below it. -/
def removeChild (w : World σ η) (parent : NodeId) (name : String) :
    Except Error Unit × World σ η :=
  match w.tree.component parent with
  | .error e => (.error e, w)
  | .ok p =>
    match p.child? name with
    | none => (.error (.notFound (w.tree.childPath parent name)), w)
    | some child =>
      let path := w.tree.pathText child
      let doomed := w.tree.collect (w.tree.size + 1) child
      -- links to what goes are left as they are
      let tree := (w.tree.remove doomed).modify parent fun p =>
        { p with children := Keyed.erase name p.children }
      (.ok (), { w with tree }.emit (.componentRemoved path doomed.length))

/-! ## Links -/

def link (w : World σ η) (owner : NodeId) (name : String) (target : NodeId) :
    Except Error Unit × World σ η :=
  match w.tree.component target, w.tree.component owner with
  | .error e, _ => (.error e, w)
  | _, .error e => (.error e, w)
  | .ok _, .ok _ =>
    let message := .linkBound (w.tree.pathText owner) name (w.tree.pathText target)
    let tree := w.tree.modify owner fun c => { c with links := Keyed.put name target c.links }
    (.ok (), { w with tree }.emit message)

def unlink (w : World σ η) (owner : NodeId) (name : String) : Except Error Unit × World σ η :=
  match w.tree.component owner with
  | .error e => (.error e, w)
  | .ok c =>
    match c.link? name with
    | none => (.error (.notFound (w.tree.pathText owner ++ "#" ++ name)), w)
    | some _ =>
      (.ok (), { w with tree := w.tree.modify owner fun c =>
        { c with links := Keyed.erase name c.links } })

/-- Follows a link.  A link to a removed component is reported in the log. -/
def followLink (w : World σ η) (owner : NodeId) (name : String) :
    Except Error NodeId × World σ η :=
  match w.tree.linkTarget owner name with
  | .error (.dangling l) =>
    (.error (.dangling l), w.emit (.linkInvalidated (w.tree.pathText owner) name))
  | result => (result, w)

/-! ## Options -/

def changeOptions (w : World σ η) (id : NodeId)
    (f : Settings σ → Env σ → Except Error Unit × Settings σ × Env σ) :
    Except Error Unit × World σ η :=
  match w.tree.component id with
  | .error e => (.error e, w)
  | .ok c =>
    let (result, options, env) := f c.options w.env
    (result, { tree := w.tree.modify id fun c => { c with options }, env })

def setOption (w : World σ η) (id : NodeId) (option : String) (v : Value) :
    Except Error Unit × World σ η :=
  w.changeOptions id fun o env => o.set option v env

def setOptionText (w : World σ η) (id : NodeId) (option text : String) :
    Except Error Unit × World σ η :=
  w.changeOptions id fun o env => o.setText option text env

def configure (w : World σ η) (id : NodeId) (f : Frame) : Except Error Unit × World σ η :=
  w.changeOptions id fun o env => o.configure f env

end World
end SignalTree
