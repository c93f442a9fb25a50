import SignalTree.Tree

/-!
# Resolve — from a path to a component

A path is a row of segments between slashes.  An empty segment and `.` stay where they are, `..`
goes to the parent, and any other segment to the child of that name.  A path that starts with a
slash starts at the root; the scheme of component paths may stand in front, another may not.
-/

namespace SignalTree
namespace Tree

variable {σ η : Type}

/-- The pieces of a text between slashes. -/
def segments : List Char → List (List Char)
  | [] => [[]]
  | c :: rest =>
    if c = '/' then [] :: segments rest
    else match segments rest with
      | [] => [[c]]
      | s :: more => (c :: s) :: more

/-- Goes one segment on; `path` is reported if there is nothing. -/
def step (t : Tree σ η) (path : String) (id : NodeId) (segment : List Char) :
    Except Error NodeId :=
  let found (next : Option NodeId) : Except Error NodeId :=
    match next with
    | some id => .ok id
    | none => .error (.notFound path)
  if segment = [] || segment = ['.'] then .ok id
  else do
    let c ← t.component id
    if segment = ['.', '.'] then found c.parent else found (c.child? (String.ofList segment))

def start (t : Tree σ η) (origin : NodeId) (body : List Char) : Except Error NodeId :=
  if body.head? = some '/' then .ok t.root
  else do
    let _ ← t.component origin
    return origin

def walk (t : Tree σ η) (origin : NodeId) (path : String) (body : List Char) :
    Except Error NodeId := do
  let id ← t.start origin body
  (segments body).foldlM (t.step path) id

/-- The path without its scheme and without the blanks around it; none if it has another scheme
than component paths have. -/
def pathBody (path : String) : Option (List Char) :=
  let cs := Text.trim path.toList
  match Uri.splitColon cs with
  | some (scheme, rest) => if scheme = Uri.componentScheme.toList then some rest else none
  | none => some cs

def resolve (t : Tree σ η) (origin : NodeId) (path : String) : Except Error NodeId :=
  match pathBody path with
  | some body => t.walk origin path body
  | none => .error (.notFound path)

def find (t : Tree σ η) (u : Uri) : Except Error NodeId :=
  if !u.isComponent && u.scheme.isSome then .error (.notFound u.text)
  else t.resolve t.root u.path

end Tree
end SignalTree
