import SignalTree.Plan
import SignalTree.Tree.Resolve

/-!
# Check — whether a plan can be built

Before anything is built, a plan is checked for faults of its structure: names that are empty,
paths that are not declared before they are used, paths that are declared twice, and types that no
builder is known for.  All faults are reported, in the order of the plan.

* `Plan.canonical`: the form of a path in which each component has only one;
* `Plan.faults`: the faults of a plan.
-/

namespace SignalTree
namespace Plan

/-- What is wrong with a plan. -/
inductive Fault where
  | declaredTwice (path : String)
  | emptyName (parent : String)
  | unknownType (path type : String)
  | undeclared (path user : String)
deriving DecidableEq, Repr

def Fault.message : Fault → String
  | declaredTwice path => "Component path '" ++ path ++ "' is declared more than once"
  | emptyName parent => "Entry under '" ++ parent ++ "' has an empty name"
  | unknownType path type =>
    "Component '" ++ path ++ "' uses type '" ++ type ++ "' which has no registered builder"
  | undeclared path user => "Path '" ++ path ++ "' used by " ++ user ++ " is not declared before it"

/-! ## Paths -/

/-- The path without blanks around it and without its scheme. -/
def pathBody (path : String) : List Char :=
  let cs := Text.trim path.toList
  let scheme := Uri.componentScheme.toList ++ [':']
  if scheme.isPrefixOf cs then cs.drop scheme.length else cs

/-- The names on a path after those in `stack`, the last one first.  A path may not lead above the
root. -/
def reduce (stack : List (List Char)) : List (List Char) → Option (List (List Char))
  | [] => some stack
  | segment :: rest =>
    if segment = [] || segment = ['.'] then reduce stack rest
    else if segment = ['.', '.'] then
      match stack with
      -- nothing is above the root
      | [] => none
      | _ :: stack => reduce stack rest
    else reduce (segment :: stack) rest

/-- The path of some names from the root down. -/
def pathOfNames (names : List String) : String := "cpath:/" ++ "/".intercalate names

/-- The canonical form of a path, unless it leads above the root. -/
def canonical (path : String) : Option String :=
  (reduce [] (Tree.segments (pathBody path))).map fun stack =>
    pathOfNames (stack.reverse.map String.ofList)

/-- The canonical form of a path, or the path itself if it has none. -/
def normal (path : String) : String := (canonical path).getD (Text.trimmed path)

/-! ## Faults -/

/-- The fault of a path that is not among the declared ones. -/
def undeclaredFault (declared : List String) (path user : String) : List Fault :=
  if declared.contains path then [] else [.undeclared path user]

/-- The path that a component is declared under; none if its name is empty. -/
def Part.path? (p : Part) : Option String :=
  if Text.blank p.name then none else some (Tree.join (normal p.parent) p.name)

/-- The faults of a component after others. -/
def Part.faults (knows : String → Bool) (declared : List String) (p : Part) : List Fault :=
  match p.path? with
  | none => [.emptyName (normal p.parent)]
  | some path =>
    undeclaredFault declared (normal p.parent) ("component '" ++ path ++ "'") ++
      (if knows p.type then [] else [.unknownType path p.type]) ++
      (if declared.contains path then [.declaredTwice path] else [])

/-- The faults of components after others, and all paths that are declared then. -/
def partFaults (knows : String → Bool) : List String → List Part → List Fault × List String
  | declared, [] => ([], declared)
  | declared, p :: rest =>
    -- a component with faults is declared all the same, so it causes no more faults
    let (faults, all) := partFaults knows (p.path?.toList ++ declared) rest
    (p.faults knows declared ++ faults, all)

def Link.faults (declared : List String) (l : Link) : List Fault :=
  if Text.blank l.name then [.emptyName (normal l.owner)]
  else
    let user := "link '" ++ l.name ++ "' of " ++ normal l.owner
    undeclaredFault declared (normal l.owner) user ++
      undeclaredFault declared (normal l.target) user

/-- The faults of a plan, if builders are known for some types. -/
def faultsWith (knows : String → Bool) (p : Plan) : List Fault :=
  let (faults, declared) := partFaults knows [normal ""] p.parts
  faults ++ p.links.flatMap (Link.faults declared)

variable {σ η : Type}

/-- The faults of a plan that is to be built with a registry. -/
def faults (p : Plan) (r : Registry σ η) : List Fault := p.faultsWith r.knows

end Plan
end SignalTree
