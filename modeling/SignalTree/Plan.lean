import SignalTree.Keyed
import SignalTree.Yaml

/-!
# Plan — the description of a tree

A plan lists components in the order in which they are made, and then the links between them.  A
component may declare options of its own besides those of its builder, and may set options.

* `Plan.Declaration`, `Plan.Part`, `Plan.Link`: the pieces of a plan;
* `Plan.same`: equality of plans, in which the order under keys does not count.
-/

namespace SignalTree

/-- An option that a plan declares. -/
structure Plan.Declaration where
  /-- The name of its kind. -/
  kind : String
  /-- The default; the zero of the kind if it is left out. -/
  default : Option Yaml
  description : String
  pretty : Option String
  /-- The allowed values; empty if every value is allowed. -/
  restricted : List Yaml
  /-- Whether it is a basic option. -/
  basic : Bool

/-- A component of a plan. -/
structure Plan.Part where
  /-- The path of the component that it becomes a child of. -/
  parent : String
  name : String
  type : String
  /-- The options that it declares, under their names. -/
  declared : List (String × Plan.Declaration)
  /-- The values of options, under their names. -/
  options : List (String × Yaml)

/-- A link of a plan, between two paths. -/
structure Plan.Link where
  owner : String
  name : String
  target : String
deriving DecidableEq

/-- A description of a tree. -/
structure Plan where
  /-- The name of the root. -/
  root : String
  parts : List Plan.Part
  links : List Plan.Link

namespace Plan

def empty (root : String) : Plan := ⟨root, [], []⟩

/-! ## Equality -/

def sameOption : Option Yaml → Option Yaml → Bool
  | none, none => true
  | some a, some b => a.same b
  | _, _ => false

/-- Whether entries are equal under each key. -/
def sameKeyed {α : Type} (same : α → α → Bool) (a b : List (String × α)) : Bool :=
  a.length == b.length && a.all fun p => (b.lookup p.1).any (same p.2)

def Declaration.same (a b : Declaration) : Bool :=
  a.kind == b.kind && sameOption a.default b.default && a.description == b.description &&
    a.pretty == b.pretty && Yaml.sameItems a.restricted b.restricted && a.basic == b.basic

def Part.same (a b : Part) : Bool :=
  a.parent == b.parent && a.name == b.name && a.type == b.type &&
    sameKeyed Declaration.same a.declared b.declared && sameKeyed Yaml.same a.options b.options

def same (a b : Plan) : Bool :=
  a.root == b.root && a.parts.length == b.parts.length &&
    (a.parts.zip b.parts).all (fun p => p.1.same p.2) && a.links == b.links

end Plan
end SignalTree
