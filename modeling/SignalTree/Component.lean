import SignalTree.Builtin

/-!
# Component — one node of a tree

A component has a name, a type, options and signals.  Where it stands in a tree is said by the
identifiers of its parent and of its children; its links are identifiers too, and may be of
components that have been removed.
-/

namespace SignalTree

/-- What identifies a component of a tree.  It is given once and never again. -/
abbrev NodeId := Nat

structure Component (σ η : Type) where
  name : String
  type : String
  parent : Option NodeId
  children : List (String × NodeId)
  links : List (String × NodeId)
  options : Settings σ
  signals : Signals σ η

namespace Component

variable {σ η : Type}

/-- A component outside any tree, with the signals every component answers. -/
def new (name type : String) : Component σ η where
  name
  type
  parent := none
  children := []
  links := []
  options := .empty name
  signals := Builtin.signals name

def child? (c : Component σ η) (name : String) : Option NodeId := c.children.lookup name

/-- The target of a link, which may have been removed. -/
def link? (c : Component σ η) (name : String) : Option NodeId := c.links.lookup name

/-- The component as it stands in a tree under a path, which labels its errors. -/
def placed (c : Component σ η) (name : String) (parent : Option NodeId) (path : String) :
    Component σ η :=
  { c with
    name, parent
    options := { c.options with owner := path }
    signals := { c.signals with owner := path } }

end Component
end SignalTree
