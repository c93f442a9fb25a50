import SignalTree.Signal

/-!
# Builtin — the signals every component starts with

Seven signals with their texts and the descriptions of their arguments.  What they do is said
where signals are dispatched.
-/

namespace SignalTree
namespace Builtin

variable {σ η : Type}

/-- The type of a component without options of its own. -/
def groupType : String := "Group"

def order : List Builtin :=
  [configure, listOptions, listSignals, listTree, createComponent, deleteComponent, signature]

def name : Builtin → String
  | configure => "configure"
  | listOptions => "list_options"
  | listSignals => "list_signals"
  | listTree => "list_tree"
  | createComponent => "create_component"
  | deleteComponent => "delete_component"
  | signature => "signature"

def description : Builtin → String
  | configure => "Set option values from the argument frame"
  | listOptions => "Describe the options of this component"
  | listSignals => "Describe the signals of this component"
  | listTree => "Describe the subtree rooted at this component"
  | createComponent => "Create a child component through the builder registry"
  | deleteComponent => "Remove a child component and its subtree"
  | signature => "Describe the arguments of a signal"

def pretty : Builtin → String
  | configure => "Configure"
  | listOptions => "List options"
  | listSignals => "List signals"
  | listTree => "List tree"
  | createComponent => "Create component"
  | deleteComponent => "Delete component"
  | signature => "Signature"

/-- Describes the argument of a signal that acts on something by its name. -/
def nameSignature : SignatureBuilder σ := fun o env =>
  (o.add "name" "Name of the target" (.ofString ""), env)

/-- Describes the arguments of the signal that creates a component. -/
def createSignature : SignatureBuilder σ := fun o env =>
  (do
    let o ← o.add "name" "Name of the new component" (.ofString "")
    o.add "type" "Registered component type" (.ofString groupType), env)

/-- The description of the arguments of a signal, if it has any. -/
def signatureBuilder : Builtin → Option (SignatureBuilder σ)
  | createComponent => some createSignature
  | deleteComponent => some nameSignature
  | signature => some nameSignature
  | _ => none

/-- A signal every component answers. -/
def signal (b : Builtin) : Signal σ η :=
  { name := b.name, description := b.description, pretty := b.pretty, handler := .builtin b
    signature := b.signatureBuilder, built := none }

def signals (owner : String) : Signals σ η := ⟨owner, order.map fun b => (b.name, b.signal)⟩

end Builtin
end SignalTree
