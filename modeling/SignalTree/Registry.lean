import SignalTree.Component

/-!
# Registry — builders of components by type

A registry knows a builder for each type of component.  A builder is given the name that the
component will carry; it may fail, and it may act on the surroundings.  Builders are kept under
distinct types, and listed in alphabetical order.
-/

namespace SignalTree

/-- Builds a component that is not yet in a tree. -/
abbrev Builder (σ η : Type) := String → Env σ → Except Error (Component σ η) × Env σ

/-- Builders under the types they build. -/
structure Registry (σ η : Type) where
  builders : List (String × Builder σ η)

namespace Registry

variable {σ η : Type}

def empty : Registry σ η := ⟨[]⟩

def groupBuilder : Builder σ η := fun name env => (.ok (.new name Builtin.groupType), env)

/-- The registry that knows groups alone. -/
def standard : Registry σ η := ⟨[(Builtin.groupType, groupBuilder)]⟩

/-- Whether there is a builder for a type. -/
def knows (r : Registry σ η) (type : String) : Bool := Keyed.has r.builders type

def types (r : Registry σ η) : List String :=
  (Keyed.keys r.builders).mergeSort fun a b => decide (a ≤ b)

/-- The builder of a type that has to be known. -/
def builder (r : Registry σ η) (type : String) : Except Error (Builder σ η) :=
  match r.builders.lookup type with
  | some b => .ok b
  | none => .error (.unknownType type)

def register (r : Registry σ η) (type : String) (b : Builder σ η) (env : Env σ) :
    Except Error (Registry σ η) × Env σ :=
  if r.knows type then (.error (.typeTaken type), env)
  else (.ok ⟨r.builders ++ [(type, b)]⟩, env.emit (.builderRegistered type))

def unregister (r : Registry σ η) (type : String) : Registry σ η :=
  ⟨Keyed.erase type r.builders⟩

/-- Builds a component.  It has the type it was asked for, whatever the builder says. -/
def build (r : Registry σ η) (type name : String) : Env σ → Except Error (Component σ η) × Env σ :=
  fun env =>
    match r.builder type with
    | .error e => (.error e, env)
    | .ok b =>
      match b name env with
      -- the registered type wins over the one the builder set
      | (.ok c, env) => (.ok { c with type }, env)
      | (.error e, env) => (.error e, env)

end Registry
end SignalTree
