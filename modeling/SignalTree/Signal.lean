import SignalTree.Settings

/-!
# Signal — what a component can be asked to do

A signal has a name and a handler.  It may also have a builder that describes the arguments which
the handler reads; the description is built when it is first asked for and kept.

* `Handler`: one of the signals every component answers, or a handler of the embedding program,
  known by a name of a type `η` of its own;
* `Signal.buildSignature`: the description of the arguments, from the builder or as kept;
* `Signals`: the signals of a component, in order and under distinct names.
-/

namespace SignalTree

/-- The signals every component answers. -/
inductive Builtin where
  | configure
  | listOptions
  | listSignals
  | listTree
  | createComponent
  | deleteComponent
  | signature
deriving DecidableEq, Repr

/-- What runs when a signal is called. -/
inductive Handler (η : Type) where
  | builtin (b : Builtin)
  | custom (h : η)

/-- Declares the options that describe the arguments of a signal. -/
abbrev SignatureBuilder (σ : Type) := Settings σ → Env σ → Except Error (Settings σ) × Env σ

structure Signal (σ η : Type) where
  name : String
  description : String
  /-- The name to show; empty if `name` is shown. -/
  pretty : String
  handler : Handler η
  /-- The builder of the description of the arguments. -/
  signature : Option (SignatureBuilder σ)
  /-- The description, once it is built. -/
  built : Option (Settings σ)

namespace Signal

variable {σ η : Type}

/-- A signal without texts and without a description of its arguments. -/
def new (name : String) (handler : Handler η) : Signal σ η :=
  { name, description := "", pretty := "", handler, signature := none, built := none }

def prettyName (s : Signal σ η) : String := if s.pretty = "" then s.name else s.pretty

def hasSignature (s : Signal σ η) : Bool := s.signature.isSome

/-- Gives the signal another builder; what was built before is forgotten. -/
def withSignature (s : Signal σ η) (builder : SignatureBuilder σ) : Signal σ η :=
  { s with signature := some builder, built := none }

/-- The description of the arguments under an owner.  A failure is not kept. -/
def buildSignature (s : Signal σ η) (owner : String) (env : Env σ) :
    Except Error (Settings σ) × Signal σ η × Env σ :=
  match s.built with
  | some o => (.ok { o with owner }, s, env)
  | none =>
    match s.signature with
    | none => (.ok (.empty owner), { s with built := some (.empty owner) }, env)
    | some builder =>
      match builder (.empty owner) env with
      | (.ok o, env) => (.ok { o with owner }, { s with built := some o }, env)
      | (.error e, env) => (.error e, s, env)

end Signal

/-- Signals under distinct names.  The owner labels errors and is usually a path. -/
structure Signals (σ η : Type) where
  owner : String
  items : List (String × Signal σ η)

namespace Signals

variable {σ η : Type}

def empty (owner : String) : Signals σ η := ⟨owner, []⟩

def names (l : Signals σ η) : List String := Keyed.keys l.items

def all (l : Signals σ η) : List (Signal σ η) := Keyed.values l.items

def size (l : Signals σ η) : Nat := l.items.length

/-- The signal of a name. -/
def get? (l : Signals σ η) (name : String) : Option (Signal σ η) := l.items.lookup name

/-- The signal of a name that has to be there. -/
def get (l : Signals σ η) (name : String) : Except Error (Signal σ η) :=
  match l.get? name with
  | some s => .ok s
  | none => .error (.unknownSignal l.owner name)

/-- Puts a changed signal in its place. -/
def replace (l : Signals σ η) (name : String) (s : Signal σ η) : Signals σ η :=
  { l with items := Keyed.modify name (fun _ => s) l.items }

/-- Adds a signal after the others. -/
def insert (l : Signals σ η) (s : Signal σ η) : Except Error (Signals σ η) :=
  if Keyed.has l.items s.name then .error (.nameTaken l.owner s.name)
  else .ok { l with items := l.items ++ [(s.name, s)] }

def erase (l : Signals σ η) (name : String) : Signals σ η :=
  { l with items := Keyed.erase name l.items }

/-- What a frame says about one signal. -/
def describe (s : Signal σ η) : Frame :=
  ((Frame.empty.set "description" (.ofString s.description)).set
    "pretty_name" (.ofString s.prettyName)).set
    "has_signature" (.scalar (.bool s.hasSignature))

def toFrame (l : Signals σ η) : Frame :=
  l.all.foldl (fun f s => f.put s.name (.frame (describe s))) Frame.empty

end Signals
end SignalTree
