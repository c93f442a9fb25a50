import SignalTree.Frame
import SignalTree.Setting

/-!
# Settings — the options of a component

Options stand in the order in which they were declared, under distinct names.  A frame can
change them (`Settings.configure`), they can be described by a frame (`Settings.toFrame`), and a
description can be made into options again (`Settings.ofFrame`).
-/

namespace SignalTree

/-- Options under distinct names.  The owner labels errors and is usually a path. -/
structure Settings (σ : Type) where
  owner : String
  items : List (String × Setting σ)

namespace Settings

variable {σ : Type}

def empty (owner : String) : Settings σ := ⟨owner, []⟩

/-- How errors name the list. -/
def label (o : Settings σ) : String := if o.owner = "" then "option list" else o.owner

def names (o : Settings σ) : List String := Keyed.keys o.items

def all (o : Settings σ) : List (Setting σ) := Keyed.values o.items

def size (o : Settings σ) : Nat := o.items.length

/-- The option of a name. -/
def get? (o : Settings σ) (name : String) : Option (Setting σ) := o.items.lookup name

/-- The option of a name that has to be there. -/
def get (o : Settings σ) (name : String) : Except Error (Setting σ) :=
  match o.get? name with
  | some s => .ok s
  | none => .error (.unknownOption o.label name)

/-- Puts an option in the place of the one under a name: a changed one, or another one that
overwrites it.  The name under which it stands stays, whatever the option is named. -/
def replace (o : Settings σ) (name : String) (s : Setting σ) : Settings σ :=
  { o with items := Keyed.modify name (fun _ => s) o.items }

/-- Declares an option after the others. -/
def insert (o : Settings σ) (s : Setting σ) : Except Error (Settings σ) :=
  if Keyed.has o.items s.name then
    .error (.badName s.name ("already used in " ++ o.label))
  else .ok { o with items := o.items ++ [(s.name, s)] }

def add (o : Settings σ) (name description : String) (default : Value) :
    Except Error (Settings σ) := do
  let s ← Setting.new name description default
  o.insert s

/-! ## Changing values -/

def set (o : Settings σ) (name : String) (v : Value) (env : Env σ) :
    Except Error Unit × Settings σ × Env σ :=
  match o.get name with
  | .error e => (.error e, o, env)
  | .ok s =>
    let (result, s, env) := s.set v env
    (result, o.replace name s, env)

def setText (o : Settings σ) (name text : String) (env : Env σ) :
    Except Error Unit × Settings σ × Env σ :=
  match o.get name with
  | .error e => (.error e, o, env)
  | .ok s =>
    let (result, s, env) := s.setText text env
    (result, o.replace name s, env)

/-- Sets options from entries in order, up to the first that fails. -/
def setEntries (o : Settings σ) (env : Env σ) :
    List (String × Entry) → Except Error Unit × Settings σ × Env σ
  | [] => (.ok (), o, env)
  | (key, e) :: rest =>
    match o.set key e.toValue env with
    | (.ok (), o, env) => setEntries o env rest
    | (.error e, o, env) => (.error e, o, env)

def configure (o : Settings σ) (f : Frame) (env : Env σ) :
    Except Error Unit × Settings σ × Env σ :=
  o.setEntries env f.entries

/-! ## Descriptions -/

/-- The description of an option. -/
def describe (s : Setting σ) : Entry :=
  .value s.value ⟨s.description, s.prettyName, some s.tier, s.restricted⟩

/-- The descriptions of all options, each put under the name that the option has. -/
def toFrame (o : Settings σ) : Frame :=
  o.all.foldl (fun f s => f.put s.name (describe s)) Frame.empty

/-- The option that a description describes; its value is the default. -/
def ofEntry (key : String) : Entry → Except Error (Setting σ)
  | .value v info => do
    let s ← Setting.new key info.description v
    -- a name to show that is the key itself is not kept
    let s : Setting σ := if info.pretty ≠ key then { s with pretty := info.pretty } else s
    let s : Setting σ := { s with tier := info.tier.getD .advanced }
    if info.restricted.isEmpty then return s else s.restrictTo info.restricted
  | .frame f => do
    let s ← Setting.new key f.description (.map f.toMap)
    return { s with tier := f.tier.getD .advanced }

/-- Declares the described options in order. -/
def addEntries (o : Settings σ) : List (String × Entry) → Except Error (Settings σ)
  | [] => .ok o
  | (key, e) :: rest => do
    let s ← ofEntry key e
    let o ← o.insert s
    addEntries o rest

/-- The options of a description. -/
def ofFrame (owner : String) (f : Frame) : Except Error (Settings σ) :=
  addEntries (empty owner) f.entries

end Settings
end SignalTree
