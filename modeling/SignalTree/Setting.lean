import SignalTree.Env
import SignalTree.Tier
import SignalTree.Value.View

/-!
# Setting — one option

A setting has a name and a value whose kind never changes.  A new value passes three checks — its
kind, the list of allowed values, the linked slots — and only then anything happens: the value is
taken over, the slots are written, and the triggers run in the order in which they were attached.
A trigger that fails stops the ones after it; the value stays.

* `Setting.new`, `Setting.restrictTo`, `Setting.link`: how a setting is made;
* `Setting.check`: the three checks;
* `Setting.set`, `Setting.setText`, `Setting.reset`: how its value changes.
-/

namespace SignalTree

/-- Runs when a setting has a new value.  It may read the cells, and it may change the state of the
embedding program.  That it does not write to the cells is an assumption about programs: nothing
keeps a trigger from writing to a cell that it shares with the program.  What is said of the cells
after a change, as that the slots hold the new value, is said under this assumption. -/
abbrev Trigger (σ : Type) := Value → List Value → σ → Except Error Unit × σ

/-- A cell outside the tree that follows a setting, and the type it is read at. -/
structure Slot where
  cell : Nat
  view : View

structure Setting (σ : Type) where
  name : String
  description : String
  /-- The name to show; empty if `name` is shown. -/
  pretty : String
  value : Value
  default : Value
  /-- The allowed values; empty if every value of the kind is allowed. -/
  restricted : List Value
  tier : Tier
  triggers : List (Trigger σ)
  slots : List Slot

namespace Setting

variable {σ : Type}

/-- A setting that starts at its default. -/
def new (name description : String) (default : Value) : Except Error (Setting σ) :=
  if Text.blank name then .error (.badName name "option names may not be empty")
  else .ok {
    name, description, pretty := "", value := default, default, restricted := []
    tier := .advanced, triggers := [], slots := [] }

def prettyName (s : Setting σ) : String := if s.pretty = "" then s.name else s.pretty

def kind (s : Setting σ) : Kind := s.default.kind

def text (s : Setting σ) : String := s.value.encode

/-- The value, read at a type. -/
def read (s : Setting σ) (view : View) : Except Error Value := view.extract s.name s.value

/-! ## Checks -/

/-- Whether a value has the kind of the setting. -/
def checkKind (s : Setting σ) (v : Value) : Except Error Unit :=
  if v.kind = s.kind then .ok () else .error (.mismatch s.name s.kind v.kind)

/-- Whether the list of allowed values lets a value through. -/
def allows (s : Setting σ) (v : Value) : Bool := s.restricted.isEmpty || v.isIn s.restricted

/-- A value that is not allowed. -/
def violation (s : Setting σ) (v : Value) : Error := .notAllowed s.name v.encode

def accepts (slot : Slot) (v : Value) : Bool := (slot.view.read v).isSome

/-- Whether a value may become the value of the setting. -/
def check (s : Setting σ) (v : Value) : Except Error Unit :=
  if v.kind ≠ s.kind then .error (.mismatch s.name s.kind v.kind)
  -- the kind is checked first, so allowed values are compared within one kind
  else if !s.allows v then .error (s.violation v)
  else if !s.slots.all (accepts · v) then
    .error (.mismatch (s.name ++ " (linked slot)") s.kind v.kind)
  else .ok ()

/-! ## Making a setting -/

/-- Allows only some values.  The default always stays allowed. -/
def restrictTo (s : Setting σ) (values : List Value) : Except Error (Setting σ) := do
  values.forM s.checkKind
  -- a default that is not in the list is put in front
  let restricted := if s.default.isIn values then values else s.default :: values
  if s.value.isIn restricted then return { s with restricted }
  else throw (s.violation s.value)

/-- Adds a trigger after the others. -/
def attach (s : Setting σ) (t : Trigger σ) : Setting σ := { s with triggers := s.triggers ++ [t] }

/-- Links a cell.  What it holds becomes the default and the value. -/
def link (s : Setting σ) (slot : Slot) (env : Env σ) : Except Error (Setting σ × Env σ) :=
  if slot.view.kind ≠ s.kind then .error (.mismatch s.name s.kind slot.view.kind)
  else
    -- what the cell holds wins over the value of the option
    let initial := (env.cell? slot.cell).getD s.value
    if !s.allows initial then .error (s.violation initial)
    else .ok ({ s with default := initial, value := initial, slots := s.slots ++ [slot] },
      env.emit (.optionLinked s.name s.kind))

/-! ## Changing the value -/

/-- Writes a value to one slot, as far as the type of the slot holds it. -/
def writeSlot (v : Value) (env : Env σ) (slot : Slot) : Env σ :=
  match slot.view.read v with
  | some w => env.writeCell slot.cell w
  | none => env

def writeSlots (slots : List Slot) (v : Value) (env : Env σ) : Env σ :=
  slots.foldl (writeSlot v) env

/-- Runs triggers in order up to the first that fails; `i` counts those before. -/
def runTriggers (name : String) (v : Value) (i : Nat) :
    List (Trigger σ) → Env σ → Except Error Unit × Env σ
  | [], env => (.ok (), env)
  | t :: rest, env =>
    match t v env.cells env.host with
    | (.ok (), host) => runTriggers name v (i + 1) rest { env with host }
    | (.error e, host) =>
      (.error e, { env with host }.emit (.triggerFailed name i e))

/-- Takes a value over, writes the slots and runs the triggers. -/
def commit (s : Setting σ) (v : Value) (env : Env σ) : Except Error Unit × Setting σ × Env σ :=
  let (result, env) :=
    runTriggers s.name v 0 s.triggers
      (writeSlots s.slots v (env.emit (.optionChanged s.name v)))
  (result, { s with value := v }, env)

def set (s : Setting σ) (v : Value) (env : Env σ) : Except Error Unit × Setting σ × Env σ :=
  match s.check v with
  | .ok () => s.commit v env
  | .error e => (.error e, s, env)

/-- Replaces the value by that of a text. -/
def setText (s : Setting σ) (text : String) (env : Env σ) :
    Except Error Unit × Setting σ × Env σ :=
  match Value.decode text s.kind with
  | .ok v => s.set v env
  | .error e => (.error (e.located s.name), s, env)

/-- Goes back to the default, as any other value is set. -/
def reset (s : Setting σ) (env : Env σ) : Except Error Unit × Setting σ × Env σ :=
  s.set s.default env

end Setting
end SignalTree
