import SignalTree.Tier
import SignalTree.Value.View

/-!
# Frame — the arguments and the reply of a signal

A frame holds entries under distinct keys, in order.  An entry is a value, with what a form needs
to know about it, or a frame inside the frame.

* `Frame.toMap` and `Frame.ofMap`: a frame as a map of values and back; a frame inside a frame
  corresponds to a map inside a map;
* `Frame.get`: reads an entry at a type, and tells a missing entry from one of another kind;
* `Frame.same`: equality of frames, in which the order of the entries does not count.
-/

namespace SignalTree

/-- What a form needs to know about a value besides the value. -/
structure Meta where
  description : String
  /-- The name to show; empty if the key is shown. -/
  pretty : String
  tier : Option Tier
  /-- The values to choose from; empty if any value is allowed. -/
  restricted : List Value

namespace Meta

/-- Nothing known. -/
def none : Meta := ⟨"", "", Option.none, []⟩

instance : Inhabited Meta := ⟨none⟩

/-- Whether two lists of values are equal, item by item. -/
def sameValues (a b : List Value) : Bool :=
  a.length == b.length && (a.zip b).all fun p => p.1.same p.2

/-- Whether the same is known. -/
def same (a b : Meta) : Bool :=
  a.description == b.description && a.pretty == b.pretty && a.tier == b.tier &&
    sameValues a.restricted b.restricted

end Meta

mutual

/-- What stands under a key of a frame. -/
inductive Entry where
  | value (v : Value) (info : Meta)
  | frame (f : Frame)

/-- Entries under distinct keys, with a description and a tier of the whole. -/
structure Frame where
  description : String
  tier : Option Tier
  entries : List (String × Entry)

end

namespace Frame

def empty : Frame := ⟨"", none, []⟩

instance : Inhabited Frame := ⟨empty⟩

end Frame

/-! ## Frames and maps -/

mutual

/-- The entries of a frame as values. -/
def Frame.toMap : Frame → List (String × Value)
  | ⟨_, _, entries⟩ => Entry.toMapEntries entries

/-- An entry as a value; a frame becomes a map. -/
def Entry.toValue : Entry → Value
  | .value v _ => v
  | .frame f => .map f.toMap

/-- Entries as values, each under its key. -/
def Entry.toMapEntries : List (String × Entry) → List (String × Value)
  | [] => []
  | (k, e) :: rest => (k, e.toValue) :: Entry.toMapEntries rest

end

mutual

/-- A value as an entry; a map becomes a frame. -/
def Entry.ofValue : Value → Entry
  | .scalar s => .value (.scalar s) Meta.none
  | .list l => .value (.list l) Meta.none
  | .map entries => .frame ⟨"", none, Entry.ofMapEntries entries⟩

/-- Values as entries, each under its key. -/
def Entry.ofMapEntries : List (String × Value) → List (String × Entry)
  | [] => []
  | (k, v) :: rest => (k, Entry.ofValue v) :: Entry.ofMapEntries rest

end

def Entry.kind : Entry → Kind
  | .value v _ => v.kind
  | .frame _ => .map

/-! ## Equality -/

mutual

def Frame.same : Frame → Frame → Bool
  | ⟨d, t, a⟩, g =>
    d == g.description && t == g.tier && a.length == g.entries.length &&
      Entry.sameEntries a g.entries

def Entry.same : Entry → Entry → Bool
  | .value v info, .value w info' => v.same w && info.same info'
  | .frame f, .frame g => f.same g
  | _, _ => false

/-- Whether every entry has an equal one under its key. -/
def Entry.sameEntries : List (String × Entry) → List (String × Entry) → Bool
  | [], _ => true
  | (k, e) :: rest, b =>
    (match b.lookup k with
      | some e' => e.same e'
      | none => false) && Entry.sameEntries rest b

end

namespace Frame

def ofMap (entries : List (String × Value)) : Frame := ⟨"", none, Entry.ofMapEntries entries⟩

def size (f : Frame) : Nat := f.entries.length

def keys (f : Frame) : List String := Keyed.keys f.entries

def entry? (f : Frame) (key : String) : Option Entry := f.entries.lookup key

def put (f : Frame) (key : String) (e : Entry) : Frame :=
  { f with entries := Keyed.put key e f.entries }

/-- Puts a plain value under a key. -/
def set (f : Frame) (key : String) (v : Value) : Frame := f.put key (.value v Meta.none)

def value (f : Frame) (key : String) : Except Error Value :=
  match f.entry? key with
  | some e => .ok e.toValue
  | none => .error (.missingArgument key)

/-- The value under a key, read at a type. -/
def get (f : Frame) (view : View) (key : String) : Except Error Value :=
  match f.entry? key with
  | some e => view.extract key e.toValue
  | none => .error (.missingArgument key)

/-- The same with a value for a missing key. -/
def getD (f : Frame) (view : View) (key : String) (default : Value) : Except Error Value :=
  match f.entry? key with
  | some e => view.extract key e.toValue
  | none => .ok default

/-- The text under a key. -/
def getString (f : Frame) (key : String) : Except Error String :=
  match f.get (.scalar .string) key with
  | .ok (.scalar (.string s)) => .ok s
  | .ok v => .error (.mismatch key (.scalar .string) v.kind)
  | .error e => .error e

/-- The text under a key, or another one for a missing key. -/
def getStringD (f : Frame) (key default : String) : Except Error String :=
  match f.entry? key with
  | some _ => f.getString key
  | none => .ok default

def frame (f : Frame) (key : String) : Except Error Frame :=
  match f.entry? key with
  | some (.frame g) => .ok g
  | some (.value v _) => .error (.mismatch key .map v.kind)
  | none => .error (.missingArgument key)

end Frame
end SignalTree
