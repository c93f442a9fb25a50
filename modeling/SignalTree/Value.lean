import SignalTree.Base64
import SignalTree.Calendar.Text
import SignalTree.Keyed
import SignalTree.Number
import SignalTree.Uri

/-!
# Value — what options and frames hold

* `Scalar`: a value of one of the eight scalar kinds;
* `ScalarList`: scalars that all have the kind of the list, which is fixed also when it is empty;
* `Value`: a scalar, a list or a map of values under distinct keys.

`Value.same` is equality of values: the order of a map's entries does not count, the two zeros are
the same, and `nan` is not the same as itself.
-/

namespace SignalTree

inductive Scalar where
  | bool (b : Bool)
  | integer (i : Int64)
  | unsigned (n : UInt64)
  | real (x : Real64)
  | string (s : String)
  | path (u : Uri)
  | date (m : Calendar.Moment)
  | data (bytes : List UInt8)
deriving DecidableEq

namespace Scalar

def kind : Scalar → ScalarKind
  | bool _ => .bool
  | integer _ => .integer
  | unsigned _ => .unsigned
  | real _ => .real
  | string _ => .string
  | path _ => .path
  | date _ => .date
  | data _ => .data

def zero : ScalarKind → Scalar
  | .bool => .bool false
  | .integer => .integer 0
  | .unsigned => .unsigned 0
  | .real => .real (.zero false)
  | .string => .string ""
  | .path => .path default
  | .date => .date Calendar.epoch.start
  | .data => .data []

@[simp] theorem kind_zero (k : ScalarKind) : (zero k).kind = k := by cases k <;> rfl

def same : Scalar → Scalar → Bool
  | .real x, .real y => x.equal y
  | a, b => a == b

end Scalar

/-- Scalars of one kind. -/
structure ScalarList where
  kind : ScalarKind
  items : List Scalar
  uniform : ∀ s ∈ items, s.kind = kind

namespace ScalarList

/-- The empty list of a kind. -/
def empty (kind : ScalarKind) : ScalarList := ⟨kind, [], by simp⟩

def same (a b : ScalarList) : Bool :=
  a.kind == b.kind && a.items.length == b.items.length &&
    (a.items.zip b.items).all fun p => p.1.same p.2

end ScalarList

inductive Value where
  | scalar (s : Scalar)
  | list (l : ScalarList)
  | map (entries : List (String × Value))

namespace Value

instance : Inhabited Value := ⟨.map []⟩

def kind : Value → Kind
  | scalar s => .scalar s.kind
  | list l => .list l.kind
  | map _ => .map

def zero : Kind → Value
  | .scalar k => .scalar (.zero k)
  | .list k => .list (.empty k)
  | .map => .map []

@[simp] theorem kind_zero (k : Kind) : (zero k).kind = k := by
  cases k <;> simp [zero, kind, ScalarList.empty]

def ofString (s : String) : Value := .scalar (.string s)

def ofUri (u : Uri) : Value := .scalar (.path u)

/-! ## Equality -/

mutual

def same : Value → Value → Bool
  | .scalar a, .scalar b => a.same b
  | .list a, .list b => a.same b
  | .map a, .map b => a.length == b.length && sameEntries a b
  | _, _ => false

/-- Whether every entry of a map has an equal one under its key in the other map. -/
def sameEntries : List (String × Value) → List (String × Value) → Bool
  | [], _ => true
  | (k, v) :: rest, b =>
    (match b.lookup k with
      | some w => same v w
      | none => false) && sameEntries rest b

end

/-- Whether an equal value is in a list. -/
def isIn (v : Value) (values : List Value) : Bool := values.any fun w => w.same v

/-! ## Distinct keys -/

mutual

/-- No map at any depth has a key twice. -/
def Distinct : Value → Prop
  | .scalar _ => True
  | .list _ => True
  | .map entries => Keyed.Distinct entries ∧ DistinctEntries entries

/-- The same for each value of a map. -/
def DistinctEntries : List (String × Value) → Prop
  | [] => True
  | (_, v) :: rest => Distinct v ∧ DistinctEntries rest

end

/-! ## Lists of scalars -/

/-- The scalars of some values, if each is a scalar of the kind; `i` counts those before. -/
def scalarsOf (kind : ScalarKind) (i : Nat) :
    List Value → Except Error { items : List Scalar // ∀ s ∈ items, s.kind = kind }
  | [] => .ok ⟨[], by simp⟩
  | .scalar s :: rest =>
    -- the proof that the kinds agree goes into the list
    if h : s.kind = kind then
      (scalarsOf kind (i + 1) rest).map fun t => ⟨s :: t.1, by
        intro x hx
        cases hx with
        | head => exact h
        | tail _ hx => exact t.2 x hx⟩
    else .error (.mismatch (Error.index i) (.scalar kind) (.scalar s.kind))
  | v :: _ => .error (.mismatch (Error.index i) (.scalar kind) v.kind)

end Value

/-- The list of some values; the first of another kind is named by its index. -/
def ScalarList.ofValues (kind : ScalarKind) (values : List Value) : Except Error ScalarList :=
  (Value.scalarsOf kind 0 values).map fun t => ⟨kind, t.1, t.2⟩

end SignalTree
