import SignalTree.Value

/-!
# View — typed access to values

A program reads a value at a type of its own.  A `View` stands for such a type: it has one kind of
value, and it may hold less than every value of that kind, such as an integer of half the width or
a date without a time.

* `View.kind`: the kind of value it reads;
* `View.read`: what it holds of a value, itself as a value; none if it cannot hold it.

Nothing is converted between kinds.
-/

namespace SignalTree

/-- Types a program reads scalars at. -/
inductive ScalarView where
  | bool
  | int64
  | int32
  | uint64
  | uint32
  | real
  | string
  | uri
  | moment
  /-- A day: the time of a date is dropped. -/
  | day
  | data
deriving DecidableEq, Repr

namespace ScalarView

/-- The kind of scalar a view reads. -/
def kind : ScalarView → ScalarKind
  | bool => .bool
  | int64 => .integer
  | int32 => .integer
  | uint64 => .unsigned
  | uint32 => .unsigned
  | real => .real
  | string => .string
  | uri => .path
  | moment => .date
  | day => .date
  | data => .data

/-- What a view holds of a scalar. -/
def read (view : ScalarView) (s : Scalar) : Option Scalar :=
  match view, s with
  | int32, .integer i => if -0x80000000 ≤ i.toInt ∧ i.toInt < 0x80000000 then some s else none
  | uint32, .unsigned n => if n.toNat < 0x100000000 then some s else none
  | day, .date m => some (.date m.day.start)
  | view, s => if s.kind = view.kind then some s else none

theorem kind_read {view : ScalarView} {s t : Scalar} (h : view.read s = some t) :
    t.kind = view.kind := by
  cases view <;> cases s <;> simp [read, kind, Scalar.kind] at h ⊢ <;>
    first
      | (subst h; rfl)
      | (obtain ⟨_, rfl⟩ := h; rfl)

end ScalarView

/-- Types a program reads values at. -/
inductive View where
  | scalar (v : ScalarView)
  | list (element : ScalarView)
  | map
deriving DecidableEq, Repr

namespace View

/-- The kind of value a view reads. -/
def kind : View → Kind
  | scalar v => .scalar v.kind
  | list v => .list v.kind
  | map => .map

/-- What a view holds of each of some scalars. -/
def readItems (view : ScalarView) :
    List Scalar → Option { items : List Scalar // ∀ s ∈ items, s.kind = view.kind }
  | [] => some ⟨[], by simp⟩
  | s :: rest =>
    match h : view.read s, readItems view rest with
    | some t, some u => some ⟨t :: u.1, by
        intro x hx
        cases hx with
        | head => exact ScalarView.kind_read h
        | tail _ hx => exact u.2 x hx⟩
    | _, _ => none

/-- What a view holds of a value. -/
def read (view : View) (v : Value) : Option Value :=
  match view, v with
  | scalar view, .scalar s => (view.read s).map .scalar
  | list view, .list l =>
    if l.kind = view.kind then
      (readItems view l.items).map fun t => .list ⟨view.kind, t.1, t.2⟩
    else none
  | map, .map entries => some (.map entries)
  | _, _ => none

/-- Reads a value under a name, which a failure reports. -/
def extract (view : View) (name : String) (v : Value) : Except Error Value :=
  match view.read v with
  | some w => .ok w
  | none => .error (.mismatch name view.kind v.kind)

end View
end SignalTree
