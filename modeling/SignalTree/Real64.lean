/-!
# Real64 — numbers of the 64-bit binary format

A real value is read, kept, compared and written; nothing is ever computed with it except the
single roundings a reader needs.  So the type holds the numbers of the format as they are:

* `Real64.finite s m e` is `± m · 2^(e - 1074)`, in the one form in which the significand has 53
  bits or the exponent is the least one;
* `Real64.nearest` rounds an exact quotient to the format, a tie going to the even significand;
* `Real64.equal` compares as numbers do: zero has two signs, and `nan` differs from itself.
-/

namespace SignalTree

/-- The form a finite number is kept in: 53 bits, or fewer with the least exponent. -/
def Canonical (m e : Nat) : Prop := m < 1 <<< 53 ∧ e ≤ 2045 ∧ (e = 0 ∨ 1 <<< 52 ≤ m)

instance (m e : Nat) : Decidable (Canonical m e) := by unfold Canonical; infer_instance

/-- A number of the 64-bit binary format. -/
inductive Real64 where
  /-- Not a number. -/
  | nan
  /-- An infinity. -/
  | infinite (negative : Bool)
  /-- The number `± m · 2^(e - 1074)`. -/
  | finite (negative : Bool) (m e : Nat) (canonical : Canonical m e)
deriving DecidableEq

namespace Real64

def zero (negative : Bool) : Real64 := .finite negative 0 0 (by decide)

instance : Inhabited Real64 := ⟨zero false⟩

def isFinite : Real64 → Bool
  | .finite .. => true
  | _ => false

def isNaN : Real64 → Bool
  | .nan => true
  | _ => false

/-- Whether two values are equal as numbers. -/
def equal : Real64 → Real64 → Bool
  | .nan, _ => false
  | _, .nan => false
  | .infinite s, .infinite t => s == t
  | .finite s m e _, .finite t n f _ => m == n && e == f && (s == t || m == 0)
  | _, _ => false

/-- Half of a rounding: `n / d` to the nearest whole number, a tie to the even one. -/
def roundHalfEven (n d : Nat) : Nat :=
  let q := n / d
  let r := n % d
  if d < 2 * r || (2 * r == d && q % 2 == 1) then q + 1 else q

/-- The number of the format nearest to `n / d`.  Too large a quotient gives an infinity. -/
def nearest (negative : Bool) (n d : Nat) : Real64 :=
  let scaled := n <<< 1074
  -- the subtraction stops at the least exponent, where significands may be shorter
  let e := Nat.log2 (scaled / d) - 52
  let m := roundHalfEven scaled (d <<< e)
  -- rounding up may take one digit more, which is a power of two
  let pair := if m = 1 <<< 53 then (1 <<< 52, e + 1) else (m, e)
  if h : Canonical pair.1 pair.2 then .finite negative pair.1 pair.2 h else .infinite negative

/-- The number nearest to `coefficient · 10^exponent`.  Exponents beyond the range of the format
are decided without writing the power out. -/
def ofDecimal (negative : Bool) (coefficient : Nat) (exponent : Int) : Real64 :=
  let width : Int := (Nat.toDigits 10 coefficient).length
  if coefficient = 0 then zero negative
  -- `10 ^ width` is above the coefficient
  else if 310 < width + exponent then .infinite negative
  else if width + exponent < -330 then zero negative
  else nearest negative (coefficient * Nat.pow 10 exponent.toNat) (Nat.pow 10 (-exponent).toNat)

def ofNat (negative : Bool) (n : Nat) : Real64 := nearest negative n 1

/-- The magnitude of a finite number, times `2^1074`. -/
def magnitude : Real64 → Nat
  | .finite _ m e _ => m <<< e
  | _ => 0

/-- The product with `n`, rounded once. -/
def mulNat (x : Real64) (n : Nat) : Real64 :=
  match x with
  | .finite s .. => nearest s (x.magnitude * n) (1 <<< 1074)
  | x => x

/-- The quotient by `n`, rounded once. -/
def divNat (x : Real64) (n : Nat) : Real64 :=
  match x with
  | .finite s .. => nearest s x.magnitude (n <<< 1074)
  | x => x

end Real64
end SignalTree
