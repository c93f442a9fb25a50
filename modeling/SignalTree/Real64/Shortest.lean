import SignalTree.Real64

/-!
# Shortest — the fewest decimal digits that read back

Between two neighbours of a finite number lies the interval of the reals that round to it; the
interval has its ends exactly if the significand is even.  `Real64.shortest` goes through the
decimal grids from coarse to fine and stops at the first that has a point in the interval.  Only
the two neighbours of the number on a grid have to be looked at.  Of two points inside the nearer
is taken, and `Tie` says what happens when both are equally near.

All quantities are whole numbers: the number and the ends of its interval are kept times `2^1076`.
-/

namespace SignalTree
namespace Real64

/-- A decimal number `coefficient · 10^exponent`. -/
structure Decimal where
  coefficient : Nat
  exponent : Int
deriving DecidableEq, Repr

/-- Which of two equally near decimals is taken. -/
inductive Tie where
  | up
  | even
deriving DecidableEq, Repr

/-- A positive number of the format with the reals that round to it, all times `2^1076`. -/
structure Span where
  low : Nat
  middle : Nat
  high : Nat
  closed : Bool

/-- The span of `m · 2^(e - 1074)`.  Below a power of two the neighbour is only half as far. -/
def span (m e : Nat) : Span where
  low := (4 * m - if m = 1 <<< 52 ∧ 0 < e then 1 else 2) <<< e
  middle := (4 * m) <<< e
  high := (4 * m + 2) <<< e
  closed := m % 2 == 0

/-- The unit of a span's numbers. -/
def spanUnit : Nat := 1 <<< 1076

/-- Whether the real `c / d`, in the unit of the span, rounds to its number. -/
def Span.holds (s : Span) (c d : Nat) : Bool :=
  if s.closed then s.low * d ≤ c && c ≤ s.high * d else s.low * d < c && c < s.high * d

/-- The point of the grid of step `10^k` in the span, if there is one. -/
def Span.onGrid (s : Span) (tie : Tie) (k : Int) : Option Nat :=
  let scale := Nat.pow 10 (-k).toNat
  let step := spanUnit * Nat.pow 10 k.toNat
  let below := s.middle * scale / step
  let inside (c : Nat) : Bool := s.holds (c * step) scale
  -- only the neighbours of the number can be the nearest points of the grid
  match inside below, inside (below + 1) with
  | false, false => none
  | true, false => some below
  | false, true => some (below + 1)
  | true, true =>
    let left := s.middle * scale - below * step
    let right := (below + 1) * step - s.middle * scale
    if left < right then some below
    else if right < left then some (below + 1)
    else match tie with
      | .up => some (below + 1)
      | .even => some (if below % 2 = 0 then below else below + 1)

/-- Looks through `tries` grids, each ten times finer than the one before. -/
def Span.search (s : Span) (tie : Tie) : Nat → Int → Decimal
  -- not reached with enough tries
  | 0, k => ⟨s.middle * Nat.pow 10 (-k).toNat / (spanUnit * Nat.pow 10 k.toNat), k⟩
  | tries + 1, k =>
    match s.onGrid tie k with
    | some c => ⟨c, k⟩
    | none => s.search tie tries (k - 1)

/-- A power of ten that is not below the number. -/
def Span.topExponent (s : Span) : Int :=
  if spanUnit ≤ s.middle then (Nat.toDigits 10 (s.middle / spanUnit)).length
  else 2 - ((Nat.toDigits 10 (spanUnit / s.middle)).length : Int)

/-- The decimal with the fewest digits that rounds to `m · 2^(e - 1074)`.  Seventeen digits are
always enough. -/
def shortest (tie : Tie) (m e : Nat) : Decimal :=
  if m = 0 then ⟨0, 0⟩
  else
    let s := span m e
    s.search tie 24 s.topExponent

end Real64
end SignalTree
