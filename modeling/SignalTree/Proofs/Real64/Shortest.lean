import Mathlib.Tactic.Ring
import SignalTree.Proofs.Numeral.Digits
import SignalTree.Proofs.Real64.Rounding

/-!
# Shortest — the search ends inside the span

The search for a short decimal goes through a fixed number of grids.  The last of them is so fine
that the next point above the number still lies in its span, so the search always stops at a point
of the span, and its result rounds to the number.

* `Real64.Span.Admits`: a decimal lies in a span;
* `Real64.onGrid_of_fine`: a fine grid has a point in the span;
* `Real64.fine_topExponent`: the last grid of the search is fine;
* `Real64.admits_shortest`: the result lies in the span.
-/

namespace SignalTree
namespace Real64

theorem spanUnit_pos : 0 < spanUnit := by decide +kernel

/-- The decimal lies in the span. -/
def Span.Admits (s : Span) (d : Decimal) : Prop :=
  s.holds (d.coefficient * (spanUnit * 10 ^ d.exponent.toNat)) (10 ^ (-d.exponent).toNat) = true

/-! ## One grid -/

theorem admits_of_onGrid {s : Span} {tie : Tie} {k : Int} {c : Nat}
    (h : s.onGrid tie k = some c) : s.Admits ⟨c, k⟩ := by
  simp only [Span.onGrid, Nat.pow_eq] at h
  split at h
  · cases h
  · rename_i hbelow _
    cases h
    exact hbelow
  · rename_i _ habove
    cases h
    exact habove
  · rename_i hbelow habove
    split at h
    · cases h
      exact hbelow
    · split at h
      · cases h
        exact habove
      · split at h
        · cases h
          exact habove
        · split at h
          · cases h
            exact hbelow
          · cases h
            exact habove

/-- Above the number a span reaches two quarters of a unit far. -/
theorem holds_of_above {m e c d : Nat} (hlow : (span m e).middle * d < c)
    (hhigh : c < (span m e).middle * d + 2 * 2 ^ e * d) (hm : 0 < m) :
    (span m e).holds c d = true := by
  have hbelow : (span m e).low * d ≤ (span m e).middle * d := by
    rw [span_low, span_middle]
    refine Nat.mul_le_mul_right d (Nat.mul_le_mul_right _ ?_)
    omega
  have habove : (span m e).high * d = (span m e).middle * d + 2 * 2 ^ e * d := by
    rw [span_high, span_middle]
    ring
  rw [Span.holds, habove]
  split
  · simp only [Bool.and_eq_true, decide_eq_true_eq]
    omega
  · simp only [Bool.and_eq_true, decide_eq_true_eq]
    omega

/-- A grid whose step is shorter than the upper half of the span has a point in it. -/
theorem onGrid_of_fine (tie : Tie) {m e : Nat} {k : Int} (hm : 0 < m)
    (hfine : spanUnit * 10 ^ k.toNat < 2 * 2 ^ e * 10 ^ (-k).toNat) :
    ∃ c, (span m e).onGrid tie k = some c := by
  have hstep : 0 < spanUnit * 10 ^ k.toNat := Nat.mul_pos spanUnit_pos (Nat.pow_pos (by decide))
  have hinside : (span m e).holds
      (((span m e).middle * 10 ^ (-k).toNat / (spanUnit * 10 ^ k.toNat) + 1)
        * (spanUnit * 10 ^ k.toNat)) (10 ^ (-k).toNat) = true := by
    have hdiv := Nat.div_add_mod ((span m e).middle * 10 ^ (-k).toNat) (spanUnit * 10 ^ k.toNat)
    have hmod := Nat.mod_lt ((span m e).middle * 10 ^ (-k).toNat) hstep
    rw [Nat.mul_comm] at hdiv
    rw [Nat.succ_mul]
    exact holds_of_above (by omega) (by omega) hm
  simp only [Span.onGrid, Nat.pow_eq, hinside]
  split
  · rename_i _ h
    cases h
  · exact ⟨_, rfl⟩
  · exact ⟨_, rfl⟩
  · split
    · exact ⟨_, rfl⟩
    · split
      · exact ⟨_, rfl⟩
      · split
        · exact ⟨_, rfl⟩
        · exact ⟨_, rfl⟩

/-! ## The search -/

/-- If the last grid has a point in the span, the search stops at a point of it. -/
theorem admits_search {s : Span} {tie : Tie} {tries : Nat} {k : Int}
    (h : ∃ c, s.onGrid tie (k - tries) = some c) : s.Admits (s.search tie (tries + 1) k) := by
  induction tries generalizing k with
  | zero =>
    rcases h with ⟨c, hc⟩
    rw [Int.natCast_zero, Int.sub_zero] at hc
    simp only [Span.search, hc]
    exact admits_of_onGrid hc
  | succ tries ih =>
    rw [Span.search]
    split
    · rename_i c hc
      exact admits_of_onGrid hc
    · apply ih
      rwa [show k - 1 - (tries : Int) = k - ((tries + 1 : Nat) : Int) by omega]

/-- The grid 23 places below the highest digit is finer than the span: a number has at most 53
binary digits, and `2 ^ 54` is less than `10 ^ 21`. -/
theorem fine_topExponent {m e : Nat} (hm : 0 < m) (hbits : m < 2 ^ 53) :
    spanUnit * 10 ^ ((span m e).topExponent - 23).toNat
      < 2 * 2 ^ e * 10 ^ (-((span m e).topExponent - 23)).toNat := by
  have hmiddle : (span m e).middle < 2 ^ 54 * (2 * 2 ^ e) := by
    have hmul : m * 2 ^ e < 2 ^ 53 * 2 ^ e := Nat.mul_lt_mul_of_pos_right hbits (Nat.two_pow_pos e)
    rw [span_middle, Nat.mul_assoc]
    omega
  have hpos : 0 < (span m e).middle := by
    rw [span_middle]
    exact Nat.mul_pos (Nat.mul_pos (by decide) hm) (Nat.two_pow_pos e)
  have hunit := spanUnit_pos
  rw [Span.topExponent, ← Numeral.digits, ← Numeral.digits]
  generalize (span m e).middle = mid at hmiddle hpos ⊢
  generalize 2 * 2 ^ e = w at hmiddle ⊢
  generalize spanUnit = u at hunit ⊢
  split
  · -- the number has digits before the point, and `l` is how many
    rename_i hle
    have hlow := Numeral.pow_length_digits_le (Nat.div_pos hle hunit)
    rw [Nat.le_div_iff_mul_le hunit] at hlow
    have hlength := Numeral.length_digits_pos (mid / u)
    generalize (Numeral.digits (mid / u)).length = l at hlow hlength ⊢
    rcases Nat.lt_or_ge l 23 with hshort | hlong
    · rw [show ((l : Int) - 23).toNat = 0 by omega,
        show (-((l : Int) - 23)).toNat = 23 - l by omega,
        Nat.pow_zero, Nat.mul_one]
      have hpow : 10 ^ (l - 1) * 10 ^ (23 - l) = 10 ^ 22 := by
        rw [← Nat.pow_add]
        congr 1
        omega
      apply Nat.lt_of_mul_lt_mul_left (a := 10 ^ (l - 1))
      calc 10 ^ (l - 1) * u ≤ mid := hlow
        _ < 10 ^ 22 * w := by omega
        _ = 10 ^ (l - 1) * (w * 10 ^ (23 - l)) := by rw [← hpow]; ring
    · rw [show ((l : Int) - 23).toNat = l - 23 by omega,
        show (-((l : Int) - 23)).toNat = 0 by omega,
        Nat.pow_zero, Nat.mul_one]
      have hpow : 10 ^ (l - 1) * u = 10 ^ 22 * (u * 10 ^ (l - 23)) := by
        rw [show l - 1 = 22 + (l - 23) by omega, Nat.pow_add]
        ring
      generalize u * 10 ^ (l - 23) = step at hpow ⊢
      omega
  · -- the number is below one, and `l` counts the digits of its inverse
    rename_i hlt
    have hhigh := Numeral.lt_pow_length_digits (u / mid)
    rw [Nat.div_lt_iff_lt_mul hpos] at hhigh
    generalize (Numeral.digits (u / mid)).length = l at hhigh ⊢
    rw [show (2 - (l : Int) - 23).toNat = 0 by omega,
      show (-(2 - (l : Int) - 23)).toNat = l + 21 by omega, Nat.pow_zero, Nat.mul_one]
    calc u < 10 ^ l * mid := hhigh
      _ ≤ 10 ^ l * (10 ^ 21 * w) := Nat.mul_le_mul_left _ (by omega)
      _ = w * 10 ^ (l + 21) := by rw [Nat.pow_add]; ring

/-- The shortest decimal of a number lies in its span. -/
theorem admits_shortest (tie : Tie) {m e : Nat} (hm : 0 < m) (hbits : m < 2 ^ 53) :
    (span m e).Admits (shortest tie m e) := by
  simp only [shortest, Nat.ne_of_gt hm, if_false]
  exact admits_search (onGrid_of_fine tie hm (fine_topExponent hm hbits))

end Real64
end SignalTree
