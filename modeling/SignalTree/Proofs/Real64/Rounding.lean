import Mathlib.Tactic.Ring
import SignalTree.Real64.Shortest

/-!
# Rounding — the span of a number rounds to the number

A span was defined as the reals that round to a number.  Here the rounding itself is compared with
it: whatever quotient lies in the span of `m · 2^(e - 1074)`, `Real64.nearest` gives that number.

* `Real64.Near`: a quotient is within half a unit of a whole number, and a tie is an even one;
* `Real64.roundHalfEven_of_near`: such a quotient is rounded to the whole number;
* `Real64.nearest_of_holds`: the same for the format.
-/

namespace SignalTree
namespace Real64

/-! ## Powers of two -/

theorem span_low (m e : Nat) :
    (span m e).low = (4 * m - if m = 2 ^ 52 ∧ 0 < e then 1 else 2) * 2 ^ e :=
  Nat.shiftLeft_eq _ _

theorem span_middle (m e : Nat) : (span m e).middle = 4 * m * 2 ^ e := Nat.shiftLeft_eq _ _

theorem span_high (m e : Nat) : (span m e).high = (4 * m + 2) * 2 ^ e := Nat.shiftLeft_eq _ _

theorem nearest_eq_pow (negative : Bool) (n d : Nat) :
    nearest negative n d =
      let e := Nat.log2 (n * 2 ^ 1074 / d) - 52
      let m := roundHalfEven (n * 2 ^ 1074) (d * 2 ^ e)
      let pair := if m = 2 ^ 53 then (2 ^ 52, e + 1) else (m, e)
      if h : Canonical pair.1 pair.2 then .finite negative pair.1 pair.2 h
      else .infinite negative := by
  simp only [nearest, Nat.shiftLeft_eq, Nat.one_mul]

/-! ## Whole numbers -/

/-- The quotient `n / d` is within a half of `m`, and exactly a half away only if `m` is even. -/
structure Near (n d m : Nat) : Prop where
  above : 2 * (m * d) ≤ 2 * n + d
  below : 2 * n ≤ 2 * (m * d) + d
  tie : m % 2 = 1 → 2 * (m * d) < 2 * n + d ∧ 2 * n < 2 * (m * d) + d

/-- A quotient within a half of a whole number is rounded to it. -/
theorem roundHalfEven_of_near {n d m : Nat} (hd : 0 < d) (h : Near n d m) :
    roundHalfEven n d = m := by
  have hsplit : d * (n / d) + n % d = n := Nat.div_add_mod n d
  have hr : n % d < d := Nat.mod_lt n hd
  rcases h with ⟨habove, hbelow, htie⟩
  rw [roundHalfEven]
  generalize n / d = q at hsplit ⊢
  generalize n % d = r at hsplit hr ⊢
  have hcomm : m * d = d * m := Nat.mul_comm m d
  rcases Nat.lt_trichotomy q m with hlt | heq | hgt
  · -- the whole part is one less, so the rest is at least a half
    have hq : q + 1 = m := by
      rcases Nat.lt_or_ge (q + 1) m with hfar | hge
      · have hmul : d * (q + 2) ≤ d * m := Nat.mul_le_mul_left d hfar
        rw [Nat.mul_add] at hmul
        omega
      · omega
    subst hq
    have hmul : d * (q + 1) = d * q + d := Nat.mul_succ d q
    have hhalf : d ≤ 2 * r := by omega
    rcases Nat.lt_or_ge d (2 * r) with hmore | hless
    · simp [hmore]
    · have hodd : q % 2 = 1 := by
        by_contra heven
        have hm := htie (by omega)
        omega
      have hequal : 2 * r = d := by omega
      simp [hequal, hodd]
  · -- the whole part is the number, so the rest is at most a half
    subst heq
    have hhalf : 2 * r ≤ d := by omega
    have hcond : ¬ (d < 2 * r) := by omega
    rcases Nat.lt_or_ge (2 * r) d with hless | hmore
    · have hne : ¬ (2 * r = d) := by omega
      simp [hcond, hne]
    · have heven : ¬ (q % 2 = 1) := by
        intro hodd
        have hm := htie hodd
        omega
      simp [hcond, heven]
  · -- the whole part cannot be more
    have hmul : d * (m + 1) ≤ d * q := Nat.mul_le_mul_left d hgt
    rw [Nat.mul_succ] at hmul
    omega

/-! ## Spans -/

theorem mul_spanUnit (n : Nat) : n * spanUnit = 4 * (n * 2 ^ 1074) := by
  have hunit : spanUnit = 4 * 2 ^ 1074 := by decide +kernel
  rw [hunit, Nat.mul_left_comm]

/-- What it means for a quotient to lie in a span, written without the unit of the span. -/
theorem near_of_holds {m e n d : Nat} (h : (span m e).holds (n * spanUnit) d = true) :
    Near (n * 2 ^ 1074) (d * 2 ^ e) m := by
  have hunit := mul_spanUnit n
  generalize n * 2 ^ 1074 = s at hunit ⊢
  have hhigh : (span m e).high * d = 4 * (m * (d * 2 ^ e)) + 2 * (d * 2 ^ e) := by
    rw [span_high]
    ring
  have hlow : 4 * (m * (d * 2 ^ e)) ≤ (span m e).low * d + 2 * (d * 2 ^ e) := by
    rw [span_low]
    have hcut : 4 * m ≤ (4 * m - if m = 2 ^ 52 ∧ 0 < e then 1 else 2) + 2 := by
      split <;> omega
    calc 4 * (m * (d * 2 ^ e)) = 4 * m * (d * 2 ^ e) := by ring
      _ ≤ ((4 * m - if m = 2 ^ 52 ∧ 0 < e then 1 else 2) + 2) * (d * 2 ^ e) :=
        Nat.mul_le_mul_right _ hcut
      _ = (4 * m - if m = 2 ^ 52 ∧ 0 < e then 1 else 2) * 2 ^ e * d + 2 * (d * 2 ^ e) := by ring
  rw [hunit, Span.holds, hhigh] at h
  generalize (span m e).low * d = low at hlow h
  split at h
  · simp only [Bool.and_eq_true, decide_eq_true_eq] at h
    rename_i hclosed
    have heven : m % 2 = 0 := by simpa [span] using hclosed
    refine ⟨by omega, by omega, ?_⟩
    intro hodd
    omega
  · simp only [Bool.and_eq_true, decide_eq_true_eq] at h
    refine ⟨by omega, by omega, ?_⟩
    intro _
    exact ⟨by omega, by omega⟩

/-! ## The format -/

/-- The exponent that the rounding settles on. -/
theorem log2_sub_eq {q e : Nat} (hlow : e = 0 ∨ 2 ^ 52 * 2 ^ e ≤ q) (hhigh : q < 2 ^ 53 * 2 ^ e) :
    Nat.log2 q - 52 = e := by
  rw [← Nat.pow_add] at hhigh
  rcases hlow with rfl | hlow
  · by_cases hq : q = 0
    · rw [hq]
      rfl
    · have hlog : Nat.log2 q < 53 := (Nat.log2_lt hq).2 hhigh
      omega
  · rw [← Nat.pow_add] at hlow
    have hq : q ≠ 0 := Nat.ne_of_gt (Nat.lt_of_lt_of_le (Nat.two_pow_pos _) hlow)
    have hlog : Nat.log2 q = 52 + e := by
      rw [Nat.log2_eq_iff hq]
      refine ⟨hlow, ?_⟩
      rwa [show 52 + e + 1 = 53 + e by omega]
    omega

/-- The rounding when its exponent and its significand are known; a significand that has become
too long is halved. -/
theorem nearest_eq (negative : Bool) {n d e m : Nat} {p : Nat × Nat} (hd : 0 < d)
    (hlow : e = 0 ∨ 2 ^ 52 * (d * 2 ^ e) ≤ n * 2 ^ 1074)
    (hhigh : n * 2 ^ 1074 < 2 ^ 53 * (d * 2 ^ e)) (hnear : Near (n * 2 ^ 1074) (d * 2 ^ e) m)
    (hp : (if m = 2 ^ 53 then (2 ^ 52, e + 1) else (m, e)) = p) (hc : Canonical p.1 p.2) :
    nearest negative n d = .finite negative p.1 p.2 hc := by
  have hround := roundHalfEven_of_near (Nat.mul_pos hd (Nat.two_pow_pos e)) hnear
  have hexponent : Nat.log2 (n * 2 ^ 1074 / d) - 52 = e := by
    refine log2_sub_eq ?_ ?_
    · rcases hlow with he | hlow
      · exact Or.inl he
      · refine Or.inr ((Nat.le_div_iff_mul_le hd).2 ?_)
        rwa [Nat.mul_assoc, Nat.mul_comm (2 ^ e)]
    · apply (Nat.div_lt_iff_lt_mul hd).2
      rwa [Nat.mul_assoc, Nat.mul_comm (2 ^ e)]
  subst hp
  simp only [nearest_eq_pow, hexponent, hround]
  exact dif_pos hc

/-- A span reaches less than half as far down if its number is a power of two. -/
theorem low_of_holds {e n d : Nat} (he : 0 < e)
    (h : (span (2 ^ 52) e).holds (n * spanUnit) d = true) :
    4 * 2 ^ 52 * (d * 2 ^ e) ≤ 4 * (n * 2 ^ 1074) + d * 2 ^ e := by
  have hlow : (span (2 ^ 52) e).low * d + d * 2 ^ e = 4 * 2 ^ 52 * (d * 2 ^ e) := by
    rw [span_low, if_pos ⟨rfl, he⟩]
    calc (4 * 2 ^ 52 - 1) * 2 ^ e * d + d * 2 ^ e
        = (4 * 2 ^ 52 - 1 + 1) * (d * 2 ^ e) := by
          generalize 4 * 2 ^ 52 - 1 = k
          ring
      _ = 4 * 2 ^ 52 * (d * 2 ^ e) := rfl
  rw [Span.holds, mul_spanUnit] at h
  generalize (span (2 ^ 52) e).low * d = low at h hlow
  generalize n * 2 ^ 1074 = s at h ⊢
  split at h
  · simp only [Bool.and_eq_true, decide_eq_true_eq] at h
    omega
  · simp only [Bool.and_eq_true, decide_eq_true_eq] at h
    omega

/-- Whatever lies in the span of a number is rounded to it. -/
theorem nearest_of_holds (negative : Bool) {m e n d : Nat} (hc : Canonical m e) (hd : 0 < d)
    (h : (span m e).holds (n * spanUnit) d = true) :
    nearest negative n d = .finite negative m e hc := by
  have hnear := near_of_holds h
  have hbits : m < 2 ^ 53 := hc.1
  have hmul : m * (d * 2 ^ e) + d * 2 ^ e ≤ 2 ^ 53 * (d * 2 ^ e) := by
    rw [← Nat.succ_mul]
    exact Nat.mul_le_mul_right _ hbits
  have hunit : 0 < d * 2 ^ e := Nat.mul_pos hd (Nat.two_pow_pos e)
  have hhigh : n * 2 ^ 1074 < 2 ^ 53 * (d * 2 ^ e) := by
    have hbelow := hnear.below
    omega
  by_cases hlow : e = 0 ∨ 2 ^ 52 * (d * 2 ^ e) ≤ n * 2 ^ 1074
  · exact nearest_eq negative hd hlow hhigh hnear (if_neg (Nat.ne_of_lt hbits)) hc
  · -- just below a power of two the exponent is one less, and the significand is rounded up to it
    have he : 0 < e := by omega
    have hform : 2 ^ 52 ≤ m := by
      rcases hc.2.2 with hzero | hform
      · omega
      · exact hform
    have hm : m = 2 ^ 52 := by
      rcases Nat.lt_or_ge (2 ^ 52) m with hmore | hle
      · have hmul' : (2 ^ 52 + 1) * (d * 2 ^ e) ≤ m * (d * 2 ^ e) := Nat.mul_le_mul_right _ hmore
        have habove := hnear.above
        omega
      · omega
    subst hm
    obtain ⟨f, rfl⟩ : ∃ f, e = f + 1 := ⟨e - 1, by omega⟩
    have hcut := low_of_holds he h
    have hdouble : d * 2 ^ (f + 1) = 2 * (d * 2 ^ f) := by
      rw [Nat.pow_succ]
      ring
    rw [hdouble] at hcut hlow hunit
    have hnear' : Near (n * 2 ^ 1074) (d * 2 ^ f) (2 ^ 53) := by
      refine ⟨by omega, by omega, ?_⟩
      intro hodd
      omega
    exact nearest_eq negative (p := (2 ^ 52, f + 1)) hd (Or.inr (by omega)) (by omega) hnear'
      (if_pos rfl) hc

end Real64
end SignalTree
