import Mathlib
import SignalTree.Proofs.Numeral.Digits
import SignalTree.Proofs.Real64.Rounding
import SignalTree.Proofs.Real64.Shortest
import SignalTree.Proofs.Text.Trim
import SignalTree.Real64.Text

/-!
# Text — real numbers are read back

The text of a decimal is read as that decimal, positional or with an exponent, and the decimal of a
number lies in its span, so reading rounds it to the number.

* `Real64.readUnsigned_positionalText`, `Real64.readUnsigned_exponentText`: reading the digits,
  wherever the point stands;
* `Real64.ofDecimal_of_admits`: a decimal in the span of a number is taken for it, since the limits
  on exponents are wider than the format;
* `Real64.read_write_of_isFinite`: every finite number is read from its text, in any layout;
* `Real64.read_write_plain`: where infinities have words that are read, every value but `nan` is.
-/

namespace SignalTree

theorem Numeral.graphic_of_mem_signedDigits {i : Int} {c : Char}
    (hc : c ∈ Numeral.signedDigits i) : Text.IsGraphic c := by
  cases i with
  | ofNat n => exact Text.isGraphic_of_isDigit (isDigit_of_mem_digits hc)
  | negSucc n =>
    rcases List.mem_cons.1 hc with rfl | hc
    · decide
    · exact Text.isGraphic_of_isDigit (isDigit_of_mem_digits hc)

namespace Real64

/-! ## Reading digits -/

theorem toLower_of_isDigit {c : Char} (h : c.isDigit = true) : c.toLower = c := by
  apply Char.toLower_eq_of_not_isUpper
  intro hupper
  simp only [Char.isDigit, Char.isUpper, UInt32.le_iff_toNat_le, Bool.and_eq_true,
    decide_eq_true_eq, ge_iff_le] at h hupper
  exact absurd (Nat.le_trans hupper.1 h.2) (by decide)

/-- A text that starts with a digit is none of the words. -/
theorem readUnsigned_of_digit (negative : Bool) {c : Char} {cs whole part rest : List Char}
    {e : Int}
    (hc : c.isDigit = true) (hsplit : splitDigits (c :: cs) = (whole, part, rest))
    (hexponent : readExponent rest = some e) :
    readUnsigned negative (c :: cs)
      = .ok (ofDecimal negative (Numeral.value 0 (whole ++ part)) (e - (part.length : Int))) := by
  have hword : ∀ word ∈ ["inf", "infinity", "nan"], (c :: cs).map Char.toLower ≠ word.toList := by
    intro word hword heq
    rw [List.map_cons, toLower_of_isDigit hc] at heq
    have hhead : word.toList.head? = some c := by simp [← heq]
    have hletter : ["inf", "infinity", "nan"].all
        (fun word => word.toList.head?.all (fun d => !d.isDigit)) = true := by decide
    have hnot := List.all_eq_true.1 hletter word hword
    simp [hhead, hc] at hnot
  have hinf := hword "inf" (by simp)
  have hinfinity := hword "infinity" (by simp)
  have hnan := hword "nan" (by simp)
  have hwhole : whole.isEmpty = false := by
    have hfirst : (splitDigits (c :: cs)).1.isEmpty = false := by
      simp only [splitDigits]
      split <;> simp [hc]
    rwa [hsplit] at hfirst
  simp only [readUnsigned, hinf, hinfinity, hnan, decide_false, Bool.or_false, Bool.false_eq_true,
    if_false, hsplit, hwhole, Bool.false_and, hexponent]

/-- A row of digits without a point, and what follows it. -/
theorem splitDigits_whole {ds rest : List Char} (h : ∀ c ∈ ds, c.isDigit = true)
    (hstop : ∀ c, rest.head? = some c → c.isDigit = false ∧ c ≠ '.') :
    splitDigits (ds ++ rest) = (ds, [], rest) := by
  have htake := Text.takeWhile_run rest h fun c hc => (hstop c hc).1
  have hdrop := Text.dropWhile_run rest h fun c hc => (hstop c hc).1
  rw [splitDigits, htake, hdrop]
  cases rest with
  | nil => rfl
  | cons c rest =>
    have hpoint := (hstop c rfl).2
    simp [hpoint]

/-- The digits before the point and after it, and what follows them. -/
theorem splitDigits_point {ds part rest : List Char} (h : ∀ c ∈ ds, c.isDigit = true)
    (hpart : ∀ c ∈ part, c.isDigit = true)
    (hstop : ∀ c, rest.head? = some c → c.isDigit = false) :
    splitDigits (ds ++ '.' :: (part ++ rest)) = (ds, part, rest) := by
  have htake := Text.takeWhile_run ('.' :: (part ++ rest)) h (by simp)
  have hdrop := Text.dropWhile_run ('.' :: (part ++ rest)) h (by simp)
  have htake' := Text.takeWhile_run rest hpart hstop
  have hdrop' := Text.dropWhile_run rest hpart hstop
  simp [splitDigits, htake, hdrop, htake', hdrop']

theorem readUnsigned_whole (negative : Bool) {c : Char} {ds rest : List Char} {e : Int}
    (h : ∀ d ∈ c :: ds, d.isDigit = true)
    (hstop : ∀ d, rest.head? = some d → d.isDigit = false ∧ d ≠ '.')
    (hexponent : readExponent rest = some e) :
    readUnsigned negative (c :: ds ++ rest)
      = .ok (ofDecimal negative (Numeral.value 0 (c :: ds)) e) := by
  have hread := readUnsigned_of_digit negative (h c (List.mem_cons_self ..))
    (splitDigits_whole h hstop) hexponent
  simpa using hread

theorem readUnsigned_point (negative : Bool) (c : Char) (ds : List Char) {part : List Char}
    (rest : List Char) {e : Int} (h : ∀ d ∈ c :: ds, d.isDigit = true)
    (hpart : ∀ d ∈ part, d.isDigit = true)
    (hstop : ∀ d, rest.head? = some d → d.isDigit = false)
    (hexponent : readExponent rest = some e) :
    readUnsigned negative (c :: ds ++ '.' :: (part ++ rest))
      = .ok (ofDecimal negative (Numeral.value 0 (c :: ds ++ part)) (e - (part.length : Int))) :=
  readUnsigned_of_digit negative (h c (List.mem_cons_self ..)) (splitDigits_point h hpart hstop)
    hexponent

/-! ## Zeros -/

/-- Rounding depends on the quotient only. -/
theorem roundHalfEven_mul (n d : Nat) {a : Nat} (ha : 0 < a) :
    roundHalfEven (n * a) (d * a) = roundHalfEven n d := by
  have htwice : 2 * (n % d * a) = 2 * (n % d) * a := (Nat.mul_assoc ..).symm
  have hmore : d * a < 2 * (n % d) * a ↔ d < 2 * (n % d) := Nat.mul_lt_mul_right ha
  have hequal : 2 * (n % d) * a = d * a ↔ 2 * (n % d) = d := Nat.mul_left_inj (Nat.ne_of_gt ha)
  simp only [roundHalfEven, Nat.mul_div_mul_right _ _ ha, Nat.mul_mod_mul_right, htwice, hmore,
    beq_eq_decide, hequal]

theorem nearest_mul (negative : Bool) (n d : Nat) {a : Nat} (ha : 0 < a) :
    nearest negative (n * a) (d * a) = nearest negative n d := by
  have hscaled : n * a * 2 ^ 1074 = n * 2 ^ 1074 * a := Nat.mul_right_comm ..
  have hstep : ∀ e, d * a * 2 ^ e = d * 2 ^ e * a := fun e => Nat.mul_right_comm ..
  simp only [nearest_eq_pow, hscaled, hstep, Nat.mul_div_mul_right _ _ ha, roundHalfEven_mul _ _ ha]

/-- Zeros at the end of the coefficient stand for as much of the exponent. -/
theorem ofDecimal_mul_pow (negative : Bool) (n j : Nat) (i : Int) :
    ofDecimal negative (n * 10 ^ j) i = ofDecimal negative n (i + j) := by
  rcases Nat.eq_zero_or_pos n with rfl | hn
  · simp [ofDecimal]
  · have hpos : n * 10 ^ j ≠ 0 := Nat.ne_of_gt (Nat.mul_pos hn (Nat.pow_pos (by decide)))
    have hlength := Numeral.length_digits_mul_pow hn j
    have hwidth : (((Numeral.digits (n * 10 ^ j)).length : Nat) : Int) + i
        = ((Numeral.digits n).length : Int) + (i + j) := by omega
    -- the one quotient is the other, with a common power of ten
    have hover : n * 10 ^ j * 10 ^ i.toNat
        = n * 10 ^ (i + j).toNat * 10 ^ min j (-i).toNat := by
      rw [Nat.mul_assoc, Nat.mul_assoc, ← Nat.pow_add, ← Nat.pow_add]
      congr 2
      omega
    have hunder : 10 ^ (-i).toNat = 10 ^ (-(i + j)).toNat * 10 ^ min j (-i).toNat := by
      rw [← Nat.pow_add]
      congr 1
      omega
    rw [Numeral.digits, Numeral.digits] at hwidth
    simp only [ofDecimal, hpos, Nat.ne_of_gt hn, if_false, hwidth, Nat.pow_eq, hover, hunder,
      nearest_mul _ _ _ (Nat.pow_pos (by decide : 0 < 10))]

/-- A decimal with all its zeros written out. -/
theorem ofDecimal_toNat (negative : Bool) (c : Nat) (k : Int) :
    ofDecimal negative (c * 10 ^ k.toNat) (-((-k).toNat : Int)) = ofDecimal negative c k := by
  rw [ofDecimal_mul_pow, show -((-k).toNat : Int) + (k.toNat : Int) = k by omega]

/-! ## Reading decimals -/

/-- The positional text of a decimal is read as the decimal, wherever the point stands. -/
theorem readUnsigned_positionalText (negative fraction : Bool) (c : Nat) (k : Int) :
    readUnsigned negative (positionalText fraction (Numeral.digits c) k)
      = .ok (ofDecimal negative c k) := by
  have hdigits : ∀ d ∈ Numeral.digits c, d.isDigit = true := fun d hd =>
    Numeral.isDigit_of_mem_digits hd
  have hlength := Numeral.length_digits_pos c
  have hvalue := Numeral.value_digits c
  simp only [positionalText]
  split
  · -- a whole number, with zeros up to the point
    rename_i hk
    have hall : ∀ d ∈ Numeral.digits c ++ List.replicate k.toNat '0', d.isDigit = true := by
      intro d hd
      rcases List.mem_append.1 hd with hd | hd
      · exact hdigits d hd
      · exact Numeral.isDigit_of_mem_zeros hd
    have hread : Numeral.value 0 (Numeral.digits c ++ List.replicate k.toNat '0')
        = c * 10 ^ k.toNat := by
      rw [Numeral.value_append, hvalue, Numeral.value_zeros, Nat.mul_comm]
    have hdecimal := ofDecimal_mul_pow negative c k.toNat
    cases htext : Numeral.digits c ++ List.replicate k.toNat '0' with
    | nil => simp [Numeral.digits_ne_nil] at htext
    | cons d ds =>
      rw [htext] at hall hread
      cases fraction with
      | false =>
        rw [if_neg (by decide), readUnsigned_whole negative hall (by simp) rfl, hread, hdecimal,
          show 0 + (k.toNat : Int) = k by omega]
      | true =>
        have hzero : ∀ d ∈ ['0'], d.isDigit = true := by simp
        have htenth : Numeral.value 0 (d :: ds ++ ['0']) = c * 10 ^ (k.toNat + 1) := by
          rw [Numeral.value_append, hread, ← List.replicate_one, Numeral.value_zeros, Nat.pow_succ]
          ring
        have hpointed := readUnsigned_point negative d ds [] hall hzero (by simp) rfl
        rw [if_pos rfl]
        rw [htenth, ofDecimal_mul_pow] at hpointed
        rw [show k = 0 - (['0'].length : Int) + ((k.toNat + 1 : Nat) : Int) by
          rw [List.length_singleton]; omega]
        exact hpointed
  · rename_i hk
    split
    · -- the point stands among the digits
      rename_i hpoint
      generalize hp : (((Numeral.digits c).length : Int) + k).toNat = p
      have hpart : 0 - ((((Numeral.digits c).drop p).length : Nat) : Int) = k := by
        rw [List.length_drop]
        omega
      have htake : ∀ d ∈ (Numeral.digits c).take p, d.isDigit = true := fun d hd =>
        hdigits d (List.mem_of_mem_take hd)
      have hdrop : ∀ d ∈ (Numeral.digits c).drop p, d.isDigit = true := fun d hd =>
        hdigits d (List.mem_of_mem_drop hd)
      cases htext : (Numeral.digits c).take p with
      | nil =>
        have hempty := congrArg List.length htext
        rw [List.length_take, List.length_nil] at hempty
        omega
      | cons d ds =>
        rw [htext] at htake
        have hpointed := readUnsigned_point negative d ds [] htake hdrop (by simp) rfl
        rw [List.append_nil, hpart, ← htext, List.take_append_drop, hvalue, htext] at hpointed
        exact hpointed
    · -- the point stands before the digits
      rename_i hpoint
      generalize hz : (-(((Numeral.digits c).length : Int) + k)).toNat = z
      have hpart : 0 - (((List.replicate z '0' ++ Numeral.digits c).length : Nat) : Int) = k := by
        rw [List.length_append, List.length_replicate]
        omega
      have hall : ∀ d ∈ List.replicate z '0' ++ Numeral.digits c, d.isDigit = true := by
        intro d hd
        rcases List.mem_append.1 hd with hd | hd
        · exact Numeral.isDigit_of_mem_zeros hd
        · exact hdigits d hd
      have hread : Numeral.value 0 (['0'] ++ (List.replicate z '0' ++ Numeral.digits c)) = c := by
        have hzero : Numeral.value 0 ['0'] = 0 := rfl
        rw [Numeral.value_append, hzero, Numeral.value_append, Numeral.value_zeros, Nat.mul_zero,
          hvalue]
      have hzero : ∀ d ∈ ['0'], d.isDigit = true := by simp
      have hpointed := readUnsigned_point negative '0' [] [] hzero hall (by simp) rfl
      rw [hread, hpart, List.append_nil] at hpointed
      exact hpointed

/-- An exponent is read with its sign. -/
theorem readExponent_signedDigits (plus : Bool) (i : Int) :
    readExponent ('e' :: ((if plus && 0 ≤ i then ['+'] else []) ++ Numeral.signedDigits i))
      = some i := by
  have hread : ∀ n, (Numeral.digits n).isEmpty = false ∧
      (Numeral.digits n).all Char.isDigit = true ∧
      Numeral.value 0 (Numeral.digits n) = n := fun n =>
    ⟨List.isEmpty_eq_false_iff.2 (Numeral.digits_ne_nil n),
      List.all_eq_true.2 fun _ hc => Numeral.isDigit_of_mem_digits hc, Numeral.value_digits n⟩
  cases i with
  | ofNat n =>
    have hunsigned : splitSign (Numeral.digits n) = (false, Numeral.digits n) := by
      rcases Numeral.exists_digits_eq_cons n with ⟨c, cs, hcons, hc⟩
      rw [hcons, splitSign]
      · rintro rest ⟨rfl, -⟩
        exact absurd hc (by decide)
      · rintro rest ⟨rfl, -⟩
        exact absurd hc (by decide)
    cases plus with
    | false => simp [readExponent, Numeral.signedDigits, hunsigned, hread]
    | true => simp [readExponent, Numeral.signedDigits, splitSign, hread]
  | negSucc n =>
    have hbelow : ¬ 0 ≤ Int.negSucc n := by omega
    have hvalue : -((n + 1 : Nat) : Int) = Int.negSucc n := rfl
    simp only [readExponent, Numeral.signedDigits, hbelow, decide_false, Bool.and_false]
    simp [splitSign, hread, ← hvalue]

/-- The text of a decimal with an exponent is read as the decimal. -/
theorem readUnsigned_exponentText (negative plus : Bool) (c : Nat) (k : Int) :
    readUnsigned negative (exponentText plus (Numeral.digits c) k)
      = .ok (ofDecimal negative c k) := by
  have hexponent := readExponent_signedDigits plus ((Numeral.digits c).length + k - 1)
  have hsign : ∀ point : Int, decide (1 ≤ point) = decide (0 ≤ point - 1) := fun point =>
    decide_eq_decide.2 (by omega)
  have hvalue := Numeral.value_digits c
  have hdigits : ∀ d ∈ Numeral.digits c, d.isDigit = true := fun d hd =>
    Numeral.isDigit_of_mem_digits hd
  simp only [exponentText, hsign]
  generalize (if plus && 0 ≤ ((Numeral.digits c).length : Int) + k - 1 then ['+'] else [])
    ++ Numeral.signedDigits ((Numeral.digits c).length + k - 1) = rest at hexponent ⊢
  have hstop : ∀ d, ('e' :: rest).head? = some d → d.isDigit = false ∧ d ≠ '.' := by simp
  rcases hds : Numeral.digits c with _ | ⟨d, _ | ⟨d', ds⟩⟩
  · exact absurd hds (Numeral.digits_ne_nil c)
  · rw [hds] at hexponent hvalue hdigits
    have hread := readUnsigned_whole negative hdigits hstop hexponent
    rw [hvalue, show (([d].length : Nat) : Int) + k - 1 = k by simp] at hread
    exact hread
  · rw [hds] at hexponent hvalue hdigits
    have hread := readUnsigned_point negative d [] _ (by simpa using hdigits d)
      (fun x hx => hdigits x (List.mem_cons_of_mem _ hx)) (fun x hx => (hstop x hx).1) hexponent
    have hpoint : ((d :: d' :: ds).length : Int) + k - 1 - ((d' :: ds).length : Int) = k := by
      rw [List.length_cons]
      omega
    rw [show [d] ++ d' :: ds = d :: d' :: ds from rfl, hvalue, hpoint] at hread
    exact hread

/-! ## Rounding what was read -/

/-- Where the digits of a quotient near a number of the format end: not more than 309 places before
the point, and not more than 324 behind it. -/
theorem width_bounds {n f m e : Nat} (hc : Canonical m e) (hm : 0 < m)
    (h : Near (n * 2 ^ 1074) (10 ^ f * 2 ^ e) m) :
    0 < n ∧ (Numeral.digits n).length ≤ 309 + f ∧ f < (Numeral.digits n).length + 324 := by
  have hlargest : 2 ^ 53 * 2 ^ 2045 ≤ 10 ^ 309 * 2 ^ 1074 := by decide +kernel
  have hleast : 2 * 2 ^ 1074 ≤ 10 ^ 324 := by decide +kernel
  have hunit : 0 < 2 ^ 1074 := by decide +kernel
  have he : 2 ^ e ≤ 2 ^ 2045 := pow_le_pow_right₀ (by decide) hc.2.1
  have habove := h.above
  have hbelow := h.below
  -- the powers are names from here on, so that nothing evaluates them
  generalize 2 ^ 1074 = u at *
  generalize 2 ^ 2045 = top at *
  have hpos : 0 < 10 ^ f * 2 ^ e := Nat.mul_pos (Nat.pow_pos (by decide)) (Nat.two_pow_pos e)
  have hone : 10 ^ f * 2 ^ e ≤ m * (10 ^ f * 2 ^ e) := Nat.le_mul_of_pos_left _ hm
  have hmost : m * (10 ^ f * 2 ^ e) + 10 ^ f * 2 ^ e ≤ 2 ^ 53 * (10 ^ f * 2 ^ e) := by
    rw [← Nat.succ_mul]
    exact Nat.mul_le_mul_right _ hc.1
  have hn : 0 < n := by
    rcases Nat.eq_zero_or_pos n with hzero | hn
    · rw [hzero, Nat.zero_mul] at habove
      omega
    · exact hn
  refine ⟨hn, ?_, ?_⟩
  · have hlt : n * u < 10 ^ (309 + f) * u := by
      calc n * u < 2 ^ 53 * (10 ^ f * 2 ^ e) := by omega
        _ ≤ 2 ^ 53 * (10 ^ f * top) := Nat.mul_le_mul_left _ (Nat.mul_le_mul_left _ he)
        _ = 10 ^ f * (2 ^ 53 * top) := by ring
        _ ≤ 10 ^ f * (10 ^ 309 * u) := Nat.mul_le_mul_left _ hlargest
        _ = 10 ^ (309 + f) * u := by rw [pow_add, ← Nat.mul_assoc, Nat.mul_comm (10 ^ f)]
    exact (Numeral.length_digits_le_iff (by omega)).2 (Nat.lt_of_mul_lt_mul_right hlt)
  · have hlt : 10 ^ f < 10 ^ ((Numeral.digits n).length + 324) := by
      calc 10 ^ f ≤ 10 ^ f * 2 ^ e := Nat.le_mul_of_pos_right _ (Nat.two_pow_pos e)
        _ ≤ 2 * (n * u) := by omega
        _ < 2 * (10 ^ (Numeral.digits n).length * u) :=
          Nat.mul_lt_mul_of_pos_left
            (Nat.mul_lt_mul_of_pos_right (Numeral.lt_pow_length_digits n) hunit) (by decide)
        _ = 10 ^ (Numeral.digits n).length * (2 * u) := Nat.mul_left_comm _ _ _
        _ ≤ 10 ^ (Numeral.digits n).length * 10 ^ 324 := Nat.mul_le_mul_left _ hleast
        _ = 10 ^ ((Numeral.digits n).length + 324) := (pow_add _ _ _).symm
    exact (Nat.pow_lt_pow_iff_right (by decide)).1 hlt

/-- A decimal in the span of a number is taken for the number. -/
theorem ofDecimal_of_admits (negative : Bool) {m e : Nat} {d : Decimal} (hc : Canonical m e)
    (hm : 0 < m) (h : (span m e).Admits d) :
    ofDecimal negative d.coefficient d.exponent = .finite negative m e hc := by
  have hscale : 0 < 10 ^ (-d.exponent).toNat := Nat.pow_pos (by decide)
  have hholds : (span m e).holds (d.coefficient * 10 ^ d.exponent.toNat * spanUnit)
      (10 ^ (-d.exponent).toNat) = true := by
    rw [Nat.mul_assoc, Nat.mul_comm _ spanUnit]
    exact h
  have hnearest := nearest_of_holds negative hc hscale hholds
  rcases width_bounds hc hm (near_of_holds hholds) with ⟨hn, hmost, hleast⟩
  rw [← ofDecimal_toNat]
  generalize d.coefficient * 10 ^ d.exponent.toNat = n at *
  generalize (-d.exponent).toNat = f at *
  rw [Numeral.digits] at hmost hleast
  simp only [ofDecimal, Nat.pow_eq]
  rw [if_neg (Nat.ne_of_gt hn), if_neg (by omega), if_neg (by omega),
    show (-(f : Int)).toNat = 0 by omega, show (-(-(f : Int))).toNat = f by omega, Nat.pow_zero,
    Nat.mul_one]
  exact hnearest

/-! ## Values -/

/-- The digits of a number without its sign are read back, however they are laid out. -/
theorem readUnsigned_decimal (l : Layout) (negative : Bool) {m e : Nat} (hc : Canonical m e) :
    readUnsigned negative (l.decimal (shortest l.tie m e)) = .ok (.finite negative m e hc) := by
  have hread : readUnsigned negative (l.decimal (shortest l.tie m e)) = .ok (ofDecimal negative
      (shortest l.tie m e).coefficient (shortest l.tie m e).exponent) := by
    simp only [Layout.decimal]
    split
    · exact readUnsigned_positionalText negative l.fraction _ _
    · exact readUnsigned_exponentText negative l.plus _ _
  rw [hread]
  rcases Nat.eq_zero_or_pos m with rfl | hm
  · have he : e = 0 := by
      rcases hc.2.2 with he | hbits
      · exact he
      · exact absurd hbits (by decide)
    subst he
    rfl
  · rw [ofDecimal_of_admits negative hc hm (admits_shortest _ hm hc.1)]

/-- A text without a sign starts with a digit. -/
theorem exists_decimal_eq_cons (l : Layout) (d : Decimal) :
    ∃ c cs, l.decimal d = c :: cs ∧ c.isDigit = true := by
  rcases Numeral.exists_digits_eq_cons d.coefficient with ⟨c, cs, hcons, hdigit⟩
  simp only [Layout.decimal, hcons]
  split
  · simp only [positionalText]
    split
    · exact ⟨c, _, rfl, hdigit⟩
    · split
      · rename_i hpoint
        obtain ⟨p, hp⟩ : ∃ p, (((c :: cs).length : Int) + d.exponent).toNat = p + 1 :=
          ⟨_, (Nat.succ_pred_eq_of_pos (by omega)).symm⟩
        rw [hp]
        exact ⟨c, _, rfl, hdigit⟩
      · exact ⟨'0', _, rfl, by decide⟩
  · cases cs with
    | nil => exact ⟨c, _, rfl, hdigit⟩
    | cons c' cs => exact ⟨c, _, rfl, hdigit⟩

/-- Every finite number is read from its text, however it is laid out. -/
theorem read_write_of_isFinite (l : Layout) {x : Real64} (hx : x.isFinite = true) :
    read (x.write l) = .ok x := by
  cases x with
  | nan => cases hx
  | infinite s => cases hx
  | finite s m e hc =>
    have hread := readUnsigned_decimal l s hc
    rcases exists_decimal_eq_cons l (shortest l.tie m e) with ⟨c, cs, hcons, hdigit⟩
    rw [write, hcons]
    rw [hcons] at hread
    cases s with
    | true => simpa [read, splitSign] using hread
    | false =>
      have hminus : c ≠ '-' := by
        rintro rfl
        exact absurd hdigit (by decide)
      have hplus : c ≠ '+' := by
        rintro rfl
        exact absurd hdigit (by decide)
      simpa [read, splitSign, hminus, hplus] using hread

/-- Every value but `nan` is read from its text. -/
theorem read_write_plain {x : Real64} (hx : x ≠ .nan) : read (x.write .plain) = .ok x := by
  cases x with
  | nan => exact absurd rfl hx
  | infinite s => cases s <;> rfl
  | finite s m e hc => exact read_write_of_isFinite .plain rfl

/-! ## Characters -/

theorem graphic_of_mem_positionalText {fraction : Bool} {c : Nat} {k : Int} {d : Char}
    (hd : d ∈ positionalText fraction (Numeral.digits c) k) : Text.IsGraphic d := by
  have hdigits : ∀ d ∈ Numeral.digits c, Text.IsGraphic d := fun d hd =>
    Text.isGraphic_of_isDigit (Numeral.isDigit_of_mem_digits hd)
  have hzeros : ∀ n, ∀ d ∈ List.replicate n '0', Text.IsGraphic d := fun n d hd =>
    Text.isGraphic_of_isDigit (Numeral.isDigit_of_mem_zeros hd)
  simp only [positionalText] at hd
  split at hd
  · rcases List.mem_append.1 hd with hd | hd
    · rcases List.mem_append.1 hd with hd | hd
      · exact hdigits d hd
      · exact hzeros _ d hd
    · cases fraction with
      | false => cases hd
      | true => exact Text.isGraphic_of_all (by decide) hd
  · split at hd
    · rcases List.mem_append.1 hd with hd | hd
      · exact hdigits d (List.mem_of_mem_take hd)
      · rcases List.mem_cons.1 hd with rfl | hd
        · decide
        · exact hdigits d (List.mem_of_mem_drop hd)
    · simp only [List.mem_cons, List.mem_append] at hd
      rcases hd with rfl | rfl | hd | hd
      · decide
      · decide
      · exact hzeros _ d hd
      · exact hdigits d hd

theorem graphic_of_mem_exponentText {plus : Bool} {c : Nat} {k : Int} {d : Char}
    (hd : d ∈ exponentText plus (Numeral.digits c) k) : Text.IsGraphic d := by
  have hdigits : ∀ d ∈ Numeral.digits c, Text.IsGraphic d := fun d hd =>
    Text.isGraphic_of_isDigit (Numeral.isDigit_of_mem_digits hd)
  simp only [exponentText, List.mem_append, List.mem_cons] at hd
  rcases hd with hd | rfl | hd | hd
  · rcases hds : Numeral.digits c with _ | ⟨d', _ | ⟨d'', ds⟩⟩
    · rw [hds] at hd
      cases hd
    · rw [hds] at hd hdigits
      exact hdigits d hd
    · rw [hds] at hd hdigits
      rcases List.mem_cons.1 hd with rfl | hd
      · exact hdigits _ (List.mem_cons_self ..)
      · rcases List.mem_cons.1 hd with rfl | hd
        · decide
        · exact hdigits d (List.mem_cons_of_mem _ hd)
  · decide
  · split at hd
    · rw [List.mem_singleton.1 hd]
      decide
    · cases hd
  · exact Numeral.graphic_of_mem_signedDigits hd

/-- A number is written with visible characters of ASCII if the words of the layout are. -/
theorem graphic_of_mem_write {l : Layout}
    (hwords : ∀ c ∈ l.nan.toList ++ l.infinity.toList, Text.IsGraphic c) {x : Real64} {c : Char}
    (hc : c ∈ x.write l) : Text.IsGraphic c := by
  have hsign : ∀ s : Bool, c ∈ (if s then ['-'] else []) → Text.IsGraphic c := by
    intro s hs
    split at hs
    · rw [List.mem_singleton.1 hs]
      decide
    · cases hs
  cases x with
  | nan => exact hwords c (List.mem_append_left _ hc)
  | infinite s =>
    rcases List.mem_append.1 hc with hc | hc
    · exact hsign s hc
    · exact hwords c (List.mem_append_right _ hc)
  | finite s m e h =>
    rcases List.mem_append.1 hc with hc | hc
    · exact hsign s hc
    · simp only [Layout.decimal] at hc
      split at hc
      · exact graphic_of_mem_positionalText hc
      · exact graphic_of_mem_exponentText hc

end Real64
end SignalTree
