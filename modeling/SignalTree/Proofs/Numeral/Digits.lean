import Mathlib.Tactic.Ring
import SignalTree.Numeral.Integer
import SignalTree.Proofs.Text.Run

/-!
# Digits — decimal digits are read back

The digits of a number are decimal digits, there is at least one of them, and their value is the
number.  Both integer readers give back what was written.

* `Numeral.value_digits`: the value of the digits of a number;
* `Numeral.readUnsigned_digits`, `Numeral.readSigned_signedDigits`: the two readers.
-/

namespace SignalTree
namespace Numeral

/-! ## Digits -/

theorem digit?_of_isDigit {c : Char} (hc : c.isDigit = true) :
    digit? c = some (c.toNat - '0'.toNat) := by
  simp [digit?, hc]

theorem isDigit_of_mem_digits {c : Char} {n : Nat} (hc : c ∈ digits n) : c.isDigit = true :=
  Nat.isDigit_of_mem_toDigits (by decide) (by decide) hc

theorem digits_ne_nil (n : Nat) : digits n ≠ [] := Nat.toDigits_ne_nil

theorem length_digits_pos (n : Nat) : 0 < (digits n).length :=
  List.length_pos_iff.2 (digits_ne_nil n)

/-- The first digit, and the others. -/
theorem exists_digits_eq_cons (n : Nat) :
    ∃ c rest, digits n = c :: rest ∧ c.isDigit = true := by
  cases h : digits n with
  | nil => exact absurd h (digits_ne_nil n)
  | cons c rest => exact ⟨c, rest, rfl, isDigit_of_mem_digits (h ▸ List.mem_cons_self ..)⟩

theorem length_digits_le_iff {n k : Nat} (hk : 0 < k) : (digits n).length ≤ k ↔ n < 10 ^ k :=
  Nat.length_toDigits_le_iff (by decide) hk

theorem lt_pow_length_digits (n : Nat) : n < 10 ^ (digits n).length :=
  (length_digits_le_iff (length_digits_pos n)).1 (Nat.le_refl _)

theorem pow_length_digits_le {n : Nat} (hn : 0 < n) : 10 ^ ((digits n).length - 1) ≤ n := by
  rcases Nat.eq_zero_or_pos ((digits n).length - 1) with hone | hmore
  · rw [hone]
    exact hn
  · rw [← Nat.not_lt, ← length_digits_le_iff hmore]
    omega

/-- Zeros at the end are so many digits more. -/
theorem length_digits_mul_pow {n : Nat} (hn : 0 < n) (j : Nat) :
    (digits (n * 10 ^ j)).length = (digits n).length + j := by
  have hlength := length_digits_pos n
  have hpow : 0 < 10 ^ j := Nat.pow_pos (by decide)
  apply Nat.le_antisymm
  · rw [length_digits_le_iff (Nat.add_pos_left hlength j), Nat.pow_add]
    exact Nat.mul_lt_mul_of_pos_right (lt_pow_length_digits n) hpow
  · have hlt : 10 ^ ((digits n).length - 1 + j) < 10 ^ (digits (n * 10 ^ j)).length := by
      calc 10 ^ ((digits n).length - 1 + j)
          = 10 ^ ((digits n).length - 1) * 10 ^ j := Nat.pow_add ..
        _ ≤ n * 10 ^ j := Nat.mul_le_mul_right _ (pow_length_digits_le hn)
        _ < 10 ^ (digits (n * 10 ^ j)).length := lt_pow_length_digits _
    have hless := (Nat.pow_lt_pow_iff_right (by decide)).1 hlt
    omega

/-! ## Values -/

theorem value_eq_ofDigitChars {cs : List Char} (h : ∀ c ∈ cs, c.isDigit = true) (acc : Nat) :
    value acc cs = Nat.ofDigitChars 10 cs acc := by
  induction cs generalizing acc with
  | nil => simp [value]
  | cons c rest ih =>
    have hc := digit?_of_isDigit (h c (List.mem_cons_self ..))
    have hrest := ih (fun d hd => h d (List.mem_cons_of_mem _ hd)) (10 * acc + (c.toNat - 48))
    rw [Nat.ofDigitChars_cons]
    simpa [value, hc] using hrest

theorem value_digits (n : Nat) : value 0 (digits n) = n := by
  rw [value_eq_ofDigitChars fun c hc => isDigit_of_mem_digits hc]
  exact Nat.ofDigitChars_ten_toDigits

theorem value_append (acc : Nat) (cs ds : List Char) :
    value acc (cs ++ ds) = value (value acc cs) ds := by
  simp [value]

theorem isDigit_of_mem_zeros {c : Char} {n : Nat} (hc : c ∈ List.replicate n '0') :
    c.isDigit = true := by
  rw [List.eq_of_mem_replicate hc]
  rfl

theorem value_zeros (acc n : Nat) : value acc (List.replicate n '0') = 10 ^ n * acc := by
  rw [value_eq_ofDigitChars fun c hc => isDigit_of_mem_zeros hc, Nat.ofDigitChars_replicate_zero]

theorem le_value (acc : Nat) (cs : List Char) : acc ≤ value acc cs := by
  induction cs generalizing acc with
  | nil => exact Nat.le_refl acc
  | cons c rest ih =>
    have hrest : 10 * acc + (digit? c).getD 0 ≤ value acc (c :: rest) :=
      ih (10 * acc + (digit? c).getD 0)
    omega

/-! ## Readers -/

theorem readDigits_eq_value {limit acc : Nat} {cs : List Char} (h : ∀ c ∈ cs, c.isDigit = true)
    (hle : value acc cs ≤ limit) : readDigits limit acc cs = .ok (value acc cs) := by
  induction cs generalizing acc with
  | nil => rfl
  | cons c rest ih =>
    have hc := digit?_of_isDigit (h c (List.mem_cons_self ..))
    have hvalue : value acc (c :: rest) = value (10 * acc + (c.toNat - '0'.toNat)) rest := by
      simp [value, hc]
    rw [hvalue] at hle ⊢
    have hfits : ¬ limit < 10 * acc + (c.toNat - '0'.toNat) :=
      Nat.not_lt.2 (Nat.le_trans (le_value (10 * acc + (c.toNat - '0'.toNat)) rest) hle)
    simp only [readDigits, hc, if_neg hfits]
    exact ih (fun d hd => h d (List.mem_cons_of_mem _ hd)) hle

/-- What is read is the value of the digits, and not above the limit. -/
theorem readDigits_eq_ok {limit acc n : Nat} {cs : List Char} (hacc : acc ≤ limit)
    (h : readDigits limit acc cs = .ok n) : n = value acc cs ∧ n ≤ limit := by
  induction cs generalizing acc with
  | nil =>
    cases h
    exact ⟨rfl, hacc⟩
  | cons c rest ih =>
    rw [readDigits] at h
    cases hd : digit? c with
    | none => simp [hd] at h
    | some d =>
      simp only [hd] at h
      split at h
      · cases h
      · rename_i hfits
        have hvalue : value acc (c :: rest) = value (10 * acc + d) rest := by simp [value, hd]
        rw [hvalue]
        exact ih (Nat.not_lt.1 hfits) h

theorem readMagnitude_digits {limit n : Nat} (hle : n ≤ limit) :
    readMagnitude limit (digits n) = .ok n := by
  have hread : readDigits limit 0 (digits n) = .ok n := by
    rw [readDigits_eq_value (fun c hc => isDigit_of_mem_digits hc), value_digits]
    rw [value_digits]
    exact hle
  rcases exists_digits_eq_cons n with ⟨c, rest, hcons, _⟩
  rw [hcons] at hread ⊢
  exact hread

theorem readUnsigned_digits (n : UInt64) : readUnsigned (digits n.toNat) = .ok n := by
  have hle : n.toNat ≤ maxUnsigned := Nat.le_of_lt_succ n.toNat_lt
  have hread := readMagnitude_digits hle
  rcases exists_digits_eq_cons n.toNat with ⟨c, rest, hcons, hc⟩
  rw [hcons] at hread ⊢
  have hplus : c ≠ '+' := by
    rintro rfl
    exact absurd hc (by decide)
  simp [readUnsigned, hplus, hread, Except.map]

/-- A number that is too large is not read. -/
theorem lt_size_of_readUnsigned {n : Nat} {u : UInt64} (h : readUnsigned (digits n) = .ok u) :
    n < UInt64.size := by
  rcases exists_digits_eq_cons n with ⟨c, rest, hcons, hc⟩
  have hplus : c ≠ '+' := by
    rintro rfl
    exact absurd hc (by decide)
  have hread : ∃ m, readDigits maxUnsigned 0 (digits n) = .ok m := by
    rw [hcons] at h ⊢
    cases hm : readDigits maxUnsigned 0 (c :: rest) with
    | ok m => exact ⟨m, rfl⟩
    | error e => simp [readUnsigned, readMagnitude, hplus, hm, Except.map] at h
  rcases hread with ⟨m, hm⟩
  rcases readDigits_eq_ok (Nat.zero_le _) hm with ⟨rfl, hle⟩
  rw [value_digits] at hle
  exact Nat.lt_succ_of_le hle

theorem readSigned_digits {n : Nat} (hle : n ≤ maxSigned) :
    readSigned (digits n) = .ok (Int64.ofNat n) := by
  have hread := readMagnitude_digits hle
  rcases exists_digits_eq_cons n with ⟨c, rest, hcons, hc⟩
  rw [hcons] at hread ⊢
  have hplus : c ≠ '+' := by
    rintro rfl
    exact absurd hc (by decide)
  have hminus : c ≠ '-' := by
    rintro rfl
    exact absurd hc (by decide)
  simp [readSigned, hplus, hminus, hread, Except.map]

theorem readSigned_signedDigits (i : Int64) : readSigned (signedDigits i.toInt) = .ok i := by
  have hlow : -2 ^ 63 ≤ i.toInt := Int64.le_toInt i
  have hhigh : i.toInt < 2 ^ 63 := Int64.toInt_lt i
  cases hi : i.toInt with
  | ofNat n =>
    rw [hi] at hhigh
    have hle : n ≤ maxSigned := by
      simp only [maxSigned, Int.ofNat_eq_natCast] at hhigh ⊢
      omega
    have hback : Int64.ofNat n = i := by
      rw [← Int64.ofInt_toInt i, hi]
      rfl
    rw [signedDigits, readSigned_digits hle, hback]
  | negSucc n =>
    rw [hi] at hlow
    have hle : n + 1 ≤ maxSigned + 1 := by
      simp only [maxSigned, Int.negSucc_eq] at hlow ⊢
      omega
    have hback : Int64.ofInt (-((n + 1 : Nat) : Int)) = i := by
      rw [← Int64.ofInt_toInt i, hi, Int.negSucc_eq]
      rfl
    simp only [signedDigits, readSigned, readMagnitude_digits hle]
    rw [hback]

end Numeral
end SignalTree
