import Mathlib.Data.List.Basic
import SignalTree.Text.Blank

/-!
# Trim — texts that trimming leaves alone

* `Text.IsGraphic`: the visible characters of ASCII, of which numbers, dates and binary data are
  written;
* `Text.trim_of_ends`: a text that neither starts nor ends with a blank is its own trim.
-/

namespace SignalTree
namespace Text

/-- The visible characters of ASCII. -/
def IsGraphic (c : Char) : Prop := 0x20 < c.toNat ∧ c.toNat < 0x7F

instance (c : Char) : Decidable (IsGraphic c) := by unfold IsGraphic; infer_instance

theorem IsGraphic.not_blank {c : Char} (h : IsGraphic c) : isBlank c = false := by
  rcases h with ⟨hlow, hhigh⟩
  simp only [isBlank, Bool.or_eq_false_iff, Bool.and_eq_false_iff, decide_eq_false_iff_not,
    beq_eq_false_iff_ne, ne_eq]
  omega

theorem IsGraphic.not_control {c : Char} (h : IsGraphic c) : isControl c = false := by
  rcases h with ⟨hlow, hhigh⟩
  simp only [isControl, Bool.or_eq_false_iff, Bool.and_eq_false_iff, decide_eq_false_iff_not]
  omega

theorem isGraphic_of_all {cs : List Char} (h : cs.all (fun c => decide (IsGraphic c)) = true)
    {c : Char} (hc : c ∈ cs) : IsGraphic c :=
  of_decide_eq_true (List.all_eq_true.1 h c hc)

theorem isGraphic_of_isDigit {c : Char} (h : c.isDigit = true) : IsGraphic c := by
  have hbounds : 48 ≤ c.toNat ∧ c.toNat ≤ 57 := by
    simpa [Char.isDigit, UInt32.le_iff_toNat_le] using h
  exact ⟨by omega, by omega⟩

/-! ## Trimming -/

theorem trimLeft_cons_of_not_blank {c : Char} {cs : List Char} (h : isBlank c = false) :
    trimLeft (c :: cs) = c :: cs := by
  simp [trimLeft, h]

theorem trimLeft_of_head {cs : List Char} (h : ∀ c, cs.head? = some c → isBlank c = false) :
    trimLeft cs = cs := by
  cases cs with
  | nil => rfl
  | cons c rest => exact trimLeft_cons_of_not_blank (h c rfl)

theorem trimRight_of_last {cs : List Char} (h : ∀ c, cs.getLast? = some c → isBlank c = false) :
    trimRight cs = cs := by
  have hreverse : trimLeft cs.reverse = cs.reverse :=
    trimLeft_of_head fun c hc => h c (by rw [List.head?_reverse] at hc; exact hc)
  rw [trimLeft] at hreverse
  rw [trimRight, hreverse, List.reverse_reverse]

/-- A text that neither starts nor ends with a blank is its own trim. -/
theorem trim_of_ends {cs : List Char} (hhead : ∀ c, cs.head? = some c → isBlank c = false)
    (hlast : ∀ c, cs.getLast? = some c → isBlank c = false) : trim cs = cs := by
  rw [trim, trimLeft_of_head hhead, trimRight_of_last hlast]

/-- A trimmed text is not trimmed further. -/
theorem trim_trim (cs : List Char) : trim (trim cs) = trim cs := by
  have hstart : ∀ (ds : List Char) (c : Char),
      (trimLeft ds).head? = some c → isBlank c = false := by
    intro ds c hc
    have hnot := List.head?_dropWhile_not isBlank ds
    rw [trimLeft] at hc
    simpa [hc] using hnot
  refine trim_of_ends (fun c hc => hstart cs c ?_) fun c hc => hstart (trimLeft cs).reverse c ?_
  · -- what is cut off at the end leaves the start as it is
    have hsplit := List.takeWhile_append_dropWhile (p := isBlank) (l := (trimLeft cs).reverse)
    have hprefix := congrArg List.reverse hsplit
    rw [List.reverse_append, List.reverse_reverse] at hprefix
    rw [← hprefix, List.head?_append]
    change (trim cs).head?.or _ = some c
    rw [hc, Option.some_or]
  · rw [trim, trimRight, List.getLast?_reverse] at hc
    exact hc

theorem trim_of_no_blank {cs : List Char} (h : ∀ c ∈ cs, isBlank c = false) : trim cs = cs :=
  trim_of_ends (fun c hc => h c (List.mem_of_mem_head? hc))
    (fun c hc => h c (List.mem_of_mem_getLast? hc))

theorem trim_of_graphic {cs : List Char} (h : ∀ c ∈ cs, IsGraphic c) : trim cs = cs :=
  trim_of_no_blank fun c hc => (h c hc).not_blank

end Text
end SignalTree
