import Mathlib.Data.List.TakeWhile
import SignalTree.Proofs.Uri

/-!
# Word — texts that are one word

A text is read as a reference if trimming leaves nothing but characters that are neither blank nor
control.  Whether this is so does not depend on which blanks stand around the word, nor on how many.

* `Text.isWord`: blanks, then a word, then blanks;
* `Text.forall_mem_trim_iff`: these are the texts of which trimming leaves a word;
* `Text.isWord_swap`, `Text.isWord_merge`: one blank is as good as another, and as two;
* `Uri.exists_parse_iff`: these are the texts of references.
-/

namespace SignalTree
namespace Text

/-- A character that may stand in a word. -/
def isSolid (c : Char) : Bool := !isBlank c && !isControl c

/-- A word, which may be empty, and blanks after it. -/
def endsWord : List Char → Bool
  | [] => true
  | c :: rest => if isBlank c then rest.all isBlank else !isControl c && endsWord rest

/-- A word, with blanks around it. -/
def isWord : List Char → Bool
  | [] => true
  | c :: rest => if isBlank c then isWord rest else !isControl c && endsWord rest

/-! ## Trimming -/

theorem trimRight_cons (c : Char) (rest : List Char) :
    trimRight (c :: rest) = if rest.all isBlank && isBlank c then [] else c :: trimRight rest := by
  have hempty : (rest.reverse.dropWhile isBlank).isEmpty = rest.all isBlank := by
    rw [Bool.eq_iff_iff, List.isEmpty_iff, List.dropWhile_eq_nil_iff, List.all_eq_true]
    simp
  rw [trimRight, List.reverse_cons, List.dropWhile_append, hempty, trimRight]
  by_cases hrest : rest.all isBlank = true
  · have hnil : rest.reverse.dropWhile isBlank = [] := by
      rwa [← List.isEmpty_iff, hempty]
    by_cases hc : isBlank c = true
    · simp [hrest, hc]
    · simp [hrest, hc, hnil]
  · simp [hrest]

theorem forall_mem_trimRight_iff (cs : List Char) :
    (∀ c ∈ trimRight cs, isSolid c = true) ↔ endsWord cs = true := by
  induction cs with
  | nil => simp [trimRight, endsWord]
  | cons c rest ih =>
    rw [trimRight_cons, endsWord]
    by_cases hc : isBlank c = true
    · by_cases hrest : rest.all isBlank = true
      · simp [hc, hrest]
      · simp [hc, hrest, isSolid]
    · simp [hc, isSolid, ← ih]

/-- Trimming leaves a word. -/
theorem forall_mem_trim_iff (cs : List Char) :
    (∀ c ∈ trim cs, isSolid c = true) ↔ isWord cs = true := by
  induction cs with
  | nil => simp [trim, trimLeft, trimRight, isWord]
  | cons c rest ih =>
    by_cases hc : isBlank c = true
    · have htrim : trim (c :: rest) = trim rest := by simp [trim, trimLeft, hc]
      rw [htrim, isWord, if_pos hc, ih]
    · have htrim : trim (c :: rest) = trimRight (c :: rest) := by simp [trim, trimLeft, hc]
      rw [htrim, forall_mem_trimRight_iff, isWord, endsWord]
      simp [hc]

theorem all_trimRight (cs : List Char) : (trimRight cs).all isBlank = cs.all isBlank := by
  induction cs with
  | nil => rfl
  | cons c rest ih =>
    rw [trimRight_cons]
    by_cases hall : (rest.all isBlank && isBlank c) = true
    · simp_all
    · simp only [if_neg hall, List.all_cons, ih]

theorem endsWord_trimRight (cs : List Char) : endsWord (trimRight cs) = endsWord cs := by
  induction cs with
  | nil => rfl
  | cons c rest ih =>
    rw [trimRight_cons]
    by_cases hall : (rest.all isBlank && isBlank c) = true
    · simp_all [endsWord]
    · simp only [if_neg hall, endsWord, ih, all_trimRight]

/-- Trimming makes no difference. -/
theorem isWord_trim (cs : List Char) : isWord (trim cs) = isWord cs := by
  induction cs with
  | nil => rfl
  | cons c rest ih =>
    by_cases hc : isBlank c = true
    · have htrim : trim (c :: rest) = trim rest := by simp [trim, trimLeft, hc]
      rw [htrim, ih, isWord, if_pos hc]
    · have htrim : trim (c :: rest) = c :: trimRight rest := by
        simp [trim, trimLeft, hc, trimRight_cons]
      rw [htrim, isWord, isWord, if_neg hc, if_neg hc, endsWord_trimRight]

/-! ## Blanks -/

section Blanks

variable {x y : Char} (hx : isBlank x = true) (hy : isBlank y = true) (front back : List Char)

include hx hy

theorem all_blank_swap :
    (front ++ x :: back).all isBlank = (front ++ y :: back).all isBlank := by
  simp [hx, hy]

theorem endsWord_swap : endsWord (front ++ x :: back) = endsWord (front ++ y :: back) := by
  induction front with
  | nil => simp [endsWord, hx, hy]
  | cons c rest ih =>
    simp only [List.cons_append, endsWord, ih, all_blank_swap hx hy]

/-- One blank is as good as another. -/
theorem isWord_swap : isWord (front ++ x :: back) = isWord (front ++ y :: back) := by
  induction front with
  | nil => simp [isWord, hx, hy]
  | cons c rest ih =>
    simp only [List.cons_append, isWord, ih, endsWord_swap hx hy]

theorem endsWord_merge :
    endsWord (front ++ x :: y :: back) = endsWord (front ++ y :: back) := by
  induction front with
  | nil => simp [endsWord, hx, hy]
  | cons c rest ih =>
    have hall : (rest ++ x :: y :: back).all isBlank = (rest ++ y :: back).all isBlank := by
      simp [hx, hy]
    simp only [List.cons_append, endsWord, ih, hall]

/-- Two blanks are as good as one. -/
theorem isWord_merge : isWord (front ++ x :: y :: back) = isWord (front ++ y :: back) := by
  induction front with
  | nil => simp [isWord, hx, hy]
  | cons c rest ih =>
    simp only [List.cons_append, isWord, ih, endsWord_merge hx hy]

end Blanks
end Text

/-! ## References -/

/-- Only a word is a reference, whatever blanks stand around it. -/
theorem Uri.exists_parse_iff (text : String) :
    (∃ u, parse text = .ok u) ↔ Text.isWord text.toList = true := by
  rw [← Text.forall_mem_trim_iff]
  simp only [parse_eq_ok_iff, Text.isSolid, Bool.and_eq_true, Bool.not_eq_true']
  constructor
  · rintro ⟨u, hall, _⟩
    exact hall
  · intro hall
    exact ⟨_, hall, rfl⟩

end SignalTree
