import Mathlib.Data.List.Basic

/-!
# Run — where a run of characters ends

Readers take the longest run of characters of a class.  A run followed by the end of the text, or
by a character of no such class, is taken whole.
-/

namespace SignalTree
namespace Text

section Runs

variable {p : Char → Bool} {run : List Char} (rest : List Char)

theorem takeWhile_run (h : ∀ c ∈ run, p c = true)
    (hstop : ∀ c, rest.head? = some c → p c = false) :
    (run ++ rest).takeWhile p = run := by
  have hrest : rest.takeWhile p = [] := by
    cases rest with
    | nil => rfl
    | cons c rest => simp [hstop c rfl]
  rw [List.takeWhile_append_of_pos h, hrest, List.append_nil]

theorem dropWhile_run (h : ∀ c ∈ run, p c = true)
    (hstop : ∀ c, rest.head? = some c → p c = false) :
    (run ++ rest).dropWhile p = rest := by
  rw [List.dropWhile_append_of_pos h]
  cases rest with
  | nil => rfl
  | cons c rest => simp [hstop c rfl]

end Runs

end Text
end SignalTree
