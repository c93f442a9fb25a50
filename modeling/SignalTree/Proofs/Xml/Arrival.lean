import SignalTree.Proofs.Text.Word
import SignalTree.Proofs.Xml.Escape

/-!
# Arrival — what a reader makes of an escaped text

Every escaped text can be read, whether or not reading undoes escaping.  Between two tags carriage
returns become line feeds, and in an attribute tabs and line ends become spaces.

* `Xml.contentText`, `Xml.attributeText`: the texts that arrive;
* `contentText_of_no_return`, `attributeText_of_isAttribute`: texts that arrive as they are;
* `isWord_contentText`: a word arrives as a word, with blanks around it.
-/

namespace SignalTree
namespace Xml

open Text (isWord isBlank)

/-- What arrives of a text between two tags. -/
def contentText (s : String) : String :=
  ((unescapeText ((escape s).length + 1) false [] (escape s)).map String.ofList).getD s

/-- What arrives of the value of an attribute. -/
def attributeText (s : String) : String :=
  ((unescapeAttribute ((escape s).length + 1) (escape s)).map String.ofList).getD s

/-! ## Texts -/

theorem pushText_ne_nil (before : List Char) (c : Char) (last : Bool) :
    pushText before c last ≠ [] := by
  unfold pushText
  split
  · split
    · simp
    · split <;> simp
  · split <;> simp

/-- A line end is a blank like any other, and it stands where it stood. -/
theorem isWord_pushText (before : List Char) (c : Char) {rest : List Char} {last : Bool} :
    isWord ((pushText before c last).reverse ++ rest) = isWord (before.reverse ++ c :: rest) := by
  have hreturn : isBlank '\r' = true := by decide
  have hfeed : isBlank '\n' = true := by decide
  unfold pushText
  split
  · rename_i before
    split
    · rename_i hlast
      have hc : c = '\r' := of_decide_eq_true (Bool.and_eq_true_iff.1 hlast).2
      subst hc
      have hfirst := Text.isWord_swap hfeed hreturn before.reverse ('\n' :: rest)
      have hsecond := Text.isWord_swap hfeed hreturn (before.reverse ++ ['\r']) rest
      simp only [List.append_assoc, List.singleton_append] at hsecond
      simpa using hfirst.trans hsecond
    · split
      · rename_i hc
        subst hc
        simpa using (Text.isWord_merge hreturn hfeed before.reverse rest).symm
      · simpa using Text.isWord_swap hfeed hreturn before.reverse (c :: rest)
  · split
    · rename_i hlast
      have hc : c = '\r' := of_decide_eq_true (Bool.and_eq_true_iff.1 hlast).2
      subst hc
      simpa using Text.isWord_swap hfeed hreturn before.reverse rest
    · simp

/-- An escaped text is read, and what is read is a word if the text was. -/
theorem exists_unescapeText (cs : List Char) (kept : Bool) (before : List Char) {fuel : Nat}
    (hfuel : (cs.flatMap escapeChar).length < fuel) :
    ∃ t, unescapeText fuel kept before (cs.flatMap escapeChar) = some t ∧
      isWord t = isWord (before.reverse ++ cs) ∧ (t = [] → before = [] ∧ cs = []) := by
  induction cs generalizing kept before fuel with
  | nil =>
    obtain ⟨fuel, rfl⟩ : ∃ n, fuel = n + 1 := ⟨fuel - 1, by simp at hfuel; omega⟩
    exact ⟨before.reverse, rfl, by simp, by simp⟩
  | cons c rest ih =>
    obtain ⟨fuel, rfl⟩ : ∃ n, fuel = n + 1 := ⟨fuel - 1, by omega⟩
    rw [List.flatMap_cons, List.length_append] at hfuel
    have hlength := List.length_pos_iff.2 (escapeChar_ne_nil c)
    have hless : (rest.flatMap escapeChar).length < fuel := by omega
    rw [List.flatMap_cons]
    rcases escapeChar_cases c with ⟨h, hamp, -⟩ | ⟨name, h, -, hread⟩
    · rw [h, List.singleton_append, unescapeText]
      · cases kept with
        | true =>
          rcases ih false (c :: before) hless with ⟨t, ht, hword, hempty⟩
          exact ⟨t, ht, by simpa using hword, fun hnil => absurd (hempty hnil).1 (by simp)⟩
        | false =>
          rcases ih false (pushText before c (rest.flatMap escapeChar).isEmpty) hless with
            ⟨t, ht, hword, hempty⟩
          refine ⟨t, ht, hword.trans (isWord_pushText before c), fun hnil => ?_⟩
          exact absurd (hempty hnil).1 (pushText_ne_nil _ _ _)
      · exact fun h => absurd h hamp
    · rcases ih true (c :: before) hless with ⟨t, ht, hword, hempty⟩
      rw [h, List.cons_append, unescapeText, hread]
      exact ⟨t, ht, by simpa using hword, fun hnil => absurd (hempty hnil).1 (by simp)⟩

theorem unescapeText_contentText (s : String) :
    unescapeText ((escape s).length + 1) false [] (escape s) = some (contentText s).toList := by
  rcases exists_unescapeText s.toList false [] (Nat.lt_succ_self _) with ⟨t, ht, -⟩
  have hread : unescapeText ((escape s).length + 1) false [] (escape s) = some t := ht
  simp [contentText, hread]

/-- A word arrives as a word, with blanks around it. -/
theorem isWord_contentText (s : String) : isWord (contentText s).toList = isWord s.toList := by
  rcases exists_unescapeText s.toList false [] (Nat.lt_succ_self _) with ⟨t, ht, hword, -⟩
  have hread := unescapeText_contentText s
  rw [escape, ht] at hread
  rw [← Option.some.inj hread]
  exact hword

theorem contentText_eq_empty_iff {s : String} : contentText s = "" ↔ s = "" := by
  constructor
  · intro hs
    rcases exists_unescapeText s.toList false [] (Nat.lt_succ_self _) with
      ⟨t, ht, -, hempty⟩
    have hread := unescapeText_contentText s
    rw [escape, ht, hs] at hread
    exact String.toList_eq_nil_iff.1 (hempty (Option.some.inj hread)).2
  · rintro rfl
    rfl

/-- Only carriage returns are changed. -/
theorem contentText_of_no_return {s : String} (h : '\r' ∉ s.toList) : contentText s = s := by
  simp [contentText, unescapeText_escape h]

theorem contentText_of_isLine {s : String} (h : IsLine s) : contentText s = s :=
  contentText_of_no_return fun hc => (h _ hc).2 rfl

/-! ## Attributes -/

theorem exists_unescapeAttribute (cs : List Char) {fuel : Nat}
    (hfuel : (cs.flatMap escapeChar).length < fuel) :
    ∃ t, unescapeAttribute fuel (cs.flatMap escapeChar) = some t := by
  induction cs generalizing fuel with
  | nil =>
    obtain ⟨fuel, rfl⟩ : ∃ n, fuel = n + 1 := ⟨fuel - 1, by simp at hfuel; omega⟩
    exact ⟨[], rfl⟩
  | cons c rest ih =>
    obtain ⟨fuel, rfl⟩ : ∃ n, fuel = n + 1 := ⟨fuel - 1, by omega⟩
    rw [List.flatMap_cons, List.length_append] at hfuel
    have hlength := List.length_pos_iff.2 (escapeChar_ne_nil c)
    have hless : (rest.flatMap escapeChar).length < fuel := by omega
    rcases ih hless with ⟨t, ht⟩
    rw [List.flatMap_cons]
    rcases escapeChar_cases c with ⟨h, hamp, -⟩ | ⟨name, h, -, hread⟩
    · rw [h, List.singleton_append]
      unfold unescapeAttribute
      split
      · rename_i hnil
        cases hnil
      · rename_i hcons
        exact absurd (List.cons.inj hcons).1 hamp
      · -- the carriage return of a line end is dropped
        rename_i hcons
        rw [(List.cons.inj hcons).2] at ht
        exact ⟨t, ht⟩
      · rename_i hcons
        rw [← (List.cons.inj hcons).2, ht]
        exact ⟨_, rfl⟩
    · rw [h, List.cons_append, unescapeAttribute, hread]
      exact ⟨c :: t, by simp [ht]⟩

theorem unescapeAttribute_attributeText (s : String) :
    unescapeAttribute ((escape s).length + 1) (escape s) = some (attributeText s).toList := by
  rcases exists_unescapeAttribute s.toList (Nat.lt_succ_self _) with ⟨t, ht⟩
  have hread : unescapeAttribute ((escape s).length + 1) (escape s) = some t := ht
  simp [attributeText, hread]

theorem attributeText_of_isAttribute {s : String} (h : IsAttribute s) : attributeText s = s := by
  simp [attributeText, unescapeAttribute_escape h]

end Xml
end SignalTree
