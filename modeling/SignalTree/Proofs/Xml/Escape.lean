import Mathlib.Data.List.Basic
import SignalTree.Proofs.Text.Trim
import SignalTree.Xml.Reader

/-!
# Escape — what is escaped is read back

In a text every legal character but a carriage return survives, and in an attribute every legal
character but tabs and line ends; the reader changes those three.

* `Xml.IsLegal`, `Xml.IsLine`, `Xml.IsAttribute`: texts of which nothing is lost;
* `Xml.escapeChar_cases`: a character is written as itself or as a reference to it;
* `Xml.unescapeText_escape`, `Xml.unescapeAttribute_escape`: reading undoes escaping.
-/

namespace SignalTree
namespace Xml

/-- All characters may stand in a document. -/
def IsLegal (s : String) : Prop := ∀ c ∈ s.toList, isChar c = true

/-- Legal, and without carriage returns. -/
def IsLine (s : String) : Prop := ∀ c ∈ s.toList, isChar c = true ∧ c ≠ '\r'

/-- Legal, and without tabs and line ends. -/
def IsAttribute (s : String) : Prop :=
  ∀ c ∈ s.toList, isChar c = true ∧ c ≠ '\t' ∧ c ≠ '\n' ∧ c ≠ '\r'

instance (s : String) : Decidable (IsLegal s) :=
  decidable_of_iff (s.toList.all isChar = true) List.all_eq_true

instance (s : String) : Decidable (IsLine s) :=
  decidable_of_iff (s.toList.all (fun c => isChar c && c != '\r') = true)
    (by simp [IsLine, List.all_eq_true])

instance (s : String) : Decidable (IsAttribute s) :=
  decidable_of_iff
    (s.toList.all (fun c => isChar c && c != '\t' && c != '\n' && c != '\r') = true)
    (by simp [IsAttribute, List.all_eq_true, and_assoc])

theorem IsAttribute.not_space {s : String} (h : IsAttribute s) {c : Char} (hc : c ∈ s.toList) :
    isSpace c = true → c = ' ' := by
  intro hspace
  rcases h c hc with ⟨-, htab, hfeed, hreturn⟩
  simpa [isSpace, htab, hfeed, hreturn] using hspace

/-- Visible characters of ASCII are legal, and none is a tab or a line end. -/
theorem attribute_of_graphic {c : Char} (h : Text.IsGraphic c) :
    isChar c = true ∧ c ≠ '\t' ∧ c ≠ '\n' ∧ c ≠ '\r' := by
  rcases h with ⟨hlow, hhigh⟩
  refine ⟨?_, ?_, ?_, ?_⟩
  · have hlow' : ¬ c.toNat < 0x20 := by omega
    have hfirst : c.toNat ≠ 0xFFFE := by omega
    have hsecond : c.toNat ≠ 0xFFFF := by omega
    simp [isChar, hlow', hfirst, hsecond]
  all_goals
    rintro rfl
    exact absurd hlow (by decide)

/-! ## Characters -/

/-- A character without a meaning in markup that may stand between quotes and between tags. -/
def isInert (c : Char) : Bool := isChar c && c != '<' && c != '>' && c != '"'

theorem isInert_iff {c : Char} :
    isInert c = true ↔ isChar c = true ∧ c ≠ '<' ∧ c ≠ '>' ∧ c ≠ '"' := by
  simp [isInert, and_assoc]

/-- A character is written as itself, or as a reference to it. -/
theorem escapeChar_cases (c : Char) :
    (escapeChar c = [c] ∧ c ≠ '&' ∧ c ≠ '<' ∧ c ≠ '>' ∧ c ≠ '"') ∨
      ∃ name, escapeChar c = '&' :: name ∧ name.all isInert = true ∧
        ∀ rest, readReference (name ++ rest) = some (c, rest) := by
  by_cases hamp : c = '&'
  · subst hamp
    exact .inr ⟨"amp;".toList, rfl, by decide, fun rest => rfl⟩
  by_cases hlt : c = '<'
  · subst hlt
    exact .inr ⟨"lt;".toList, rfl, by decide, fun rest => rfl⟩
  by_cases hgt : c = '>'
  · subst hgt
    exact .inr ⟨"gt;".toList, rfl, by decide, fun rest => rfl⟩
  by_cases hquot : c = '"'
  · subst hquot
    exact .inr ⟨"quot;".toList, rfl, by decide, fun rest => rfl⟩
  by_cases hapos : c = '\''
  · subst hapos
    exact .inr ⟨"apos;".toList, rfl, by decide, fun rest => rfl⟩
  · refine .inl ⟨?_, hamp, hlt, hgt, hquot⟩
    unfold escapeChar
    split <;> first | rfl | contradiction

theorem escapeChar_ne_nil (c : Char) : escapeChar c ≠ [] := by
  rcases escapeChar_cases c with ⟨h, -⟩ | ⟨name, h, -⟩ <;> simp [h]

theorem inert_of_mem_escapeChar {c d : Char} (hc : isChar c = true) (hd : d ∈ escapeChar c) :
    isInert d = true := by
  rcases escapeChar_cases c with ⟨h, -, hlt, hgt, hquot⟩ | ⟨name, h, hname, -⟩
  · rw [h, List.mem_singleton] at hd
    subst hd
    exact isInert_iff.2 ⟨hc, hlt, hgt, hquot⟩
  · rw [h] at hd
    rcases List.mem_cons.1 hd with rfl | hd
    · decide
    · exact List.all_eq_true.1 hname d hd

/-- An escaped text holds nothing that ends a text or an attribute. -/
theorem inert_of_mem_escape {s : String} (hs : IsLegal s) {d : Char} (hd : d ∈ escape s) :
    isInert d = true := by
  rcases List.mem_flatMap.1 hd with ⟨c, hc, hd⟩
  exact inert_of_mem_escapeChar (hs c hc) hd

theorem IsLine.isLegal {s : String} (h : IsLine s) : IsLegal s := fun c hc => (h c hc).1

theorem IsAttribute.isLegal {s : String} (h : IsAttribute s) : IsLegal s :=
  fun c hc => (h c hc).1

/-! ## Attributes -/

theorem unescapeAttribute_flatMap {cs : List Char}
    (hspace : ∀ c ∈ cs, isSpace c = true → c = ' ') {fuel : Nat}
    (hfuel : (cs.flatMap escapeChar).length < fuel) :
    unescapeAttribute fuel (cs.flatMap escapeChar) = some cs := by
  induction cs generalizing fuel with
  | nil =>
    obtain ⟨fuel, rfl⟩ : ∃ n, fuel = n + 1 := ⟨fuel - 1, by simp at hfuel; omega⟩
    rfl
  | cons c rest ih =>
    obtain ⟨fuel, rfl⟩ : ∃ n, fuel = n + 1 := ⟨fuel - 1, by omega⟩
    rw [List.flatMap_cons, List.length_append] at hfuel
    have hlength := List.length_pos_iff.2 (escapeChar_ne_nil c)
    have hless : (rest.flatMap escapeChar).length < fuel := by omega
    have hrest := ih (fun d hd => hspace d (List.mem_cons_of_mem _ hd)) hless
    rw [List.flatMap_cons]
    rcases escapeChar_cases c with ⟨h, hamp, -⟩ | ⟨name, h, -, hread⟩
    · -- a character that stands for itself: the two clauses for line ends and blanks leave it alone
      have hreturn : c ≠ '\r' := by
        intro hc
        have := hspace c (List.mem_cons_self ..) (by subst hc; decide)
        subst hc
        exact absurd this (by decide)
      have hkept : (if isSpace c = true then ' ' else c) = c := by
        split
        · next hs => exact (hspace c (List.mem_cons_self ..) hs).symm
        · rfl
      rw [h, List.singleton_append, unescapeAttribute]
      · rw [hrest, hkept]
        rfl
      · exact fun h => absurd h hamp
      · exact fun _ h _ => absurd h hreturn
    · rw [h, List.cons_append, unescapeAttribute, hread]
      simp [hrest]

/-- The value of an attribute is read back. -/
theorem unescapeAttribute_escape {s : String} (hs : IsAttribute s) :
    unescapeAttribute ((escape s).length + 1) (escape s) = some s.toList :=
  unescapeAttribute_flatMap (fun _ hc => hs.not_space hc) (Nat.lt_succ_self _)

/-! ## Texts -/

theorem pushText_of_ne {before : List Char} {c : Char} (last : Bool) (hbefore : '\r' ∉ before)
    (hc : c ≠ '\r') : pushText before c last = c :: before := by
  cases before with
  | nil => simp [pushText, hc]
  | cons d rest =>
    have hd : d ≠ '\r' := by
      intro h
      exact hbefore (h ▸ List.mem_cons_self ..)
    simp [pushText, hc, hd]

theorem unescapeText_flatMap {cs before : List Char} (kept : Bool) (hbefore : '\r' ∉ before)
    (hcs : '\r' ∉ cs) {fuel : Nat} (hfuel : (cs.flatMap escapeChar).length < fuel) :
    unescapeText fuel kept before (cs.flatMap escapeChar) = some (before.reverse ++ cs) := by
  induction cs generalizing kept before fuel with
  | nil =>
    obtain ⟨fuel, rfl⟩ : ∃ n, fuel = n + 1 := ⟨fuel - 1, by simp at hfuel; omega⟩
    simp [unescapeText]
  | cons c rest ih =>
    obtain ⟨fuel, rfl⟩ : ∃ n, fuel = n + 1 := ⟨fuel - 1, by omega⟩
    rw [List.flatMap_cons, List.length_append] at hfuel
    rw [List.mem_cons, not_or] at hcs
    have hlength := List.length_pos_iff.2 (escapeChar_ne_nil c)
    have hmore : '\r' ∉ c :: before := by
      simp [hcs.1, hbefore]
    have hless : (rest.flatMap escapeChar).length < fuel := by omega
    have hrest := fun kept => ih kept hmore hcs.2 hless
    have happend : (c :: before).reverse ++ rest = before.reverse ++ c :: rest := by simp
    rw [List.flatMap_cons]
    rcases escapeChar_cases c with ⟨h, hamp, -⟩ | ⟨name, h, -, hread⟩
    · rw [h, List.singleton_append, unescapeText]
      · -- whether the character is kept or pushed, it goes in front of those before it
        rw [pushText_of_ne _ hbefore (Ne.symm hcs.1), hrest, happend, ite_self]
      · exact fun h => absurd h hamp
    · rw [h, List.cons_append, unescapeText, hread]
      simp [hrest]

/-- A text without carriage returns is read back. -/
theorem unescapeText_escape {s : String} (hs : '\r' ∉ s.toList) :
    unescapeText ((escape s).length + 1) false [] (escape s) = some s.toList :=
  unescapeText_flatMap false (by simp) hs (Nat.lt_succ_self _)

end Xml
end SignalTree
