import SignalTree.Proofs.Uri

/-!
# Scheme — what is read as the scheme of a reference

The text of a reference does not say where its scheme ends, and it need not have one.  The parts are
found again because the scheme is what stands before the first colon, if that is spelt like one, and
no colon may stand in a scheme.

* `Uri.IsLetter`, `Uri.SpeltAsScheme`: how a scheme is spelt;
* `Uri.scheme_ofChars_iff`: the scheme of a reference, told from its characters;
* `Uri.parse_outcome`: what reading a text gives, and what reading the reference again gives.
-/

namespace SignalTree
namespace Uri

/-! ## Spelling -/

/-- A letter of ASCII. -/
def IsLetter (c : Char) : Prop := ('a' ≤ c ∧ c ≤ 'z') ∨ ('A' ≤ c ∧ c ≤ 'Z')

/-- A letter, and then letters, digits and three marks, all of ASCII. -/
def SpeltAsScheme : List Char → Prop
  | [] => False
  | c :: rest => IsLetter c ∧
      ∀ d ∈ rest, IsLetter d ∨ ('0' ≤ d ∧ d ≤ '9') ∨ d = '+' ∨ d = '-' ∨ d = '.'

theorem isAlpha_iff (c : Char) : c.isAlpha = true ↔ IsLetter c := by
  have hupper : c.isUpper = true ↔ 'A' ≤ c ∧ c ≤ 'Z' := decide_eq_true_iff
  have hlower : c.isLower = true ↔ 'a' ≤ c ∧ c ≤ 'z' :=
    Bool.and_eq_true_iff.trans (and_congr decide_eq_true_iff decide_eq_true_iff)
  calc c.isAlpha = true
      ↔ c.isUpper = true ∨ c.isLower = true := Bool.or_eq_true_iff
    _ ↔ ('A' ≤ c ∧ c ≤ 'Z') ∨ ('a' ≤ c ∧ c ≤ 'z') := or_congr hupper hlower
    _ ↔ IsLetter c := or_comm

theorem isSchemeChar_iff (d : Char) : isSchemeChar d = true ↔
    IsLetter d ∨ ('0' ≤ d ∧ d ≤ '9') ∨ d = '+' ∨ d = '-' ∨ d = '.' := by
  simp [isSchemeChar, Char.isAlphanum, ← isAlpha_iff, Char.isDigit, Char.le_def, or_assoc]

theorem isScheme_iff (cs : List Char) : isScheme cs = true ↔ SpeltAsScheme cs := by
  cases cs with
  | nil => simp [isScheme, SpeltAsScheme]
  | cons c rest =>
    rw [isScheme, SpeltAsScheme, Bool.and_eq_true, isAlpha_iff, List.all_eq_true]
    simp only [isSchemeChar_iff]

theorem IsLetter.ne_colon {c : Char} (h : IsLetter c) : c ≠ ':' := by
  rintro rfl
  exact absurd h (by unfold IsLetter; decide)

/-- No colon stands in a scheme, so the first colon behind it ends it. -/
theorem SpeltAsScheme.no_colon {cs : List Char} (h : SpeltAsScheme cs) : ':' ∉ cs := by
  cases cs with
  | nil => exact List.not_mem_nil
  | cons c rest =>
    rcases h with ⟨hfirst, hrest⟩
    intro hmem
    rcases List.mem_cons.1 hmem with hc | hc
    · exact hfirst.ne_colon hc.symm
    · rcases hrest ':' hc with hletter | hother
      · exact hletter.ne_colon rfl
      · exact absurd hother (by decide)

/-! ## Reading -/

/-- The scheme of a reference is what its characters say before the first colon. -/
theorem scheme_ofChars_iff {cs : List Char} {s : String} : (ofChars cs).scheme = some s ↔
    SpeltAsScheme s.toList ∧ ∃ rest, cs = s.toList ++ ':' :: rest := by
  constructor
  · intro h
    rw [ofChars] at h
    split at h
    · rename_i front rest hsplit
      split at h
      · rename_i hscheme
        obtain rfl : String.ofList front = s := Option.some.inj h
        rw [String.toList_ofList]
        exact ⟨(isScheme_iff front).1 hscheme, rest, splitColon_eq_some hsplit⟩
      · cases h
    · cases h
  · rintro ⟨hspelt, rest, rfl⟩
    rw [ofChars, splitColon_append hspelt.no_colon]
    simp only [(isScheme_iff s.toList).2 hspelt, if_true, String.ofList_toList]

/-- A text is refused for what trimming leaves of it, and for nothing else. -/
theorem exists_parse_eq_error_iff {t : String} : (∃ e, parse t = .error e) ↔
    ∃ c ∈ Text.trim t.toList, Text.isBlank c = true ∨ Text.isControl c = true := by
  have hread : (∀ c ∈ Text.trim t.toList, Text.isBlank c = false ∧ Text.isControl c = false) ↔
      ∃ u, parse t = .ok u := by
    simp only [parse_eq_ok_iff, exists_and_left, exists_eq', and_true]
  have hnot : (∃ e, parse t = .error e) ↔ ¬ ∃ u, parse t = .ok u := by
    cases parse t <;> simp
  rw [hnot, ← hread]
  simp only [not_forall, not_and_or, Bool.not_eq_false, exists_prop]

/-- References that were read differ in their texts if they differ. -/
theorem IsParsed.eq_of_text_eq {u v : Uri} (hu : u.IsParsed) (hv : v.IsParsed)
    (htext : u.text = v.text) : u = v := by
  have hread : parse v.text = .ok u := htext ▸ hu.parse_text
  exact Except.ok.inj (hread.symm.trans hv.parse_text)

/-- A text is refused exactly if a blank or a control character is left when it is trimmed.
Otherwise the reference that is read is written as the trimmed text, and read again from it.  Its
scheme is what stands before the first colon of the trimmed text, if this is spelt like a scheme.
So a reference that was read is told by its text, and one without a scheme gets none when it is read
again. -/
theorem parse_outcome (t : String) :
    ((∃ e, parse t = .error e) ↔
      ∃ c ∈ Text.trim t.toList, Text.isBlank c = true ∨ Text.isControl c = true) ∧
    (∀ e, parse t = .error e →
      e = .format "path" (Text.trimmed t) "a URI may not contain whitespace") ∧
    ∀ u, parse t = .ok u →
      u.text = Text.trimmed t ∧ parse u.text = .ok u ∧
      (∀ s, u.scheme = some s ↔ ∃ rest, Text.trim t.toList = s.toList ++ ':' :: rest ∧
        ':' ∉ s.toList ∧ SpeltAsScheme s.toList) ∧
      (∀ other v, parse other = .ok v → v.text = u.text → v = u) ∧
      (u.scheme = none → parse u.path = .ok u) := by
  refine ⟨exists_parse_eq_error_iff, fun e => parse_eq_error, ?_⟩
  intro u hu
  have hparsed : u.IsParsed := ⟨t, hu⟩
  rcases parse_eq_ok_iff.1 hu with ⟨_, hchars⟩
  refine ⟨?_, hparsed.parse_text, ?_, ?_, ?_⟩
  · rw [← hchars, text_ofChars, Text.trimmed]
  · intro s
    rw [← hchars, scheme_ofChars_iff]
    constructor
    · rintro ⟨hspelt, rest, hrest⟩
      exact ⟨rest, hrest, hspelt.no_colon, hspelt⟩
    · rintro ⟨rest, hrest, _, hspelt⟩
      exact ⟨hspelt, rest, hrest⟩
  · intro other v hv htext
    exact IsParsed.eq_of_text_eq ⟨other, hv⟩ hparsed htext
  · intro hscheme
    have hpath : u.text = u.path := by simp [text, hscheme]
    rw [← hpath]
    exact hparsed.parse_text

/-- Only the first of two colons ends a scheme, and only if a letter comes first. -/
theorem parse_outcome_colons :
    parse " a+b:c:d " = .ok ⟨some "a+b", "c:d"⟩ ∧ parse "1b:c" = .ok ⟨none, "1b:c"⟩ ∧
      (⟨some "a+b", "c:d"⟩ : Uri).text = Text.trimmed " a+b:c:d " ∧
      (∀ other v, parse other = .ok v → v.text = "a+b:c:d" → v = ⟨some "a+b", "c:d"⟩) ∧
      (¬ ∃ rest, Text.trim "1b:c".toList = "1b".toList ++ ':' :: rest ∧ ':' ∉ "1b".toList ∧
        SpeltAsScheme "1b".toList) ∧
      ∃ e, parse "a b" = .error e := by
  have hcolons : parse " a+b:c:d " = .ok ⟨some "a+b", "c:d"⟩ := rfl
  have hdigit : parse "1b:c" = .ok ⟨none, "1b:c"⟩ := rfl
  rcases (parse_outcome " a+b:c:d ").2.2 _ hcolons with ⟨htext, _, _, hunique, _⟩
  rcases (parse_outcome "1b:c").2.2 _ hdigit with ⟨_, _, hscheme, _⟩
  refine ⟨hcolons, hdigit, htext, hunique, ?_, ?_⟩
  · rw [← hscheme]
    simp
  · exact (parse_outcome "a b").1.2 ⟨' ', by decide, Or.inl rfl⟩

end Uri
end SignalTree
