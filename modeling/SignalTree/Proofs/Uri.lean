import Mathlib.Data.List.TakeWhile
import SignalTree.Proofs.Text.Trim
import SignalTree.Uri

/-!
# Uri — references are read back

Reading a text gives a reference whose own text is the trim of what was read, so a reference that
was read once is read again from its text.

* `Uri.parse_eq_ok_iff`: which texts are read, and as what;
* `Uri.IsParsed`: the references that reading gives;
* `Uri.IsParsed.parse_text`: such a reference is read from its text;
* `Uri.parse_of_no_blank`: what is read from a text without blanks.
-/

namespace SignalTree
namespace Uri

/-- The reference is the result of reading some text. -/
def IsParsed (u : Uri) : Prop := ∃ t, parse t = .ok u

theorem splitColon_eq_some {cs scheme path : List Char} (h : splitColon cs = some (scheme, path)) :
    cs = scheme ++ ':' :: path := by
  rw [splitColon] at h
  split at h
  · cases h
  · rename_i c rest hdrop
    have hc : c = ':' := by
      have hhead := List.head?_dropWhile_not (fun x => decide (x ≠ ':')) cs
      rw [hdrop] at hhead
      simpa using hhead
    subst hc
    cases h
    rw [← hdrop, List.takeWhile_append_dropWhile]

theorem splitColon_eq_none {cs : List Char} (h : splitColon cs = none) : ':' ∉ cs := by
  rw [splitColon] at h
  split at h
  · rename_i hdrop
    intro hmem
    have hall := List.dropWhile_eq_nil_iff.1 hdrop ':' hmem
    simp at hall
  · cases h

theorem splitColon_append {scheme : List Char} (h : ':' ∉ scheme) (path : List Char) :
    splitColon (scheme ++ ':' :: path) = some (scheme, path) := by
  have hall : ∀ c ∈ scheme, decide (c ≠ ':') = true := by
    intro c hc
    rw [decide_eq_true_eq]
    rintro rfl
    exact h hc
  rw [splitColon, List.dropWhile_append_of_pos hall, List.takeWhile_append_of_pos hall]
  simp

/-- A reference made of some characters is written with them. -/
theorem text_ofChars (cs : List Char) : (ofChars cs).text = String.ofList cs := by
  rw [ofChars]
  split
  · rename_i scheme path hsplit
    split
    · rw [splitColon_eq_some hsplit]
      simp [text, ← String.toList_inj]
    · rfl
  · rfl

/-- A text is read if trimming leaves characters that are neither blank nor control, and these make
the reference. -/
theorem parse_eq_ok_iff {t : String} {u : Uri} : parse t = .ok u ↔
    (∀ c ∈ Text.trim t.toList, Text.isBlank c = false ∧ Text.isControl c = false) ∧
      ofChars (Text.trim t.toList) = u := by
  rw [parse]
  split
  · rename_i hany
    rcases List.any_eq_true.1 hany with ⟨c, hc, hbad⟩
    constructor
    · intro h
      cases h
    · rintro ⟨hclean, _⟩
      simp [hclean c hc] at hbad
  · rename_i hclean
    rw [Bool.not_eq_true, List.any_eq_false] at hclean
    have hall : ∀ c ∈ Text.trim t.toList, Text.isBlank c = false ∧ Text.isControl c = false := by
      simpa using hclean
    rw [Except.ok.injEq]
    exact (and_iff_right hall).symm

/-- There is one reason to refuse a text. -/
theorem parse_eq_error {t : String} {e : Error} (h : parse t = .error e) :
    e = .format "path" (Text.trimmed t) "a URI may not contain whitespace" := by
  rw [parse] at h
  split at h
  · exact (Except.error.inj h).symm
  · cases h

/-- What a read reference is made of: characters that are neither blank nor control. -/
theorem IsParsed.exists_ofChars {u : Uri} (h : u.IsParsed) :
    ∃ cs, u = ofChars cs ∧ ∀ c ∈ cs, Text.isBlank c = false ∧ Text.isControl c = false := by
  rcases h with ⟨t, ht⟩
  rcases parse_eq_ok_iff.1 ht with ⟨hclean, hu⟩
  exact ⟨Text.trim t.toList, hu.symm, hclean⟩

theorem IsParsed.not_blank_of_mem_text {u : Uri} (h : u.IsParsed) {c : Char}
    (hc : c ∈ u.text.toList) : Text.isBlank c = false := by
  rcases h.exists_ofChars with ⟨cs, rfl, hcs⟩
  rw [text_ofChars, String.toList_ofList] at hc
  exact (hcs c hc).1

theorem IsParsed.trim_text {u : Uri} (h : u.IsParsed) :
    Text.trim u.text.toList = u.text.toList :=
  Text.trim_of_no_blank fun _ hc => h.not_blank_of_mem_text hc

/-- A reference that was read is read again from its text. -/
theorem IsParsed.parse_text {u : Uri} (h : u.IsParsed) : parse u.text = .ok u := by
  have htrim := h.trim_text
  rcases h.exists_ofChars with ⟨cs, rfl, hcs⟩
  rw [text_ofChars, String.toList_ofList] at htrim
  rw [parse_eq_ok_iff, text_ofChars, String.toList_ofList, htrim]
  exact ⟨hcs, rfl⟩

/-- A text without blanks is read as it stands, unless it holds a control character. -/
theorem parse_of_no_blank {s : String} (h : ∀ c ∈ s.toList, Text.isBlank c = false) :
    parse s = if s.toList.any Text.isControl then
      .error (.format "path" s "a URI may not contain whitespace") else .ok (ofChars s.toList) := by
  have hany : (s.toList.any fun c => Text.isBlank c || Text.isControl c)
      = s.toList.any Text.isControl := by
    rw [Bool.eq_iff_iff, List.any_eq_true, List.any_eq_true]
    apply exists_congr
    intro c
    apply and_congr_right
    intro hc
    rw [h c hc, Bool.false_or]
  simp only [parse, Text.trim_of_no_blank h, hany, String.ofList_toList]

/-! ## Component paths -/

theorem toList_text_component (path : String) :
    (component path).text.toList = componentScheme.toList ++ ':' :: path.toList := by
  simp [component, text]

theorem ofChars_component (path : String) :
    ofChars (component path).text.toList = component path := by
  have hcolon : ':' ∉ componentScheme.toList := by decide
  rw [ofChars, toList_text_component, splitColon_append hcolon]
  simp only [String.ofList_toList]
  rfl

/-- The scheme of component paths brings in neither blanks nor control characters. -/
theorem mem_text_component {c : Char} {path : String} (hc : c ∈ (component path).text.toList) :
    Text.IsGraphic c ∨ c ∈ path.toList := by
  rw [toList_text_component] at hc
  rcases List.mem_append.1 hc with hc | hc
  · exact Or.inl (Text.isGraphic_of_all (by decide) hc)
  · rcases List.mem_cons.1 hc with rfl | hc
    · exact Or.inl (by decide)
    · exact Or.inr hc

end Uri
end SignalTree
