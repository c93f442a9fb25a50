import Mathlib.Data.List.Basic
import SignalTree.Json.Reader

/-!
# Json — compact texts are read back

The values of this library are written without numbers of their own: every scalar is a text.  Such
a value is read back from its compact text, with its keys in order, as long as it is not nested
deeper than the reader allows.

* `Json.Plain`: there is no number at any depth;
* `Json.depth`: how deep arrays and objects stand in one another;
* `Json.readText_write`: a text, read up to its closing quote;
* `Json.read_write`: a whole value;
* `Json.IsSpelled`: the characters of a compact text.
-/

namespace SignalTree
namespace Json

mutual

/-- There is no number at any depth. -/
def Plain : Json → Prop
  | .number _ => False
  | .array items => PlainItems items
  | .object members => PlainMembers members
  | _ => True

/-- `Plain` for the items of an array. -/
def PlainItems : List Json → Prop
  | [] => True
  | j :: rest => Plain j ∧ PlainItems rest

/-- `Plain` for the values of an object's members. -/
def PlainMembers : List (String × Json) → Prop
  | [] => True
  | (_, j) :: rest => Plain j ∧ PlainMembers rest

end

mutual

/-- How deep arrays and objects stand in one another. -/
def depth : Json → Nat
  | .array items => depthItems items + 1
  | .object members => depthMembers members + 1
  | _ => 0

/-- The greatest depth of the items of an array. -/
def depthItems : List Json → Nat
  | [] => 0
  | j :: rest => max (depth j) (depthItems rest)

/-- The greatest depth of the values of an object's members. -/
def depthMembers : List (String × Json) → Nat
  | [] => 0
  | (_, j) :: rest => max (depth j) (depthMembers rest)

end

/-! ## Texts -/

theorem hex4_control : ∀ n < 0x20,
    hex4 '0' '0' (Nat.digitChar (n / 16)) (Nat.digitChar (n % 16)) = some n := by
  decide

theorem readEscape_control {c : Char} (hc : c.toNat < 0x20) (rest : List Char) :
    readEscape ('u' :: '0' :: '0' :: Nat.digitChar (c.toNat / 16) :: Nat.digitChar (c.toNat % 16)
      :: rest) = some (c, rest) := by
  have hlow : ¬ (0xDC00 ≤ c.toNat ∧ c.toNat ≤ 0xDFFF) := by omega
  have hhigh : ¬ (0xD800 ≤ c.toNat ∧ c.toNat ≤ 0xDBFF) := by omega
  simp [readEscape, readUnit, hex4_control c.toNat hc, hlow, hhigh, Char.ofNat_toNat]

/-- An escaped character is read as the character. -/
theorem readText_escape {fuel : Nat} {c : Char} {cs s rest : List Char}
    (h : readText fuel cs = some (s, rest)) :
    readText (fuel + 1) (escape c ++ cs) = some (c :: s, rest) := by
  unfold escape
  split
  case h_8 =>
    rename_i hquote hback _ _ _ _ _
    split
    · rename_i hcontrol
      simp [readText, readEscape_control hcontrol, h]
    · rename_i hvisible
      simp [readText, hvisible, h]
  -- the other characters have an escape of their own
  all_goals simp [readText, readEscape, h]

theorem readText_write {s : List Char} {fuel : Nat} (rest : List Char)
    (hfuel : (s.flatMap escape).length < fuel) :
    readText fuel (s.flatMap escape ++ '"' :: rest) = some (s, rest) := by
  induction s generalizing fuel with
  | nil =>
    cases fuel with
    | zero => exact absurd hfuel (Nat.not_lt_zero _)
    | succ fuel => rfl
  | cons c s ih =>
    have hpos : 0 < (escape c).length := by
      unfold escape
      split <;> (try split) <;> simp
    rw [List.flatMap_cons, List.length_append] at hfuel
    cases fuel with
    | zero => omega
    | succ fuel =>
      rw [List.flatMap_cons, List.append_assoc]
      exact readText_escape (ih (by omega))

/-- A text with its quotes, read after the opening one. -/
theorem readText_writeText (s : String) (rest : List Char) :
    readText ((s.toList.flatMap escape ++ ['"'] ++ rest).length + 1)
      (s.toList.flatMap escape ++ ['"'] ++ rest) = some (s.toList, rest) := by
  rw [List.append_assoc, List.singleton_append]
  apply readText_write rest
  rw [List.length_append]
  omega

/-! ## First characters -/

theorem skip_cons {c : Char} (h : isSpace c = false) (cs : List Char) :
    skip (c :: cs) = c :: cs := by
  simp [skip, h]

/-- A plain value starts with a character that is neither a blank nor a closing bracket. -/
theorem exists_write_eq_cons {j : Json} (h : j.Plain) :
    ∃ c cs, j.write = c :: cs ∧ isSpace c = false ∧ c ≠ ']' := by
  cases j with
  | null => exact ⟨'n', _, rfl, by decide, by decide⟩
  | bool b =>
    cases b with
    | false => exact ⟨'f', _, rfl, by decide, by decide⟩
    | true => exact ⟨'t', _, rfl, by decide, by decide⟩
  | number n => exact absurd h (by simp [Plain])
  | text s => exact ⟨'"', _, rfl, by decide, by decide⟩
  | array items => exact ⟨'[', _, by rw [write], by decide, by decide⟩
  | object members => exact ⟨'\x7b', _, by rw [write], by decide, by decide⟩

theorem exists_writeItems_eq_cons {j : Json} (h : j.Plain) (rest : List Json) :
    ∃ c cs, writeItems (j :: rest) = c :: cs ∧ isSpace c = false ∧ c ≠ ']' := by
  rcases exists_write_eq_cons h with ⟨c, cs, hcons, hspace, hclose⟩
  cases rest with
  | nil => exact ⟨c, cs, by rw [writeItems, hcons], hspace, hclose⟩
  | cons r rest =>
    refine ⟨c, cs ++ ',' :: writeItems (r :: rest), ?_, hspace, hclose⟩
    rw [writeItems, hcons, List.cons_append]
    simp

theorem exists_writeMembers_eq_cons (k : String) (j : Json) (rest : List (String × Json)) :
    ∃ cs, writeMembers ((k, j) :: rest) = '"' :: cs := by
  cases rest with
  | nil => exact ⟨_, by rw [writeMembers, writeText, List.cons_append]⟩
  | cons r rest =>
    refine ⟨k.toList.flatMap escape ++ ['"'] ++ ':' :: (write j ++ ',' :: writeMembers (r :: rest)),
      ?_⟩
    rw [writeMembers, writeText, List.cons_append]
    simp

/-! ## Values -/

mutual

/-- A value is read back from the front of a text.  Each level of nesting costs one unit of fuel
for the value and one for its place in a list, and at least one character. -/
theorem readValue_write (j : Json) (fuel d : Nat) (cs : List Char) (hplain : j.Plain)
    (hdepth : j.depth ≤ d) (hfuel : 2 * j.write.length ≤ fuel) :
    readValue fuel d (j.write ++ cs) = some (j, cs) := by
  have hpos : 0 < j.write.length := by
    rcases exists_write_eq_cons hplain with ⟨c, cs, hcons, _⟩
    simp [hcons]
  obtain ⟨fuel, rfl⟩ : ∃ n, fuel = n + 1 := ⟨fuel - 1, by omega⟩
  cases j with
  | null => simp [readValue, write, skip, isSpace]
  | bool b => cases b <;> simp [readValue, write, skip, isSpace]
  | number n => exact absurd hplain (by simp [Plain])
  | text s =>
    have hread := readText_writeText s cs
    rw [write, writeText, List.cons_append, readValue, skip_cons (by decide)]
    simp only [hread, bind, Option.bind, String.ofList_toList]
  | array items =>
    rw [write, List.cons_append, List.append_assoc, List.singleton_append, readValue,
      skip_cons (by decide)]
    rw [depth] at hdepth
    rw [write, List.length_cons, List.length_append, List.length_singleton] at hfuel
    rw [Plain] at hplain
    -- the brackets pay for the level and for the two units of fuel
    obtain ⟨d, rfl⟩ : ∃ n, d = n + 1 := ⟨d - 1, by omega⟩
    simp only
    cases items with
    | nil => simp [writeItems, skip, isSpace]
    | cons j rest =>
      have hread := readItems_write j rest fuel d cs hplain
        (by omega) (by omega)
      rcases exists_writeItems_eq_cons hplain.1 rest with
        ⟨c, tail, hcons, hspace, hclose⟩
      rw [hcons, List.cons_append] at hread ⊢
      rw [skip_cons hspace]
      -- the first item does not start with a closing bracket
      split
      · rename_i heq
        exact absurd (List.cons.inj heq).1 hclose
      · simp [hread]
  | object members =>
    rw [write, List.cons_append, List.append_assoc, List.singleton_append, readValue,
      skip_cons (by decide)]
    rw [depth] at hdepth
    rw [write, List.length_cons, List.length_append, List.length_singleton] at hfuel
    rw [Plain] at hplain
    obtain ⟨d, rfl⟩ : ∃ n, d = n + 1 := ⟨d - 1, by omega⟩
    simp only
    cases members with
    | nil => simp [writeMembers, skip, isSpace]
    | cons m rest =>
      rcases m with ⟨k, j⟩
      have hread := readMembers_write k j rest fuel d cs
        hplain (by omega) (by omega)
      rcases exists_writeMembers_eq_cons k j rest with ⟨tail, hcons⟩
      rw [hcons, List.cons_append] at hread ⊢
      rw [skip_cons (by decide)]
      simp [hread]
termination_by fuel

/-- The items of an array are read up to the closing bracket. -/
theorem readItems_write (j : Json) (rest : List Json) (fuel d : Nat) (cs : List Char)
    (hplain : PlainItems (j :: rest)) (hdepth : depthItems (j :: rest) ≤ d)
    (hfuel : 2 * (writeItems (j :: rest)).length + 2 ≤ fuel) :
    readItems fuel d (writeItems (j :: rest) ++ ']' :: cs) = some (j :: rest, cs) := by
  obtain ⟨fuel, rfl⟩ : ∃ n, fuel = n + 1 := ⟨fuel - 1, by omega⟩
  rw [depthItems] at hdepth
  cases rest with
  | nil =>
    rw [writeItems] at hfuel ⊢
    have hread := readValue_write j fuel d (']' :: cs) hplain.1 (by omega)
      (by omega)
    rw [readItems, hread]
    simp [skip, isSpace]
  | cons r rest =>
    rw [writeItems, List.length_append, List.length_cons] at hfuel
    · have hread := readValue_write j fuel d
        (',' :: (writeItems (r :: rest) ++ ']' :: cs)) hplain.1 (by omega) (by omega)
      have hrest := readItems_write r rest fuel d cs hplain.2
        (by omega) (by omega)
      rw [writeItems, List.append_assoc, List.cons_append, readItems, hread]
      · simp [skip, isSpace, hrest]
      · simp
    · simp
termination_by fuel

/-- The members of an object are read up to the closing brace. -/
theorem readMembers_write (k : String) (j : Json) (rest : List (String × Json)) (fuel d : Nat)
    (cs : List Char) (hplain : PlainMembers ((k, j) :: rest))
    (hdepth : depthMembers ((k, j) :: rest) ≤ d)
    (hfuel : 2 * (writeMembers ((k, j) :: rest)).length + 2 ≤ fuel) :
    readMembers fuel d (writeMembers ((k, j) :: rest) ++ '\x7d' :: cs)
      = some ((k, j) :: rest, cs) := by
  obtain ⟨fuel, rfl⟩ : ∃ n, fuel = n + 1 := ⟨fuel - 1, by omega⟩
  rw [depthMembers] at hdepth
  cases rest with
  | nil =>
    rw [writeMembers, List.length_append, List.length_cons] at hfuel
    have hread := readValue_write j fuel d ('\x7d' :: cs) hplain.1
      (by omega) (by omega)
    have hkey := readText_writeText k (':' :: (write j ++ '\x7d' :: cs))
    rw [writeMembers, writeText, List.append_assoc, List.cons_append, List.cons_append, readMembers,
      skip_cons (by decide)]
    simp only [hkey, bind, Option.bind, skip_cons (c := ':') (by decide), hread,
      skip_cons (c := '\x7d') (by decide), String.ofList_toList]
  | cons r rest =>
    rcases r with ⟨k', j'⟩
    have htext : writeMembers ((k, j) :: (k', j') :: rest) ++ '\x7d' :: cs
        = '"' :: (k.toList.flatMap escape ++ ['"']
          ++ ':' :: (write j ++ ',' :: (writeMembers ((k', j') :: rest) ++ '\x7d' :: cs))) := by
      simp [writeMembers, writeText]
    have hlength : (writeMembers ((k, j) :: (k', j') :: rest)).length
        = (writeText k).length + j.write.length + (writeMembers ((k', j') :: rest)).length + 2 := by
      simp only [writeMembers, List.length_append, List.length_cons]
      omega
    have hrest := readMembers_write k' j' rest fuel d cs
      hplain.2 (by omega) (by omega)
    have hread := readValue_write j fuel d
      (',' :: (writeMembers ((k', j') :: rest) ++ '\x7d' :: cs)) hplain.1 (by omega) (by omega)
    have hkey := readText_writeText k
      (':' :: (write j ++ ',' :: (writeMembers ((k', j') :: rest) ++ '\x7d' :: cs)))
    rw [htext, readMembers, skip_cons (by decide)]
    simp only [hkey, bind, Option.bind, skip_cons (c := ':') (by decide), hread,
      skip_cons (c := ',') (by decide), hrest, String.ofList_toList]
termination_by fuel

end

/-- Reading undoes writing. -/
theorem read_write {j : Json} (hplain : j.Plain) (hdepth : j.depth ≤ maxDepth) :
    read j.write = some j := by
  have hread := readValue_write j (2 * j.write.length + 2) maxDepth [] hplain hdepth (by omega)
  rw [List.append_nil] at hread
  rw [read, hread]
  rfl

/-! ## Characters -/

mutual

/-- The characters of the texts and keys in a value. -/
def letters : Json → List Char
  | .text s => s.toList
  | .array items => lettersOfItems items
  | .object members => lettersOfMembers members
  | _ => []

/-- `letters` for the items of an array. -/
def lettersOfItems : List Json → List Char
  | [] => []
  | j :: rest => letters j ++ lettersOfItems rest

/-- `letters` for the members of an object. -/
def lettersOfMembers : List (String × Json) → List Char
  | [] => []
  | (k, j) :: rest => k.toList ++ letters j ++ lettersOfMembers rest

end

/-- No control character; a character of a text, or else of ASCII. -/
def IsSpelled (letters : List Char) (c : Char) : Prop :=
  0x20 ≤ c.toNat ∧ (c.toNat ≤ 0x7e ∨ c ∈ letters)

instance (letters : List Char) (c : Char) : Decidable (IsSpelled letters c) :=
  inferInstanceAs (Decidable (_ ∧ _))

theorem IsSpelled.mono {cs ds : List Char} {c : Char} (h : IsSpelled cs c) (hsub : cs ⊆ ds) :
    IsSpelled ds c :=
  ⟨h.1, h.2.imp_right fun hc => hsub hc⟩

/-- A mark of the notation is a character of ASCII, whatever the texts are. -/
theorem spelled_of_all {cs : List Char} {c : Char} (letters : List Char)
    (h : cs.all (fun c => decide (IsSpelled [] c)) = true) (hc : c ∈ cs) : IsSpelled letters c :=
  (of_decide_eq_true (List.all_eq_true.1 h c hc)).mono (List.nil_subset _)

theorem spelled_of_mem_escape {c d : Char} (hd : d ∈ escape c) : IsSpelled [c] d := by
  have hdigit : ∀ n < 16, 0x20 ≤ (Nat.digitChar n).toNat ∧ (Nat.digitChar n).toNat ≤ 0x7e := by
    decide
  unfold escape at hd
  split at hd
  case h_8 =>
    split at hd
    · rename_i hcontrol
      have hfirst := hdigit (c.toNat / 16) (by omega)
      have hsecond := hdigit (c.toNat % 16) (by omega)
      refine spelled_of_all _ ?_ hd
      simp [IsSpelled, hfirst, hsecond]
    · rename_i hvisible
      rw [List.mem_singleton] at hd
      subst hd
      exact ⟨Nat.le_of_not_lt hvisible, .inr (List.mem_singleton_self _)⟩
  all_goals exact spelled_of_all _ (by decide) hd

theorem spelled_of_mem_writeText {s : String} {c : Char} (hc : c ∈ writeText s) :
    IsSpelled s.toList c := by
  rcases List.mem_cons.1 hc with rfl | hc
  · exact spelled_of_all _ (by decide) (List.mem_singleton_self _)
  · rcases List.mem_append.1 hc with hc | hc
    · rcases List.mem_flatMap.1 hc with ⟨d, hd, hc⟩
      exact (spelled_of_mem_escape hc).mono (by simpa using hd)
    · exact spelled_of_all _ (by decide) hc

/-- What stands between two brackets. -/
theorem spelled_of_mem_bracketed {first last c : Char} {cs letters : List Char}
    (hmarks : [first, last].all (fun c => decide (IsSpelled [] c)) = true)
    (hcs : c ∈ cs → IsSpelled letters c) (hc : c ∈ first :: (cs ++ [last])) :
    IsSpelled letters c := by
  rcases List.mem_cons.1 hc with rfl | hc
  · exact spelled_of_all _ hmarks (by simp)
  · rcases List.mem_append.1 hc with hc | hc
    · exact hcs hc
    · exact spelled_of_all _ hmarks (List.mem_cons_of_mem _ hc)

mutual

/-- A compact text is spelled with the texts and keys in it and with marks of ASCII. -/
theorem spelled_of_mem_write {j : Json} (h : j.Plain) {c : Char} (hc : c ∈ j.write) :
    IsSpelled j.letters c := by
  match j with
  | .null =>
    rw [write] at hc
    exact spelled_of_all _ (by decide) hc
  | .bool b =>
    rw [write] at hc
    cases b with
    | true => exact spelled_of_all _ (by decide) hc
    | false => exact spelled_of_all _ (by decide) hc
  | .text s =>
    rw [write] at hc
    rw [letters]
    exact spelled_of_mem_writeText hc
  | .array items =>
    rw [write] at hc
    rw [letters]
    exact spelled_of_mem_bracketed (by decide)
      (spelled_of_mem_writeItems (by simpa [Plain] using h)) hc
  | .object members =>
    rw [write] at hc
    rw [letters]
    exact spelled_of_mem_bracketed (by decide)
      (spelled_of_mem_writeMembers (by simpa [Plain] using h)) hc

theorem spelled_of_mem_writeItems {items : List Json} (h : PlainItems items) {c : Char}
    (hc : c ∈ writeItems items) : IsSpelled (lettersOfItems items) c := by
  match items with
  | [] => simp [writeItems] at hc
  | [j] =>
    have hj := spelled_of_mem_write h.1 (by simpa [writeItems] using hc)
    exact hj.mono (by simp [lettersOfItems])
  | j :: k :: rest =>
    rw [lettersOfItems]
    rw [writeItems] at hc
    · rcases List.mem_append.1 hc with hc | hc
      · exact (spelled_of_mem_write h.1 hc).mono (List.subset_append_left ..)
      · rcases List.mem_cons.1 hc with rfl | hc
        · exact spelled_of_all _ (by decide) (List.mem_singleton_self _)
        · exact (spelled_of_mem_writeItems h.2 hc).mono (List.subset_append_right ..)
    · simp

theorem spelled_of_mem_writeMembers {members : List (String × Json)} (h : PlainMembers members)
    {c : Char} (hc : c ∈ writeMembers members) : IsSpelled (lettersOfMembers members) c := by
  match members with
  | [] => simp [writeMembers] at hc
  | (k, j) :: rest =>
    have hkey : k.toList ⊆ k.toList ++ j.letters ++ lettersOfMembers rest := by
      rw [List.append_assoc]
      exact List.subset_append_left ..
    have hvalue : j.letters ⊆ k.toList ++ j.letters ++ lettersOfMembers rest := by
      rw [List.append_assoc]
      exact List.Subset.trans (List.subset_append_left ..) (List.subset_append_right ..)
    have hfront : ∀ tail, c ∈ writeText k ++ ':' :: (write j ++ tail) →
        IsSpelled (k.toList ++ j.letters ++ lettersOfMembers rest) c ∨ c ∈ tail := by
      intro tail hc
      rcases List.mem_append.1 hc with hc | hc
      · exact .inl ((spelled_of_mem_writeText hc).mono hkey)
      · rcases List.mem_cons.1 hc with rfl | hc
        · exact .inl (spelled_of_all _ (by decide) (List.mem_singleton_self _))
        · rcases List.mem_append.1 hc with hc | hc
          · exact .inl ((spelled_of_mem_write h.1 hc).mono hvalue)
          · exact .inr hc
    rw [lettersOfMembers]
    match rest with
    | [] =>
      rcases hfront [] (by simpa [writeMembers] using hc) with hc | hc
      · exact hc
      · simp at hc
    | r :: rest =>
      rcases hfront (',' :: writeMembers (r :: rest)) (by simpa [writeMembers] using hc) with
        hc | hc
      · exact hc
      · rcases List.mem_cons.1 hc with rfl | hc
        · exact spelled_of_all _ (by decide) (List.mem_singleton_self _)
        · exact (spelled_of_mem_writeMembers h.2 hc).mono (List.subset_append_right ..)

end

end Json
end SignalTree
