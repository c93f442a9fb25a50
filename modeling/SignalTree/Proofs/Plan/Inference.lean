import SignalTree.Builtin
import SignalTree.Plan.Build
import SignalTree.Proofs.Plan.Reading
import SignalTree.Proofs.Value.Text

/-!
# Inference — kinds that are chosen and kinds that are declared

Inside a map the values of a plan choose their kinds themselves.  A value is read as the same value
where the kind that it chooses is declared, but for two slips.  The text of a real number is that of
the document, whose words for infinity and for `nan` the reader of texts does not know; and behind a
tag a scalar is found, but neither a sequence nor a mapping.

* `Yaml.Declarable`: neither of the two;
* `Yaml.toScalar_eq_ok_iff`: values that choose a scalar kind, under any number of tags;
* `Yaml.toValue_iff_of_infer`: all values, also those inside a map.
-/

namespace SignalTree

/-! ## Numbers -/

/-- Real numbers are written like the numbers of a document, and read like values. -/
theorem Real64.decode_write_document {x : Real64} (hx : x.isFinite = true) :
    Scalar.decode (String.ofList (x.write .document)) .real = .ok (.real x) := by
  have htrim : Text.trim (x.write .document) = x.write .document :=
    Text.trim_of_graphic fun c hc =>
      graphic_of_mem_write (fun _ => Text.isGraphic_of_all (by decide)) hc
  have hread := read_write_of_isFinite .document hx
  simp [Scalar.decode, htrim, hread]

/-- The words of a document for the other ones mean nothing to the reader of values. -/
theorem Real64.decode_write_document_eq_error {x : Real64} (hx : x.isFinite = false) :
    ∃ e, Scalar.decode (String.ofList (x.write .document)) .real = .error e := by
  cases x with
  | nan => exact ⟨_, rfl⟩
  | infinite s => cases s <;> exact ⟨_, rfl⟩
  | finite s m e hc => cases hx

namespace Yaml

/-- Whether a value has a tag of the document's own. -/
def isTagged : Yaml → Bool
  | .tagged _ _ => true
  | _ => false

/-- A value of a plan, of which `v` is made if it chooses its kind, can be read where this kind is
declared: only a scalar has a tag, and a real number is finite. -/
structure Declarable (y : Yaml) (v : Value) : Prop where
  scalar_of_tag : y.isTagged = true → ∃ s, v = .scalar s
  finite : ∀ x, v = .scalar (.real x) → x.isFinite = true

variable {y : Yaml} {s t : Scalar} {v w : Value} {l : ScalarList} {items : List Yaml}
  {entries front back : List (Yaml × Yaml)} {m : List (String × Value)}

/-! ## Scalars -/

/-- What a result is, when it is known that there is one. -/
theorem eq_ok_iff_of_eq_ok {α : Type} {r : Except Error α} {a b : α} {p : Prop} (hr : r = .ok a)
    (hp : p) : r = .ok b ↔ b = a ∧ p := by
  rw [hr, Except.ok.injEq, eq_comm]
  exact (and_iff_left hp).symm

theorem toScalar_eq_decode {kind : ScalarKind} {text : String}
    (h : scalarText (.scalar kind) y = .ok text) :
    toScalar kind y = Scalar.decode text kind := by
  rw [toScalar, h]
  rfl

/-- Whole numbers are written like the scalars that they become. -/
theorem ofNumber_cases (n : Number) :
    (∃ s : Scalar, ofNumber n = .scalar s ∧ Scalar.decode s.encode s.kind = .ok s ∧
      (∀ x, s ≠ .real x) ∧ String.ofList (n.write .document) = s.encode) ∨ ∃ x, n = .real x := by
  have hinteger : ∀ i, Scalar.decode (Scalar.integer i).encode .integer = .ok (.integer i) :=
    fun i => Scalar.decode_encode (s := .integer i) trivial
  cases n with
  | natural n =>
    by_cases hsmall : n.toNat < 0x8000000000000000
    · have htoInt : (Int64.ofNat n.toNat).toInt = Int.ofNat n.toNat :=
        Int64.toInt_ofNat_of_lt hsmall
      refine Or.inl ⟨.integer (Int64.ofNat n.toNat), if_pos hsmall, hinteger _,
        (fun x hx => by cases hx), ?_⟩
      rw [Scalar.encode, htoInt]
      rfl
    · exact Or.inl ⟨.unsigned n, if_neg hsmall, Scalar.decode_encode (s := .unsigned n) trivial,
        (fun x hx => by cases hx), rfl⟩
  | negative i => exact Or.inl ⟨.integer i, rfl, hinteger i, (fun x hx => by cases hx), rfl⟩
  | real x => exact Or.inr ⟨x, rfl⟩

theorem exists_scalar_of_number (n : Number) : ∃ s, ofNumber n = .scalar s := by
  rcases ofNumber_cases n with ⟨s, hs, -⟩ | ⟨x, rfl⟩
  · exact ⟨s, hs⟩
  · exact ⟨.real x, rfl⟩

/-- The text of a number gives the scalar of the number, as long as it is finite. -/
theorem decode_number_eq_ok_iff {n : Number} (hs : ofNumber n = .scalar s) :
    Scalar.decode (String.ofList (n.write .document)) s.kind = .ok t ↔
      t = s ∧ ∀ x, s = .real x → x.isFinite = true := by
  rcases ofNumber_cases n with ⟨s', hs', hread, hreal, htext⟩ | ⟨x, rfl⟩
  · obtain rfl := Value.scalar.inj (hs.symm.trans hs')
    rw [htext]
    exact eq_ok_iff_of_eq_ok hread fun x hx => absurd hx (hreal x)
  · obtain rfl := Value.scalar.inj hs
    cases hx : x.isFinite with
    | true =>
      refine eq_ok_iff_of_eq_ok (Real64.decode_write_document hx) ?_
      rintro _ ⟨⟩
      exact hx
    | false =>
      rcases Real64.decode_write_document_eq_error hx with ⟨e, he⟩
      refine iff_of_false (fun h => ?_) fun h => ?_
      · cases he.symm.trans h
      · rw [h.2 x rfl] at hx
        cases hx

/-- A sequence gives a list, of whatever kind its first item chooses. -/
theorem toList_of_infer (h : infer (.sequence items) = .ok v) :
    ∃ kind, v.kind = .list kind ∧ toList kind items = .ok v := by
  have hkind : ∀ kind, toList kind items = .ok v → v.kind = .list kind := fun kind hlist =>
    (gives_toList kind items).of_eq_ok hlist
  rw [infer] at h
  rcases bind_eq_ok_iff.1 h with ⟨first, -, h⟩
  rcases first with _ | first
  · exact ⟨_, hkind _ h, h⟩
  · cases first with
    | scalar s => exact ⟨_, hkind _ h, h⟩
    | list l => cases h
    | map entries => cases h

theorem exists_map_of_infer (h : infer (.mapping entries) = .ok v) : ∃ m, v = .map m := by
  rw [infer] at h
  rcases map_eq_ok_iff.1 h with ⟨m, -, rfl⟩
  exact ⟨m, rfl⟩

/-- Under any number of tags, a value that chooses a scalar kind is read for this kind. -/
theorem toScalar_eq_ok_iff (h : infer y = .ok (.scalar s)) :
    toScalar s.kind y = .ok t ↔ t = s ∧ ∀ x, s = .real x → x.isFinite = true := by
  -- tags are passed over, when a kind is chosen as well as when a text is asked for
  induction y using scalarText.induct with
  | case1 text =>
    rw [infer] at h
    cases h
    exact eq_ok_iff_of_eq_ok rfl fun x hx => by cases hx
  | case2 b =>
    rw [infer] at h
    cases h
    have hread := Scalar.decode_encode (s := .bool b) trivial
    exact eq_ok_iff_of_eq_ok ((toScalar_eq_decode rfl).trans hread) fun x hx => by cases hx
  | case3 n =>
    rw [infer] at h
    rw [toScalar_eq_decode rfl]
    exact decode_number_eq_ok_iff (Except.ok.inj h)
  | case4 tag y ih =>
    rw [infer] at h
    exact ih h
  | case5 y htext hbool hnumber htagged =>
    -- what is left chooses a list or a map, or nothing
    cases y with
    | null => cases h
    | bool b => exact absurd rfl (hbool b)
    | number n => exact absurd rfl (hnumber n)
    | text text => exact absurd rfl (htext text)
    | sequence items =>
      rcases toList_of_infer h with ⟨kind, hkind, -⟩
      cases hkind
    | mapping entries =>
      rcases exists_map_of_infer h with ⟨m, hm⟩
      cases hm
    | tagged tag y => exact absurd rfl (htagged tag y)

/-! ## Values -/

/-- Behind a tag neither a sequence nor a mapping is found. -/
theorem toValue_tagged_eq_error {kind : Kind} (hkind : ∀ k, kind ≠ .scalar k) (tag : String) :
    (Yaml.tagged tag y).toValue kind = .error (wrongShape kind (.tagged tag y)) := by
  cases kind with
  | scalar k => exact absurd rfl (hkind k)
  | list k => rfl
  | map => rfl

/-- A value that is neither a scalar nor behind a tag is read as it is inside a map. -/
theorem toValue_of_untagged (h : infer y = .ok v) (hscalar : ∀ s, v ≠ .scalar s)
    (htag : y.isTagged = false) : y.toValue v.kind = .ok v := by
  cases y with
  | null => cases h
  | bool b =>
    rw [infer] at h
    exact absurd (Except.ok.inj h).symm (hscalar _)
  | number n =>
    rw [infer] at h
    rcases exists_scalar_of_number n with ⟨s, hs⟩
    exact absurd ((Except.ok.inj h).symm.trans hs) (hscalar s)
  | text text =>
    rw [infer] at h
    exact absurd (Except.ok.inj h).symm (hscalar _)
  | sequence items =>
    rcases toList_of_infer h with ⟨kind, hkind, hlist⟩
    rw [hkind]
    exact hlist
  | mapping entries =>
    rcases exists_map_of_infer h with ⟨m, rfl⟩
    exact h
  | tagged tag y => cases htag

/-- A value that chooses its kind is read for this kind if and only if it is declarable, and then it
is the same value. -/
theorem toValue_eq_ok_iff (h : infer y = .ok v) :
    y.toValue v.kind = .ok w ↔ w = v ∧ y.Declarable v := by
  by_cases hscalar : ∃ s, v = .scalar s
  · obtain ⟨s, rfl⟩ := hscalar
    have hdeclarable : y.Declarable (.scalar s) ↔ ∀ x, s = .real x → x.isFinite = true := by
      constructor
      · exact fun hd x hx => hd.finite x (congrArg Value.scalar hx)
      · exact fun hfinite => ⟨fun _ => ⟨s, rfl⟩, fun x hx => hfinite x (Value.scalar.inj hx)⟩
    rw [hdeclarable]
    refine map_eq_ok_iff.trans ?_
    constructor
    · rintro ⟨t, ht, rfl⟩
      rcases (toScalar_eq_ok_iff h).1 ht with ⟨rfl, hfinite⟩
      exact ⟨rfl, hfinite⟩
    · rintro ⟨rfl, hfinite⟩
      exact ⟨s, (toScalar_eq_ok_iff h).2 ⟨rfl, hfinite⟩, rfl⟩
  · have hne : ∀ s, v ≠ .scalar s := fun s hs => hscalar ⟨s, hs⟩
    cases htag : y.isTagged with
    | false =>
      have hdeclarable : y.Declarable v :=
        ⟨fun htagged => absurd (htag.symm.trans htagged) (by decide),
          fun x hx => absurd hx (hne _)⟩
      exact eq_ok_iff_of_eq_ok (toValue_of_untagged h hne htag) hdeclarable
    | true =>
      -- the kind was chosen by what is behind the tag, which is not looked at any more
      refine iff_of_false ?_ fun hd => hscalar (hd.2.scalar_of_tag htag)
      cases y with
      | tagged tag y =>
        have hkind : ∀ k, v.kind ≠ .scalar k := by
          intro k hk
          cases v with
          | scalar s => exact hne s rfl
          | list l => cases hk
          | map m => cases hk
        rw [toValue_tagged_eq_error hkind]
        exact fun heq => by cases heq
      | _ => cases htag

/-! ## Entries of a map -/

/-- Entries under other keys leave what is under a key. -/
theorem lookup_of_inferEntries {key : String} {done : List (String × Value)}
    (h : inferEntries entries done = .ok m) (hkey : ∀ z, (Yaml.text key, z) ∉ entries) :
    m.lookup key = done.lookup key := by
  induction entries generalizing done with
  | nil =>
    rw [inferEntries] at h
    cases h
    rfl
  | cons p rest ih =>
    rcases p with ⟨k, z⟩
    cases k with
    | text k =>
      have hne : key ≠ k := by
        rintro rfl
        exact hkey z (List.mem_cons_self ..)
      rw [inferEntries] at h
      cases hz : infer z with
      | error e => simp [hz] at h
      | ok v =>
        simp only [hz] at h
        rw [ih h fun z hz => hkey z (List.mem_cons_of_mem _ hz), Keyed.lookup_put, if_neg hne]
    | _ => cases h

/-- The last value under a key is the one that is found there. -/
theorem infer_of_inferEntries {key : String} {done : List (String × Value)}
    (h : inferEntries (front ++ (.text key, y) :: back) done = .ok m)
    (hlast : ∀ z, (Yaml.text key, z) ∉ back) :
    ∃ v, m.lookup key = some v ∧ infer y = .ok v := by
  induction front generalizing done with
  | nil =>
    rw [List.nil_append, inferEntries] at h
    cases hy : infer y with
    | error e => simp [hy] at h
    | ok v =>
      simp only [hy] at h
      refine ⟨v, ?_, rfl⟩
      rw [lookup_of_inferEntries h hlast, Keyed.lookup_put, if_pos rfl]
  | cons p rest ih =>
    rcases p with ⟨k, z⟩
    cases k with
    | text k =>
      rw [List.cons_append, inferEntries] at h
      cases hz : infer z with
      | error e => simp [hz] at h
      | ok v =>
        simp only [hz] at h
        exact ih h
    | _ => cases h

/-- Whatever kind a value of a plan chooses, it is read for this kind if and only if no tag hides a
list or a map and it is not an infinity or `nan`, and then as the same value.  So it is with each
value that an option takes for a map, and an option of the kind that the value has there. -/
theorem toValue_iff_of_infer (y : Yaml) :
    (∀ v, infer y = .ok v → ∀ w, y.toValue v.kind = .ok w ↔ w = v ∧ y.Declarable v) ∧
    ∀ (front : List (Yaml × Yaml)) (key : String) (back : List (Yaml × Yaml))
      (m : List (String × Value)),
      (Yaml.mapping (front ++ (.text key, y) :: back)).toValue .map = .ok (.map m) →
      (∀ z, (Yaml.text key, z) ∉ back) →
      ∃ v, m.lookup key = some v ∧ ∀ w, y.toValue v.kind = .ok w ↔ w = v ∧ y.Declarable v := by
  refine ⟨fun v h w => toValue_eq_ok_iff h, ?_⟩
  intro front key back m h hlast
  have hmap : (inferEntries (front ++ (.text key, y) :: back) []).map Value.map = .ok (.map m) := by
    rw [← infer]
    exact h
  rcases map_eq_ok_iff.1 hmap with ⟨m', hm, hsame⟩
  obtain rfl := Value.map.inj hsame
  rcases infer_of_inferEntries hm hlast with ⟨v, hv, hy⟩
  exact ⟨v, hv, fun w => toValue_eq_ok_iff hy⟩

/-- A real number that is written with an exponent, and a tag before it. -/
def farDepth : Yaml :=
  .tagged "!metres" (.number (.real (.finite false (1 <<< 52) 1500 (by decide))))

theorem toValue_iff_farDepth :
    infer (.mapping [(.text "depth", farDepth)]) =
        .ok (.map [("depth", .scalar (.real (.finite false (1 <<< 52) 1500 (by decide))))]) ∧
      farDepth.toValue (.scalar .real) =
        .ok (.scalar (.real (.finite false (1 <<< 52) 1500 (by decide)))) := by
  have hinfer : infer (.mapping [(.text "depth", farDepth)]) =
      .ok (.map [("depth", .scalar (.real (.finite false (1 <<< 52) 1500 (by decide))))]) := by
    simp [farDepth, infer, inferEntries, ofNumber, Except.map, Keyed.put]
  rcases (toValue_iff_of_infer farDepth).2 [] "depth" [] _ hinfer (by simp) with ⟨v, hv, hread⟩
  obtain rfl := Option.some.inj (hv.symm.trans (List.lookup_cons_self ..))
  refine ⟨hinfer, (hread _).2 ⟨rfl, fun _ => ⟨_, rfl⟩, ?_⟩⟩
  rintro x ⟨⟩
  rfl

/-- A plan that gives an infinity to a map, where it is taken, and then to an option for real
numbers. -/
def endlessPlan : Plan :=
  let endless : Yaml := .number (.real (.infinite false))
  ⟨"Root", [⟨"", "well", Builtin.groupType, [
    ("log", ⟨"map", some (.mapping [(.text "depth", endless)]), "", none, [], false⟩),
    ("depth", ⟨"real", some endless, "", none, [], false⟩)], []⟩], []⟩

/-- Values that are read inside a map, and not where their kinds are declared: an infinity, and a
list behind a tag. -/
theorem not_toValue_of_infer :
    infer (.number (.real (.infinite false))) = .ok (.scalar (.real (.infinite false))) ∧
      toValue (.number (.real (.infinite false))) (.scalar .real) =
        .error (.format "real" ".inf" "invalid float literal") ∧
      (endlessPlan.build (.standard : Registry Unit Unit) ⟨[], (), []⟩).1 =
        .error (.unreadable "real" ".inf" "invalid float literal" "depth") ∧
      infer (.tagged "!metres" (.sequence [.text "1"])) =
        .ok (.list ⟨.string, [.string "1"], by decide⟩) ∧
      toValue (.tagged "!metres" (.sequence [.text "1"])) (.list .string) =
        .error (wrongShape (.list .string) (.tagged "!metres" (.sequence [.text "1"]))) :=
  ⟨rfl, rfl, rfl, rfl, rfl⟩

end Yaml
end SignalTree
