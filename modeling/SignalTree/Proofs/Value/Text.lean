import SignalTree.Proofs.Base64
import SignalTree.Proofs.Calendar
import SignalTree.Proofs.Json
import SignalTree.Proofs.Keyed
import SignalTree.Proofs.Kind
import SignalTree.Proofs.Real64.Text
import SignalTree.Proofs.Result
import SignalTree.Proofs.Uri
import SignalTree.Value.Text

/-!
# Text — values are read back

The text of a scalar neither starts nor ends with a blank, except for strings, which are not
trimmed.  Lists and maps are written as values of the notation; there every map is an object with
one member for each key, and every value stands under the name of its kind.

* `Scalar.Regular`, `Value.Every`: neither `nan` nor a reference that reading would not give;
* `Scalar.settled`, `Value.settled`: the value with the same text in which every leap second is at
  the end of a minute;
* `Scalar.decode_encode`: scalars;
* `Value.decodeTagged_payload`: the induction over values;
* `Value.decode_encode_eq_self_iff`: reading undoes writing, if there are no other leap seconds.
-/

namespace SignalTree

namespace Scalar

/-- Neither `nan`, which is not the same as itself, nor a reference that reading would not give. -/
def Regular : Scalar → Prop
  | .real x => x ≠ .nan
  | .path u => u.IsParsed
  | _ => True

/-! ## Leap seconds -/

/-- The scalar has a text of its own: a date with a leap second is at the end of a minute. -/
def IsSettled : Scalar → Prop
  | .date m => m.IsSettled
  | _ => True

/-- A leap second that is not at the end of a minute becomes the second that follows. -/
def settled : Scalar → Scalar
  | .date m => .date m.settled
  | s => s

@[simp] theorem kind_settled (s : Scalar) : s.settled.kind = s.kind := by cases s <;> rfl

theorem settled_eq_self_iff {s : Scalar} : s.settled = s ↔ s.IsSettled := by
  cases s with
  | date m => rw [settled, IsSettled, Scalar.date.injEq, Calendar.Moment.settled_eq_self_iff]
  | _ => exact iff_of_true rfl trivial

theorem same_of_kind {a : Scalar} (h : a.kind ≠ .real) (b : Scalar) : a.same b = (a == b) := by
  cases a with
  | real x => exact absurd rfl h
  | _ => rfl

theorem same_settled {a b : Scalar} (h : a.same b = true) : a.settled.same b.settled = true := by
  -- numbers are compared as numbers and have nothing to settle; all others are the same if equal
  by_cases hreal : a.kind = .real
  · cases a with
    | real x =>
      cases b with
      | real y => exact h
      | _ => simp [same] at h
    | _ => cases hreal
  · rw [same_of_kind hreal, beq_iff_eq] at h
    rw [same_of_kind (by rwa [kind_settled]), h, beq_self_eq_true]

/-! ## Scalars -/

/-- Strings and references apart, scalars are written with visible characters of ASCII. -/
theorem graphic_of_mem_encode {s : Scalar} (hstring : s.kind ≠ .string) (hpath : s.kind ≠ .path)
    {c : Char} (hc : c ∈ s.encode.toList) : Text.IsGraphic c := by
  cases s with
  | bool b =>
    cases b with
    | false => exact Text.isGraphic_of_all (by decide) hc
    | true => exact Text.isGraphic_of_all (by decide) hc
  | integer i =>
    rw [encode, String.toList_ofList] at hc
    exact Numeral.graphic_of_mem_signedDigits hc
  | unsigned n =>
    rw [encode, String.toList_ofList] at hc
    exact Text.isGraphic_of_isDigit (Numeral.isDigit_of_mem_digits hc)
  | real x =>
    rw [encode, String.toList_ofList] at hc
    exact Real64.graphic_of_mem_write (fun _ => Text.isGraphic_of_all (by decide)) hc
  | string s => exact absurd rfl hstring
  | path u => exact absurd rfl hpath
  | date m =>
    rw [encode, String.toList_ofList] at hc
    exact Calendar.graphic_of_mem_writeMoment hc
  | data bytes =>
    rw [encode, String.toList_ofList] at hc
    exact Base64.graphic_of_mem_encode hc

/-- Strings apart, the text of a scalar is its own trim. -/
theorem trim_encode {s : Scalar} (hstring : s.kind ≠ .string) (hs : s.Regular) :
    Text.trim s.encode.toList = s.encode.toList := by
  by_cases hpath : s.kind = .path
  · cases s with
    | path u => exact Uri.IsParsed.trim_text hs
    | _ => cases hpath
  · exact Text.trim_of_graphic fun c hc => graphic_of_mem_encode hstring hpath hc

/-- What is written is read back with its leap second settled. -/
theorem decode_encode {s : Scalar} (hs : s.Regular) : decode s.encode s.kind = .ok s.settled := by
  by_cases hstring : s.kind = .string
  · cases s with
    | string t => rfl
    | _ => cases hstring
  · -- the reader trims, which changes none of the other texts
    have htrim := trim_encode hstring hs
    cases s with
    | bool b => cases b <;> rfl
    | integer i =>
      have hread := Numeral.readSigned_signedDigits i
      simp only [encode, String.toList_ofList] at htrim
      simp [decode, kind, encode, htrim, hread, settled]
    | unsigned n =>
      have hread := Numeral.readUnsigned_digits n
      simp only [encode, String.toList_ofList] at htrim
      simp [decode, kind, encode, htrim, hread, settled]
    | real x =>
      have hread := Real64.read_write_plain hs
      simp only [encode, String.toList_ofList] at htrim
      simp [decode, kind, encode, htrim, hread, settled]
    | string t => exact absurd rfl hstring
    | path u =>
      have hread := Uri.IsParsed.parse_text hs
      simp only [encode] at htrim
      simp [decode, kind, encode, htrim, hread, Except.map, settled]
    | date m =>
      have hread := Calendar.readMoment_writeMoment m
      simp only [encode, String.toList_ofList] at htrim
      simp [decode, kind, encode, htrim, hread, settled]
    | data bytes =>
      have hread := Base64.decode_encode bytes
      simp only [encode, String.toList_ofList] at htrim
      simp [decode, kind, encode, htrim, hread, settled]

end Scalar

/-- A list whose items are changed stays as it is if none of them changes. -/
theorem map_eq_self_iff {α : Type} {f : α → α} {items : List α} :
    items.map f = items ↔ ∀ a ∈ items, f a = a := by
  conv_lhs => rhs; rw [← List.map_id items]
  exact List.map_inj_left

/-- The list of the settled scalars. -/
def ScalarList.settled (l : ScalarList) : ScalarList where
  kind := l.kind
  items := l.items.map Scalar.settled
  uniform := by
    intro s hs
    rcases List.mem_map.1 hs with ⟨t, ht, rfl⟩
    rw [Scalar.kind_settled]
    exact l.uniform t ht

theorem ScalarList.same_settled {a b : ScalarList} (h : a.same b = true) :
    a.settled.same b.settled = true := by
  simp only [same, Bool.and_eq_true, List.all_eq_true] at h
  simp only [same, settled, Bool.and_eq_true, List.length_map, List.zip_map, List.all_eq_true,
    List.forall_mem_map]
  exact ⟨h.1, fun p hp => Scalar.same_settled (h.2 p hp)⟩

theorem ScalarList.settled_eq_self_iff {l : ScalarList} :
    l.settled = l ↔ ∀ s ∈ l.items, s.IsSettled := by
  rcases l with ⟨kind, items, huniform⟩
  rw [settled, ScalarList.mk.injEq, map_eq_self_iff]
  simp only [true_and, Scalar.settled_eq_self_iff]

namespace Value

mutual

/-- Every scalar at any depth has the property. -/
def Every (p : Scalar → Prop) : Value → Prop
  | .scalar s => p s
  | .list l => ∀ s ∈ l.items, p s
  | .map entries => EveryEntry p entries

/-- `Every` for each value of a map. -/
def EveryEntry (p : Scalar → Prop) : List (String × Value) → Prop
  | [] => True
  | (_, v) :: rest => Every p v ∧ EveryEntry p rest

end

/-! ## Leap seconds -/

mutual

/-- Every scalar at any depth is settled. -/
def settled : Value → Value
  | .scalar s => .scalar s.settled
  | .list l => .list l.settled
  | .map entries => .map (settledEntries entries)

/-- `settled` for each value of a map. -/
def settledEntries : List (String × Value) → List (String × Value)
  | [] => []
  | (k, v) :: rest => (k, settled v) :: settledEntries rest

end

theorem settledEntries_eq_map (entries : List (String × Value)) :
    settledEntries entries = entries.map fun p => (p.1, p.2.settled) := by
  induction entries with
  | nil => rw [settledEntries, List.map_nil]
  | cons p rest ih => rw [settledEntries, ih, List.map_cons]

theorem keys_settledEntries (entries : List (String × Value)) :
    Keyed.keys (settledEntries entries) = Keyed.keys entries := by
  rw [settledEntries_eq_map, Keyed.keys_map]

@[simp] theorem kind_settled (v : Value) : v.settled.kind = v.kind := by
  cases v with
  | scalar s => rw [settled, kind, kind, Scalar.kind_settled]
  | list l => rw [settled, kind, kind, ScalarList.settled]
  | map entries => rw [settled, kind, kind]

mutual

theorem settled_eq_self_iff {v : Value} : v.settled = v ↔ v.Every Scalar.IsSettled := by
  match v with
  | .scalar s => rw [settled, Every, Value.scalar.injEq, Scalar.settled_eq_self_iff]
  | .list l => rw [settled, Every, Value.list.injEq, ScalarList.settled_eq_self_iff]
  | .map entries => rw [settled, Every, Value.map.injEq, settledEntries_eq_self_iff]

theorem settledEntries_eq_self_iff {entries : List (String × Value)} :
    settledEntries entries = entries ↔ EveryEntry Scalar.IsSettled entries := by
  match entries with
  | [] => simp [settledEntries, EveryEntry]
  | (k, v) :: rest =>
    rw [settledEntries, EveryEntry, List.cons.injEq, Prod.mk.injEq, settled_eq_self_iff,
      settledEntries_eq_self_iff]
    exact and_congr_left fun _ => and_iff_right rfl

end

mutual

/-- What is the same stays the same. -/
theorem same_settled {v w : Value} (h : v.same w = true) : v.settled.same w.settled = true := by
  match v with
  | .scalar a =>
    cases w with
    | scalar b =>
      rw [same] at h
      rw [settled, settled, same]
      exact Scalar.same_settled h
    | _ => simp [same] at h
  | .list a =>
    cases w with
    | list b =>
      rw [same] at h
      rw [settled, settled, same]
      exact ScalarList.same_settled h
    | _ => simp [same] at h
  | .map a =>
    cases w with
    | map b =>
      rw [same, Bool.and_eq_true] at h
      rw [settled, settled, same, Bool.and_eq_true]
      exact ⟨by simpa [settledEntries_eq_map] using h.1, sameEntries_settled h.2⟩
    | _ => simp [same] at h

theorem sameEntries_settled {a b : List (String × Value)} (h : sameEntries a b = true) :
    sameEntries (settledEntries a) (settledEntries b) = true := by
  match a with
  | [] => simp [settledEntries, sameEntries]
  | (k, v) :: rest =>
    rw [sameEntries, Bool.and_eq_true] at h
    have hrest := sameEntries_settled h.2
    have hlookup : (settledEntries b).lookup k = (b.lookup k).map settled := by
      rw [settledEntries_eq_map b, Keyed.lookup_map]
    rw [settledEntries, sameEntries, hlookup, Bool.and_eq_true]
    refine ⟨?_, hrest⟩
    cases hb : b.lookup k with
    | none => simp [hb] at h
    | some w =>
      simp only [hb] at h
      exact same_settled h.1

end

theorem isIn_settled {v : Value} {values : List Value} (h : v.isIn values = true) :
    v.settled.isIn (values.map settled) = true := by
  simp only [isIn, List.any_eq_true, List.mem_map] at h ⊢
  rcases h with ⟨w, hw, hsame⟩
  exact ⟨w.settled, ⟨w, hw, rfl⟩, same_settled hsame⟩

/-! ## Lists -/

theorem plainItems_texts (items : List Scalar) :
    Json.PlainItems (items.map fun s => Json.text s.encode) := by
  induction items with
  | nil => trivial
  | cons s rest ih => exact ⟨trivial, ih⟩

theorem mergedItems_texts (items : List Scalar) :
    Json.mergedItems (items.map fun s => Json.text s.encode)
      = items.map fun s => Json.text s.encode := by
  induction items with
  | nil => rfl
  | cons s rest ih => simp [Json.mergedItems, Json.merged, ih]

theorem decodeItems_texts {kind : ScalarKind} {items : List Scalar} (i : Nat)
    (huniform : ∀ s ∈ items, s.kind = kind) (hregular : ∀ s ∈ items, s.Regular) :
    decodeItems kind i (items.map fun s => Json.text s.encode)
      = .ok ((items.map Scalar.settled).map .scalar) := by
  induction items generalizing i with
  | nil => rfl
  | cons s rest ih =>
    have hs := Scalar.decode_encode (hregular s (List.mem_cons_self ..))
    rw [huniform s (List.mem_cons_self ..)] at hs
    have hrest := ih (i + 1) (fun t ht => huniform t (List.mem_cons_of_mem _ ht))
      (fun t ht => hregular t (List.mem_cons_of_mem _ ht))
    simp [decodeItems, hs, hrest, Except.map]

theorem scalarsOf_map_scalar {kind : ScalarKind} {items : List Scalar} (i : Nat)
    (huniform : ∀ s ∈ items, s.kind = kind) :
    scalarsOf kind i (items.map .scalar) = .ok ⟨items, huniform⟩ := by
  induction items generalizing i with
  | nil => rfl
  | cons s rest ih =>
    have hs := huniform s (List.mem_cons_self ..)
    have hrest := ih (i + 1) (fun t ht => huniform t (List.mem_cons_of_mem _ ht))
    simp [scalarsOf, hs, hrest, Except.map]

/-- The scalars of a list make up the list. -/
theorem ofValues_map_scalar (l : ScalarList) :
    ScalarList.ofValues l.kind (l.items.map .scalar) = .ok l := by
  simp [ScalarList.ofValues, scalarsOf_map_scalar 0 l.uniform, Except.map]

theorem decodeList_itemTexts {l : ScalarList} (text : String)
    (hregular : ∀ s ∈ l.items, s.Regular) :
    decodeList l.kind text (itemTexts l) = .ok (.list l.settled) := by
  have hitems := decodeItems_texts 0 l.uniform hregular
  have hvalues : ScalarList.ofValues l.kind ((l.items.map Scalar.settled).map .scalar)
      = .ok l.settled := ofValues_map_scalar l.settled
  simp only [decodeList, itemTexts, hitems, hvalues, bind, Except.bind, Except.map]

/-! ## Payloads -/

mutual

theorem plain_payload (v : Value) : v.payload.Plain := by
  cases v with
  | scalar s => simp [payload, Json.Plain]
  | list l => simp [payload, itemTexts, Json.Plain, plainItems_texts]
  | map entries =>
    rw [payload, Json.Plain]
    exact plainMembers_payloads entries

theorem plainMembers_payloads (entries : List (String × Value)) :
    Json.PlainMembers (payloads entries) := by
  match entries with
  | [] => simp [payloads, Json.PlainMembers]
  | (k, v) :: rest =>
    simp [payloads, Json.PlainMembers, Json.Plain, plain_payload v, plainMembers_payloads rest]

end

theorem keys_payloads (entries : List (String × Value)) :
    Keyed.keys (payloads entries) = Keyed.keys entries := by
  induction entries with
  | nil => rfl
  | cons e rest ih =>
    rcases e with ⟨k, v⟩
    simp only [Keyed.keys] at ih
    simp [payloads, Keyed.keys, ih]

mutual

/-- The notation of a value has one member for each key already. -/
theorem merged_payload {v : Value} (h : v.Distinct) : v.payload.merged = v.payload := by
  match v with
  | .scalar s => simp [payload, Json.merged]
  | .list l => simp [payload, itemTexts, Json.merged, mergedItems_texts]
  | .map entries =>
    rw [Distinct] at h
    have hdistinct : Keyed.Distinct (payloads entries) := h.1.of_keys_eq (keys_payloads entries)
    rw [payload, Json.merged, mergedMembers_payloads h.2, Keyed.ofList_of_distinct hdistinct]

theorem mergedMembers_payloads {entries : List (String × Value)} (h : DistinctEntries entries) :
    Json.mergedMembers (payloads entries) = payloads entries := by
  match entries with
  | [] => simp [payloads, Json.mergedMembers]
  | (k, v) :: rest =>
    rw [DistinctEntries] at h
    simp [payloads, Json.mergedMembers, Json.merged, merged_payload h.1,
      mergedMembers_payloads h.2, Keyed.ofList, Keyed.put]

end

mutual

/-- A value is read back from its notation under the name of its kind, settled. -/
theorem decodeTagged_payload {v : Value} (h : v.Every Scalar.Regular) :
    decodeTagged (.object [(v.kind.name, v.payload)]) = .ok v.settled := by
  match v with
  | .scalar s =>
    have hs := Scalar.decode_encode (s := s) (by simpa [Every] using h)
    simp [decodeTagged, Kind.ofName?_name, kind, payload, hs, Except.map, settled]
  | .list l =>
    have hl := fun text => decodeList_itemTexts (l := l) text (by simpa [Every] using h)
    simp [decodeTagged, Kind.ofName?_name, kind, payload, hl, settled]
  | .map entries =>
    rw [Every] at h
    simp [decodeTagged, Kind.ofName?_name, kind, payload, decodeMembers_payloads h, Except.map,
      settled]

theorem decodeMembers_payloads {entries : List (String × Value)}
    (h : EveryEntry Scalar.Regular entries) :
    decodeMembers (payloads entries) = .ok (settledEntries entries) := by
  match entries with
  | [] => simp [payloads, decodeMembers, settledEntries]
  | (k, v) :: rest =>
    rw [EveryEntry] at h
    simp [payloads, decodeMembers, decodeTagged_payload h.1, decodeMembers_payloads h.2, Except.map,
      settledEntries]

end

/-! ## Values -/

theorem readJson_render {v : Value} (kind : Kind) (hdistinct : v.Distinct)
    (hdepth : v.payload.depth ≤ Json.maxDepth) :
    readJson v.payload.render kind = .ok v.payload := by
  rw [readJson, Json.render, String.toList_ofList, Json.read_write (plain_payload v) hdepth]
  simp [merged_payload hdistinct]

/-- A list is never too deep to be read. -/
theorem depth_list (l : ScalarList) : (list l).payload.depth ≤ Json.maxDepth := by
  have hitems : Json.depthItems (l.items.map fun s => Json.text s.encode) = 0 := by
    generalize l.items = items
    induction items with
    | nil => rfl
    | cons s rest ih => simp [Json.depthItems, Json.depth, ih]
  simp [payload, itemTexts, Json.depth, hitems, Json.maxDepth]

theorem decode_encode_list {l : ScalarList} (hregular : ∀ s ∈ l.items, s.Regular) :
    decode (list l).encode (.list l.kind) = .ok (.list l.settled) := by
  have hjson := readJson_render (v := .list l) (.list l.kind) (by simp [Distinct]) (depth_list l)
  have hlist := decodeList_itemTexts (list l).payload.render hregular
  simp only [encode, decode, hjson, bind, Except.bind]
  exact hlist

theorem decode_encode_map {entries : List (String × Value)} (hdistinct : (map entries).Distinct)
    (hregular : (map entries).Every Scalar.Regular)
    (hdepth : (map entries).payload.depth ≤ Json.maxDepth) :
    decode (map entries).encode .map = .ok (.map (settledEntries entries)) := by
  rw [Every] at hregular
  have hjson := readJson_render .map hdistinct hdepth
  simp only [encode, decode, hjson, bind, Except.bind]
  simp [payload, decodeMap, decodeMembers_payloads hregular, Except.map]

/-- What is written is read back with every leap second settled. -/
theorem decode_encode {v : Value} (hdistinct : v.Distinct) (hregular : v.Every Scalar.Regular)
    (hdepth : v.payload.depth ≤ Json.maxDepth) : decode v.encode v.kind = .ok v.settled := by
  cases v with
  | scalar s =>
    rw [Every] at hregular
    simp [encode, kind, decode, Scalar.decode_encode hregular, Except.map, settled]
  | list l =>
    rw [Every] at hregular
    rw [settled]
    exact decode_encode_list hregular
  | map entries =>
    rw [settled]
    exact decode_encode_map hdistinct hregular hdepth

/-- Reading a text with the kind of its value gives the value back: the kind of every list, empty
ones included, and the keys of every map in their order.  Only a leap second that is not at the end
of a minute is read as the second that follows, whose text it has. -/
theorem decode_encode_eq_self_iff (v : Value) (hdistinct : v.Distinct)
    (hregular : v.Every Scalar.Regular) (hdepth : v.payload.depth ≤ Json.maxDepth) :
    decode v.encode v.kind = .ok v.settled ∧
      (decode v.encode v.kind = .ok v ↔ v.Every Scalar.IsSettled) := by
  have hread := decode_encode hdistinct hregular hdepth
  refine ⟨hread, ?_⟩
  rw [hread, Except.ok.injEq, settled_eq_self_iff]

/-- A map with a leap second before the year 0, an empty list, a reference, the least real number
and texts that need escapes. -/
def sampleMap : Value :=
  .map [(" \"key\"\n", .list ⟨.string, [.string "  a\\ ", .string ""], by decide⟩),
    ("", .map [
      ("date", .scalar (.date ⟨⟨-1, 12, 31, by decide⟩, ⟨23, 59, 59, 1000000005, by decide⟩⟩)),
      ("none", .list (.empty .data)),
      ("path", .scalar (.path ⟨some "cpath", "/a:b"⟩)),
      ("least", .scalar (.real (.finite true 1 0 (by decide))))])]

theorem decode_encode_sampleMap :
    sampleMap.Distinct ∧ sampleMap.Every Scalar.Regular ∧
      sampleMap.payload.depth ≤ Json.maxDepth ∧ sampleMap.Every Scalar.IsSettled ∧
      decode sampleMap.encode sampleMap.kind = .ok sampleMap := by
  have hdistinct : sampleMap.Distinct := by
    simp [sampleMap, Distinct, DistinctEntries, Keyed.Distinct, Keyed.keys]
  have hregular : sampleMap.Every Scalar.Regular := by
    simp only [sampleMap, Every, EveryEntry, Scalar.Regular, ScalarList.empty]
    exact ⟨by simp, ⟨trivial, by simp, ⟨"cpath:/a:b", rfl⟩, by simp, trivial⟩, trivial⟩
  have hdepth : sampleMap.payload.depth ≤ Json.maxDepth := by decide
  have hsettled : sampleMap.Every Scalar.IsSettled := by
    simp only [sampleMap, Every, EveryEntry, Scalar.IsSettled, ScalarList.empty]
    exact ⟨by simp, ⟨by decide, by simp, trivial, trivial, trivial⟩, trivial⟩
  exact ⟨hdistinct, hregular, hdepth, hsettled,
    (decode_encode_eq_self_iff sampleMap hdistinct hregular hdepth).2.2 hsettled⟩

/-- A leap second after the twenty-third second of a minute. -/
def earlyLeap : Value :=
  .scalar (.date ⟨⟨2015, 6, 30, by decide⟩, ⟨20, 19, 23, 1000000000, by decide⟩⟩)

/-- It has the text of the twenty-fourth second, and is read as that. -/
theorem decode_encode_earlyLeap :
    earlyLeap.Distinct ∧ earlyLeap.Every Scalar.Regular ∧
      earlyLeap.payload.depth ≤ Json.maxDepth ∧ earlyLeap.encode = "2015-06-30T20:19:24" ∧
      ∃ w, decode earlyLeap.encode earlyLeap.kind = .ok w ∧ w.same earlyLeap = false := by
  have hdistinct : earlyLeap.Distinct := by simp [earlyLeap, Distinct]
  have hregular : earlyLeap.Every Scalar.Regular := by simp [earlyLeap, Every, Scalar.Regular]
  have hdepth : earlyLeap.payload.depth ≤ Json.maxDepth := by decide
  exact ⟨hdistinct, hregular, hdepth, rfl, earlyLeap.settled,
    decode_encode hdistinct hregular hdepth, by decide⟩

end Value
end SignalTree
