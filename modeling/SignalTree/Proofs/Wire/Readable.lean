import SignalTree.Proofs.Wire.Reading
import SignalTree.Proofs.Wire.RoundTrip
import SignalTree.Proofs.Xml.Legal

/-!
# Readable — which signals are read

Not every signal that can be written can be read.  Three things stand in the way: a text with a
character that no document may hold, a reference that is not one word, and a map to choose that is
not read from its own notation.  Nothing else does, apart from numbers of items beyond those of a
machine word: texts may change on the way, but they are read.

* `Wire.Document.Legible`: the signals that are read;
* `Wire.succeeds_readEntry_iff`: the induction over entries, with their texts as they arrive;
* `Wire.succeeds_readDocument_iff`: a document is read if and only if the signal is legible;
* `Wire.names_of_readDocument`: what is read has the name of the signal and the receiver.
-/

namespace SignalTree

/-! ## What can be read -/

/-- A reference has to be one word.  Any other scalar is read from its text. -/
def Scalar.Readable : Scalar → Prop
  | .path u => Succeeds (Uri.parse u.text)
  | _ => True

namespace Value

mutual

/-- The items of lists are counted by a machine word. -/
def Readable : Value → Prop
  | .scalar s => s.Readable
  | .list l => l.items.length < UInt64.size ∧ ∀ s ∈ l.items, s.Readable
  | .map entries => ReadableEntries entries

/-- `Readable` for the values of a map. -/
def ReadableEntries : List (String × Value) → Prop
  | [] => True
  | (_, v) :: rest => v.Readable ∧ ReadableEntries rest

end

/-- A value to choose from is read from one text.  For a map this is a notation of its own, which is
not read at every depth. -/
def Choosable : Value → Prop
  | .scalar s => s.Readable
  | .list l => ∀ s ∈ l.items, s.Readable
  | .map entries => Succeeds (decode (Value.map entries).encode .map)

end Value

/-- The values to choose from can be read. -/
structure Meta.Readable (info : Meta) : Prop where
  count : info.restricted.length < UInt64.size
  choices : ∀ v ∈ info.restricted, v.Choosable

mutual

/-- A value and what is known about it, or a frame. -/
def Entry.Readable : Entry → Prop
  | .value v info => v.Readable ∧ info.Readable
  | .frame f => f.Readable

def Frame.Readable : Frame → Prop
  | ⟨_, _, entries⟩ => Entry.AllReadable entries

/-- `Readable` for the entries of a frame. -/
def Entry.AllReadable : List (String × Entry) → Prop
  | [] => True
  | (_, e) :: rest => e.Readable ∧ Entry.AllReadable rest

end

mutual

/-- The values to choose from have the kind of the value. -/
def Entry.Uniform : Entry → Prop
  | .value v info => ∀ w ∈ info.restricted, w.kind = v.kind
  | .frame f => f.Uniform

def Frame.Uniform : Frame → Prop
  | ⟨_, _, entries⟩ => Entry.AllUniform entries

/-- `Uniform` for the entries of a frame. -/
def Entry.AllUniform : List (String × Entry) → Prop
  | [] => True
  | (_, e) :: rest => e.Uniform ∧ Entry.AllUniform rest

end

/-- The texts of the signal may stand in a document, and its values can be read. -/
structure Wire.Document.Legible (d : Wire.Document) : Prop where
  texts : ∀ s ∈ (Wire.documentMarkup d).texts, Xml.IsLegal s
  frame : d.frame.Readable

/-! ## Texts as they arrive -/

/-- The text that the reader finds in the element that is written for a text. -/
def Wire.arrived (text : String) : String := Text.trimmed (Xml.contentText text)

open Wire (arrived)

theorem Wire.arrived_of_plain {s : String} (hreturn : '\r' ∉ s.toList)
    (htrim : Text.trim s.toList = s.toList) : arrived s = s := by
  rw [arrived, Xml.contentText_of_no_return hreturn, Text.trimmed, htrim, String.ofList_toList]

namespace Scalar

theorem succeeds_decode_path (text : String) :
    Succeeds (decode text .path) ↔ Text.isWord text.toList = true := by
  have hdecode : decode text .path
      = (Uri.parse (String.ofList (Text.trim text.toList))).map .path := rfl
  rw [hdecode, succeeds_map_iff, Succeeds, Uri.exists_parse_iff, String.toList_ofList,
    Text.isWord_trim]

/-- A scalar is read from its text. -/
theorem succeeds_decode_iff (s : Scalar) : Succeeds (decode s.encode s.kind) ↔ s.Readable := by
  by_cases hregular : s.Regular
  · refine iff_of_true ⟨s.settled, decode_encode hregular⟩ ?_
    cases s with
    | path u => exact ⟨u, Uri.IsParsed.parse_text hregular⟩
    | _ => trivial
  · cases s with
    | path u =>
      exact (succeeds_decode_path u.text).trans (Uri.exists_parse_iff u.text).symm
    | real x =>
      -- the one real number that is not the same as itself is read all the same
      have hnan : x = .nan := by simpa [Regular] using hregular
      subst hnan
      exact iff_of_true ⟨.real .nan, rfl⟩ trivial
    | _ => exact absurd trivial hregular

/-- What may be lost of a text on the way makes no difference to this. -/
theorem succeeds_decode_arrived (s : Scalar) :
    Succeeds (decode (arrived s.encode) s.kind) ↔ s.Readable := by
  by_cases hstring : s.kind = .string
  · cases s with
    | string t => exact iff_of_true (succeeds_ok _) trivial
    | _ => cases hstring
  by_cases hpath : s.kind = .path
  · cases s with
    | path u =>
      -- other blanks may arrive around the word
      refine (succeeds_decode_path _).trans ?_
      rw [arrived, Text.trimmed, String.toList_ofList, Text.isWord_trim, encode,
        Xml.isWord_contentText]
      exact (Uri.exists_parse_iff u.text).symm
    | _ => cases hpath
  · have hgraphic : ∀ c ∈ s.encode.toList, Text.IsGraphic c := fun c hc =>
      graphic_of_mem_encode hstring hpath hc
    have harrived : arrived s.encode = s.encode := by
      refine Wire.arrived_of_plain (fun hc => ?_) (Text.trim_of_graphic hgraphic)
      exact absurd (hgraphic _ hc) (by decide)
    rw [harrived]
    exact s.succeeds_decode_iff

end Scalar

namespace Value

theorem succeeds_decodeItems_iff {kind : ScalarKind} {items : List Scalar} (i : Nat)
    (huniform : ∀ s ∈ items, s.kind = kind) :
    Succeeds (decodeItems kind i (items.map fun s => Json.text s.encode)) ↔
      ∀ s ∈ items, s.Readable := by
  induction items generalizing i with
  | nil => exact iff_of_true (succeeds_ok _) (by simp)
  | cons s rest ih =>
    rcases List.forall_mem_cons.1 huniform with ⟨hs, hrest⟩
    rw [List.map_cons, decodeItems, List.forall_mem_cons, ← ih (i + 1) hrest,
      ← s.succeeds_decode_iff, hs]
    cases Scalar.decode s.encode kind with
    | error e => exact iff_of_false (not_succeeds_error _) fun h => not_succeeds_error e h.1
    | ok t => exact succeeds_map_iff.trans (and_iff_right (succeeds_ok t)).symm

/-- A list to choose from is read if its items are. -/
theorem succeeds_decode_list (l : ScalarList) :
    Succeeds (decode (list l).encode (.list l.kind)) ↔ ∀ s ∈ l.items, s.Readable := by
  have hjson : readJson (list l).encode (.list l.kind) = .ok (list l).payload :=
    readJson_render (.list l.kind) (by simp [Distinct]) (depth_list l)
  have hread : decode (list l).encode (.list l.kind) = (do
      let values ← decodeItems l.kind 0 (l.items.map fun s => Json.text s.encode)
      (ScalarList.ofValues l.kind values).map .list) := by
    rw [decode, hjson]
    rfl
  rw [hread, ← succeeds_decodeItems_iff 0 l.uniform]
  refine succeeds_bind_of_forall fun values hvalues => ?_
  exact succeeds_map_iff.2 (succeeds_ofValues ((gives_decodeItems l.kind 0 _).of_eq_ok hvalues))

/-- A value to choose from is read from its text as it arrives. -/
theorem succeeds_decode_arrived (v : Value) :
    Succeeds (decode (arrived v.encode) v.kind) ↔ v.Choosable := by
  have hlarge : ∀ v : Value, (∀ s, v ≠ .scalar s) → arrived v.encode = v.encode := fun v hv =>
    Wire.arrived_of_plain (plain_encode hv).1 (plain_encode hv).2
  cases v with
  | scalar s => exact succeeds_map_iff.trans s.succeeds_decode_arrived
  | list l =>
    rw [hlarge _ (by simp)]
    exact succeeds_decode_list l
  | map entries =>
    rw [hlarge _ (by simp)]
    exact Iff.rfl

end Value

/-- Without values to choose from, there is nothing to read. -/
theorem Meta.readable_of_nil {info : Meta} (h : info.restricted = []) : info.Readable := by
  refine ⟨?_, ?_⟩
  · rw [h]
    decide
  · simp [h]

namespace Wire

open Xml (Node Markup arrivedAttributes attributeText)

/-! ## Items -/

theorem textOf_arrived (depth : Nat) (name : String) (attributes : List (String × String))
    (text : String) :
    textOf ((Markup.leaf name attributes text).arrived.node depth) = arrived text := by
  by_cases hempty : Xml.contentText text = ""
  · simp [textOf, Markup.arrived, Markup.node, hempty, Node.leadingText, Node.children, arrived]
  · simp [textOf, Markup.arrived, Markup.node, hempty, Node.leadingText, Node.children, arrived]

theorem succeeds_readItems_iff (decode : String → Except Error Value) (i : Nat)
    (texts : List String) :
    Succeeds (readItems decode i texts) ↔ ∀ text ∈ texts, Succeeds (decode text) := by
  induction texts generalizing i with
  | nil => exact iff_of_true (succeeds_ok _) (by simp)
  | cons text rest ih =>
    rw [readItems, List.forall_mem_cons, ← ih (i + 1)]
    cases hdecode : decode text with
    | error e =>
      exact iff_of_false (not_succeeds_error _) fun h => not_succeeds_error e h.1
    | ok v => exact succeeds_map_iff.trans (and_iff_right (succeeds_ok v)).symm

theorem length_readItems {decode : String → Except Error Value} {i : Nat} {texts : List String}
    {items : List Value} (h : readItems decode i texts = .ok items) :
    items.length = texts.length := by
  induction texts generalizing i items with
  | nil =>
    cases h
    rfl
  | cons text rest ih =>
    rw [readItems] at h
    cases hdecode : decode text with
    | error e => simp [hdecode] at h
    | ok v =>
      rw [hdecode] at h
      rcases map_eq_ok_iff.1 h with ⟨others, hothers, rfl⟩
      rw [List.length_cons, List.length_cons, ih hothers]

/-- The number of items is read if it is one of a machine word. -/
theorem succeeds_checkSize_iff (name : String) (items : List Value) :
    Succeeds (checkSize name items (some (String.ofList (Numeral.digits items.length)))) ↔
      items.length < UInt64.size := by
  constructor
  · rintro ⟨_, h⟩
    have htrim : Text.trim (Numeral.digits items.length) = Numeral.digits items.length :=
      Text.trim_of_graphic fun c hc =>
        Text.isGraphic_of_isDigit (Numeral.isDigit_of_mem_digits hc)
    cases hread : Numeral.readUnsigned (Numeral.digits items.length) with
    | ok n => exact Numeral.lt_size_of_readUnsigned hread
    | error fault => simp [checkSize, htrim, hread] at h
  · exact fun hcount => ⟨(), checkSize_digits name hcount⟩

/-- The items of an element are read if each of them is. -/
theorem succeeds_itemsOf_iff {α : Type} {n : Node} (name : String)
    (decode : String → Except Error Value) {text : α → String} {items : List α} {depth : Nat}
    (hitems : n.children.filter (Node.isNamed itemTag)
      = items.map fun a => (Markup.leaf itemTag [] (text a)).arrived.node depth)
    (hsize : n.attribute? sizeName = some (String.ofList (Numeral.digits items.length))) :
    Succeeds (itemsOf n name decode) ↔
      (∀ a ∈ items, Succeeds (decode (arrived (text a)))) ∧ items.length < UInt64.size := by
  have htexts : (n.children.filter (Node.isNamed itemTag)).map textOf
      = items.map fun a => arrived (text a) := by
    rw [hitems, List.map_map]
    exact List.map_congr_left fun a _ => textOf_arrived depth itemTag [] (text a)
  rw [itemsOf, htexts, hsize]
  refine (succeeds_bind_iff ?_).trans (and_congr_left' ?_)
  · -- as many items are read as there are texts
    intro values hvalues
    have hlength : values.length = items.length := by
      rw [length_readItems hvalues, List.length_map]
    rw [← hlength]
    refine (succeeds_bind_of_forall fun _ _ => succeeds_ok _).trans ?_
    exact succeeds_checkSize_iff name values
  · rw [succeeds_readItems_iff, List.forall_mem_map]

/-- What is read as items of one kind makes up a list of this kind. -/
theorem succeeds_ofValues_itemsOf {n : Node} {name : String} {kind : ScalarKind}
    {items : List Value}
    (h : itemsOf n name (fun text => (Scalar.decode text kind).map .scalar) = .ok items) :
    Succeeds (ScalarList.ofValues kind items) :=
  Value.succeeds_ofValues ((gives_itemsOf (gives_decode_scalar kind) n name).of_eq_ok h)

/-! ## What is known about a value -/

theorem lookup_arrivedAttributes (attributes : List (String × String)) (name : String) :
    (arrivedAttributes attributes).lookup name = (attributes.lookup name).map attributeText :=
  Keyed.lookup_map attributeText attributes name

/-- The tier of an element arrives as it is. -/
theorem readTier_arrived {tag key : String} (info : Meta) (first : List (String × String))
    (names : List String) (children : List Node) (hfirst : first.map (·.1) = names)
    (hother : tierName ∉ names) :
    readTier (.element tag (arrivedAttributes (first ++ metaAttributes key info)) children)
      = .ok info.tier := by
  have hmeta : HasMeta (.element tag (metaAttributes key info) []) key info := fun _ _ => rfl
  have hnone : first.lookup tierName = none := by
    apply Keyed.lookup_eq_none_iff_notMem_keys.2
    rw [Keyed.keys, hfirst]
    exact hother
  have htier : (metaAttributes key info).lookup tierName = info.tier.map Tier.name := by
    rw [← hmeta tierName (by simp), hmeta.attribute_eq (by simp)]
    simp [descriptionName, prettyName, tierName]
  have hattribute : (Node.element tag (arrivedAttributes (first ++ metaAttributes key info))
      children).attribute? tierName = info.tier.map Tier.name := by
    rw [Node.attribute?, lookup_arrivedAttributes, List.lookup_append, hnone, Option.none_or, htier]
    cases info.tier with
    | none => rfl
    | some t =>
      rw [Option.map_some, Option.map_some,
        Xml.attributeText_of_isAttribute (isAttribute_tier t)]
  rw [readTier, hattribute]
  cases info.tier with
  | none => rfl
  | some t => simp [Tier.ofName?_name]

/-- The allowed values are read if each of them is read from its text. -/
theorem succeeds_readRestricted_iff {n : Node} {kind : Kind} {info : Meta} {depth : Nat}
    (hchild : n.child? restrictedTag
      = (((restrictedMarkup kind info.restricted).map Markup.arrived).map
        (Markup.node depth)).head?)
    (hkind : ∀ v ∈ info.restricted, v.kind = kind) :
    Succeeds (readRestricted n) ↔ info.Readable := by
  rcases info with ⟨description, pretty, tier, values⟩
  by_cases hempty : values = []
  · subst hempty
    have hnone : n.child? restrictedTag = none := hchild
    refine iff_of_true ?_ (Meta.readable_of_nil rfl)
    rw [readRestricted, hnone]
    exact succeeds_ok []
  · let attributes := [(typeName, kind.name), sizeAttribute values.length]
    let leaves := values.map fun v => Markup.leaf itemTag [] v.encode
    have hleaves : ∀ m ∈ leaves, m.name = itemTag := List.forall_mem_map.2 fun _ _ => rfl
    have harrived : arrivedAttributes attributes = attributes := by
      refine Xml.arrivedAttributes_of_isAttribute fun a ha => ?_
      rcases List.mem_pair.1 ha with rfl | rfl
      · exact isAttribute_kind kind
      · exact isAttribute_digits _
    let r : Node := .element restrictedTag attributes
      (Markup.content depth (leaves.map Markup.arrived))
    have hsome : n.child? restrictedTag = some r := by
      have hmarkup : restrictedMarkup kind values = [.block restrictedTag attributes leaves] := by
        simp [restrictedMarkup, hempty, attributes, leaves]
      rw [hchild, hmarkup, List.map_singleton, List.map_singleton, List.head?_cons, Markup.arrived,
        harrived, Markup.arrivedAll_eq_map, Markup.node]
    have hname : ∀ m ∈ leaves.map Markup.arrived, m.name = itemTag :=
      List.forall_mem_map.2 fun m hm => (Markup.name_arrived m).trans (hleaves m hm)
    have hitems : r.children.filter (Node.isNamed itemTag)
        = values.map fun v => (Markup.leaf itemTag [] v.encode).arrived.node (depth + 1) := by
      refine (filter_content_of_all hname depth).trans ?_
      rw [List.map_map, List.map_map]
      rfl
    have hread : Succeeds (readRestricted n)
        ↔ Succeeds (itemsOf r kind.name fun text => Value.decode text kind) := by
      rw [readRestricted_of_child hsome rfl]
      exact succeeds_mapError_iff
    rw [hread, succeeds_itemsOf_iff kind.name _ hitems rfl]
    have hchoices : (∀ v ∈ values, Succeeds (Value.decode (arrived v.encode) kind))
        ↔ ∀ v ∈ values, v.Choosable := by
      refine forall₂_congr fun v hv => ?_
      rw [← hkind v hv]
      exact v.succeeds_decode_arrived
    rw [hchoices]
    exact ⟨fun h => ⟨h.2, h.1⟩, fun h => ⟨h.choices, h.count⟩⟩

/-- What is known about a value is read if the allowed values are. -/
theorem succeeds_readMeta_iff {n : Node} {tier : Option Tier} (htier : readTier n = .ok tier) :
    Succeeds (readMeta n) ↔ Succeeds (readRestricted n) := by
  rw [readMeta, htier]
  exact succeeds_bind_of_forall fun _ _ => succeeds_ok _

/-! ## Elements -/

/-- The elements with values stand before the one for allowed values, also when they arrive. -/
theorem child?_arrived {tag : String} {attributes : List (String × String)}
    {children : List Node} {ms : List Markup} {kind : Kind} {values : List Value} {depth : Nat}
    (hchildren : ∀ p : Node → Bool, (∀ s, p (.text s) = false) → children.filter p
      = (Markup.arrivedAll (ms ++ restrictedMarkup kind values) |>.map
        (Markup.node depth)).filter p)
    (hms : ∀ m ∈ ms, m.name ≠ restrictedTag) :
    (Node.element tag attributes children).child? restrictedTag
      = (((restrictedMarkup kind values).map Markup.arrived).map (Markup.node depth)).head? := by
  rw [Markup.arrivedAll_eq_map, List.map_append] at hchildren
  refine child?_back hchildren ?_ ?_
  · intro m hm
    rcases List.mem_map.1 hm with ⟨m', hm', rfl⟩
    rw [Markup.name_arrived]
    exact hms m' hm'
  · intro m hm
    rcases List.mem_map.1 hm with ⟨m', hm', rfl⟩
    rw [Markup.name_arrived]
    exact name_restricted hm'

/-- An element becomes a frame or a map.  Both are read if the allowed values are. -/
theorem succeeds_nestedEntry_iff {n : Node} {tier : Option Tier} (htier : readTier n = .ok tier)
    (f : Frame) : Succeeds (nestedEntry n f) ↔ Succeeds (readRestricted n) := by
  by_cases hframe : (n.attribute? prettyName).isNone && (n.child? restrictedTag).isNone
  · have hnone : n.child? restrictedTag = none := by
      simpa using (Bool.and_eq_true_iff.1 hframe).2
    rw [nestedEntry, if_pos hframe, readRestricted, hnone]
    exact iff_of_true (succeeds_ok _) (succeeds_ok _)
  · rw [nestedEntry, if_neg hframe]
    exact succeeds_map_iff.trans (succeeds_readMeta_iff htier)

/-- An element for a map or a frame is read if its entries are. -/
theorem succeeds_readEntry_mapElement {attributes : List (String × String)} {children : List Node}
    {key : String} {tier : Option Tier}
    (htier : readTier (.element mapTag ((keyName, key) :: attributes) children) = .ok tier) :
    Succeeds (readEntry (.element mapTag ((keyName, key) :: attributes) children)) ↔
      Succeeds (readEntries children) ∧
        Succeeds (readRestricted (.element mapTag ((keyName, key) :: attributes) children)) := by
  refine (succeeds_iff_of_keyed (readEntry_mapElement htier)).trans ?_
  exact succeeds_bind_iff fun entries _ => succeeds_nestedEntry_iff htier _

/-- Elements are read if each of them is. -/
theorem succeeds_readEntries_cons {n : Node} {rest : List Node} :
    Succeeds (readEntries (n :: rest)) ↔ Succeeds (readEntry n) ∧ Succeeds (readEntries rest) := by
  rw [readEntries]
  exact succeeds_bind_iff fun _ _ => succeeds_bind_of_forall fun _ _ => succeeds_ok _

/-! ## Values -/

theorem succeeds_readEntry_scalar (key : String) (s : Scalar) {info : Meta}
    (hkind : ∀ v ∈ info.restricted, v.kind = .scalar s.kind) (depth : Nat) :
    Succeeds (readEntry ((entryMarkup key (.value (.scalar s) info)).arrived.node depth)) ↔
      s.Readable ∧ info.Readable := by
  let holder : Markup := .leaf s.kind.name [] s.encode
  let restricted := restrictedMarkup (.scalar s.kind) info.restricted
  let children := Markup.content depth (Markup.arrivedAll (holder :: restricted))
  let n : Node := .element valueTag
    (arrivedAttributes ([(keyName, key)] ++ metaAttributes key info)) children
  have hchildren : ∀ p : Node → Bool, (∀ s, p (.text s) = false) → children.filter p
      = ((Markup.arrivedAll ([holder] ++ restricted)).map (Markup.node (depth + 1))).filter p :=
    fun p hp => Markup.filter_content hp depth _
  have hname : holder.name ≠ restrictedTag := by
    change s.kind.name ≠ restrictedTag
    cases s.kind <;> decide
  have hchild : n.child? restrictedTag
      = ((restricted.map Markup.arrived).map (Markup.node (depth + 1))).head? :=
    child?_arrived hchildren (by simpa using hname)
  have htext : textOf (holder.arrived.node (depth + 1)) = arrived s.encode :=
    textOf_arrived (depth + 1) s.kind.name [] s.encode
  have htier : readTier n = .ok info.tier :=
    readTier_arrived info [(keyName, key)] [keyName] children rfl (by decide)
  have hread : readScalar n = (do
      let s ← Scalar.decode (arrived s.encode) s.kind
      let info ← readMeta n
      return .value (.scalar s) info) := by
    rw [readScalar_of_holder hchildren rfl, htext]
  refine (succeeds_iff_of_keyed readEntry_valueElement).trans ?_
  change Succeeds (readScalar n) ↔ _
  rw [hread, ← s.succeeds_decode_arrived, ← succeeds_readRestricted_iff hchild hkind,
    ← succeeds_readMeta_iff htier]
  exact succeeds_bind_iff fun _ _ => succeeds_bind_of_forall fun _ _ => succeeds_ok _

theorem succeeds_readEntry_list (key : String) (l : ScalarList) {info : Meta}
    (hkind : ∀ v ∈ info.restricted, v.kind = .list l.kind) (depth : Nat) :
    Succeeds (readEntry ((entryMarkup key (.value (.list l) info)).arrived.node depth)) ↔
      (l.items.length < UInt64.size ∧ ∀ s ∈ l.items, s.Readable) ∧ info.Readable := by
  let leaves : List Markup := l.items.map fun s => .leaf itemTag [] s.encode
  let restricted := restrictedMarkup (.list l.kind) info.restricted
  let children := Markup.content depth (Markup.arrivedAll (leaves ++ restricted))
  let first := [(keyName, key), (typeName, l.kind.name), sizeAttribute l.items.length]
  let n : Node := .element arrayTag (arrivedAttributes (first ++ metaAttributes key info)) children
  have hchildren : ∀ p : Node → Bool, (∀ s, p (.text s) = false) → children.filter p
      = ((Markup.arrivedAll (leaves ++ restricted)).map (Markup.node (depth + 1))).filter p :=
    fun p hp => Markup.filter_content hp depth _
  have hname : ∀ m ∈ leaves, m.name = itemTag := by
    intro m hm
    rcases List.mem_map.1 hm with ⟨s, -, rfl⟩
    rfl
  have hchild : n.child? restrictedTag
      = ((restricted.map Markup.arrived).map (Markup.node (depth + 1))).head? := by
    refine child?_arrived hchildren fun m hm => ?_
    rw [hname m hm]
    decide
  have hitems : n.children.filter (Node.isNamed itemTag)
      = l.items.map fun s => (Markup.leaf itemTag [] s.encode).arrived.node (depth + 1) := by
    have hfront : ∀ m ∈ leaves.map Markup.arrived, m.name = itemTag :=
      List.forall_mem_map.2 fun m hm => (Markup.name_arrived m).trans (hname m hm)
    have hback : ∀ m ∈ restricted.map Markup.arrived, m.name ≠ itemTag := by
      refine List.forall_mem_map.2 fun m hm => ?_
      rw [Markup.name_arrived, name_restricted hm]
      decide
    rw [Markup.arrivedAll_eq_map, List.map_append] at hchildren
    refine (filter_front hchildren hfront hback).trans ?_
    rw [List.map_map, List.map_map]
    rfl
  -- the name of the kind and the number of items arrive as they are
  have htype : required n typeName = .ok l.kind.name :=
    congrArg Except.ok (Xml.attributeText_of_isAttribute (isAttribute_kind (.scalar l.kind)))
  have hsize : n.attribute? sizeName = some (String.ofList (Numeral.digits l.items.length)) :=
    congrArg some (Xml.attributeText_of_isAttribute (isAttribute_digits l.items.length))
  have htier : readTier n = .ok info.tier :=
    readTier_arrived info first [keyName, typeName, sizeName] children rfl (by decide)
  let decode := fun text => (Scalar.decode text l.kind).map Value.scalar
  have hread : readArray n = (do
      let items ← itemsOf n l.kind.name decode
      let l ← ScalarList.ofValues l.kind items
      let info ← readMeta n
      return .value (.list l) info) := readArray_of_kind htype
  have hdecode : (∀ s ∈ l.items, Succeeds (decode (arrived s.encode)))
      ↔ ∀ s ∈ l.items, s.Readable := by
    refine forall₂_congr fun s hs => succeeds_map_iff.trans ?_
    rw [← l.uniform s hs]
    exact s.succeeds_decode_arrived
  refine (succeeds_iff_of_keyed readEntry_arrayElement).trans ?_
  change Succeeds (readArray n) ↔ _
  rw [hread, and_comm (a := l.items.length < UInt64.size), ← hdecode,
    ← succeeds_itemsOf_iff l.kind.name decode hitems hsize,
    ← succeeds_readRestricted_iff hchild hkind, ← succeeds_readMeta_iff htier]
  refine succeeds_bind_iff fun items hitems => ?_
  refine (succeeds_bind_iff (p := Succeeds (readMeta n)) fun _ _ => ?_).trans
    (and_iff_right (succeeds_ofValues_itemsOf hitems))
  exact succeeds_bind_of_forall fun _ _ => succeeds_ok _

theorem arrived_mapMarkup (attributes : List (String × String)) (ms : List Markup) :
    (mapMarkup attributes ms).arrived
      = mapMarkup (arrivedAttributes attributes) (Markup.arrivedAll ms) := by
  cases ms <;> rfl

/-- An element for a map or a frame is read if its entries and the allowed values are. -/
theorem succeeds_readEntry_map (key : String) {ms : List Markup} {info : Meta} {p : Prop}
    (hkind : ∀ v ∈ info.restricted, v.kind = .map) (hms : ∀ m ∈ ms, m.name ≠ restrictedTag)
    (depth : Nat)
    (hread : Succeeds (readEntries ((ms.map Markup.arrived).map (Markup.node (depth + 1)))) ↔ p) :
    Succeeds (readEntry ((mapMarkup ((keyName, key) :: metaAttributes key info)
        (ms ++ restrictedMarkup .map info.restricted)).arrived.node depth)) ↔
      p ∧ info.Readable := by
  let restricted := restrictedMarkup .map info.restricted
  rcases node_mapMarkup depth (arrivedAttributes ((keyName, key) :: metaAttributes key info))
    (Markup.arrivedAll (ms ++ restricted)) with ⟨children, hnode, hentries, hchildren⟩
  let n : Node := .element mapTag
    (arrivedAttributes ([(keyName, key)] ++ metaAttributes key info)) children
  have hchild : n.child? restrictedTag
      = ((restricted.map Markup.arrived).map (Markup.node (depth + 1))).head? :=
    child?_arrived hchildren hms
  have htier : readTier n = .ok info.tier :=
    readTier_arrived info [(keyName, key)] [keyName] children rfl (by decide)
  rw [arrived_mapMarkup, hnode]
  refine (succeeds_readEntry_mapElement htier).trans ?_
  -- the allowed values at the end are not entries
  have hback : ∀ m ∈ restricted.map Markup.arrived, m.name = restrictedTag :=
    List.forall_mem_map.2 fun m hm => (Markup.name_arrived m).trans (name_restricted hm)
  rw [hentries, Markup.arrivedAll_eq_map, List.map_append, List.map_append,
    readEntries_restricted _ hback, hread, ← succeeds_readRestricted_iff hchild hkind]
  rfl

mutual

/-- A value is read from its element if it can be, and the values to choose from. -/
theorem succeeds_readEntry_value (key : String) (v : Value) {info : Meta}
    (hkind : ∀ w ∈ info.restricted, w.kind = v.kind) (depth : Nat) :
    Succeeds (readEntry ((entryMarkup key (.value v info)).arrived.node depth)) ↔
      v.Readable ∧ info.Readable := by
  match v with
  | .scalar s =>
    rw [Value.Readable]
    exact succeeds_readEntry_scalar key s hkind depth
  | .list l =>
    rw [Value.Readable]
    exact succeeds_readEntry_list key l hkind depth
  | .map entries =>
    rw [Value.Readable, entryMarkup, valueMarkup]
    exact succeeds_readEntry_map key hkind (name_mapEntries entries) depth
      (succeeds_readEntries_mapEntries entries (depth + 1))

theorem succeeds_readEntries_mapEntries (entries : List (String × Value)) (depth : Nat) :
    Succeeds (readEntries (((mapEntries entries).map Markup.arrived).map (Markup.node depth))) ↔
      Value.ReadableEntries entries := by
  match entries with
  | [] =>
    rw [mapEntries, List.map_nil, List.map_nil, readEntries, Value.ReadableEntries]
    exact iff_of_true (succeeds_ok _) trivial
  | (k, v) :: rest =>
    have hnone : ∀ w ∈ Meta.none.restricted, w.kind = v.kind := by simp [Meta.none]
    have hv := succeeds_readEntry_value k v hnone depth
    rw [and_iff_left (Meta.readable_of_nil rfl)] at hv
    rw [mapEntries_cons, List.map_cons, List.map_cons, Value.ReadableEntries]
    exact succeeds_readEntries_cons.trans
      (and_congr hv (succeeds_readEntries_mapEntries rest depth))

end

/-! ## Entries -/

mutual

/-- An entry is read from its element, at whatever depth it stands, if it can be read. -/
theorem succeeds_readEntry_iff (key : String) {e : Entry} (he : e.Uniform) (depth : Nat) :
    Succeeds (readEntry ((entryMarkup key e).arrived.node depth)) ↔ e.Readable := by
  match e with
  | .value v info =>
    rw [Entry.Uniform] at he
    rw [Entry.Readable]
    exact succeeds_readEntry_value key v he depth
  | .frame ⟨description, tier, entries⟩ =>
    rw [Entry.Uniform, Frame.Uniform] at he
    have hnone : ∀ w ∈ (⟨description, "", tier, []⟩ : Meta).restricted, w.kind = .map := by simp
    have hread := succeeds_readEntry_map key hnone
      (name_entryMarkups entries) depth (succeeds_readEntries_iff he (depth + 1))
    rw [and_iff_left (Meta.readable_of_nil rfl)] at hread
    rw [entryMarkup, frameAttributes_eq key, Entry.Readable, Frame.Readable]
    simpa [restrictedMarkup] using hread

theorem succeeds_readEntries_iff {entries : List (String × Entry)}
    (h : Entry.AllUniform entries) (depth : Nat) :
    Succeeds (readEntries (((entryMarkups entries).map Markup.arrived).map (Markup.node depth))) ↔
      Entry.AllReadable entries := by
  match entries with
  | [] =>
    rw [entryMarkups, List.map_nil, List.map_nil, readEntries, Entry.AllReadable]
    exact iff_of_true (succeeds_ok _) trivial
  | (k, e) :: rest =>
    rw [Entry.AllUniform] at h
    rw [entryMarkups, List.map_cons, List.map_cons, Entry.AllReadable]
    exact succeeds_readEntries_cons.trans
      (and_congr (succeeds_readEntry_iff k h.1 depth) (succeeds_readEntries_iff h.2 depth))

end

/-! ## Documents -/

theorem succeeds_readMap_iff {f : Frame} (hf : f.Uniform) (depth : Nat) :
    Succeeds (readMap ((frameMarkup f).arrived.node depth)) ↔ f.Readable := by
  rcases f with ⟨description, tier, entries⟩
  rw [Frame.Uniform] at hf
  rw [frameMarkup, frameAttributes_eq "", arrived_mapMarkup, Frame.Readable]
  rcases node_mapMarkup depth (arrivedAttributes (metaAttributes "" ⟨description, "", tier, []⟩))
    (Markup.arrivedAll (entryMarkups entries)) with ⟨children, hnode, hentries, -⟩
  let n : Node := .element mapTag
    (arrivedAttributes ([] ++ metaAttributes "" ⟨description, "", tier, []⟩)) children
  have htier : readTier n = .ok tier :=
    readTier_arrived ⟨description, "", tier, []⟩ [] [] children rfl (by simp)
  have hread : readMap n = (do
      let entries ← readEntries children
      return frameOf n tier entries) := by
    rw [readMap, htier]
    rfl
  rw [hnode]
  change Succeeds (readMap n) ↔ _
  rw [hread, ← succeeds_readEntries_iff hf (depth + 1), ← Markup.arrivedAll_eq_map, ← hentries]
  exact succeeds_bind_of_forall fun _ _ => succeeds_ok _

/-- The texts of a document that is read may stand in it. -/
theorem legal_of_readDocument {d d' : Document}
    (h : readDocument (String.ofList (writeDocument d)) = .ok d') :
    ∀ s ∈ (documentMarkup d).texts, Xml.IsLegal s := by
  rcases bind_eq_ok_iff.1 h with ⟨n, hroot, -⟩
  rw [readRoot, String.toList_ofList] at hroot
  refine (Xml.read_write_iff (shaped_document d)).1 ⟨n, ?_⟩
  change Xml.read (writeDocument d) = some n
  cases hread : Xml.read (writeDocument d) with
  | none => simp [hread] at hroot
  | some root =>
    rw [hread] at hroot
    rw [Except.ok.inj hroot]

/-- The document of a signal is read if and only if the signal is legible. -/
theorem succeeds_readDocument_iff {d : Document} (hd : d.frame.Uniform) :
    Succeeds (readDocument (String.ofList (writeDocument d))) ↔ d.Legible := by
  have hframe : (∀ s ∈ (documentMarkup d).texts, Xml.IsLegal s) →
      (Succeeds (readDocument (String.ofList (writeDocument d))) ↔ d.frame.Readable) := by
    intro hlegal
    rw [readDocument_arrived hlegal]
    exact succeeds_map_iff.trans (succeeds_readMap_iff hd 2)
  constructor
  · rintro ⟨d', h⟩
    have hlegal := legal_of_readDocument h
    exact ⟨hlegal, (hframe hlegal).1 ⟨d', h⟩⟩
  · exact fun h => (hframe h.texts).2 h.frame

/-- What is read carries the name of the signal and the receiver, if they stand on one line. -/
theorem names_of_readDocument {d d' : Document}
    (h : readDocument (String.ofList (writeDocument d)) = .ok d')
    (hline : ∀ s ∈ [d.target, d.receiver], ∀ c ∈ s.toList, c ≠ '\t' ∧ c ≠ '\n' ∧ c ≠ '\r') :
    d'.target = d.target ∧ d'.receiver = d.receiver := by
  have hlegal := legal_of_readDocument h
  have harrived : ∀ s ∈ [d.target, d.receiver], attributeText s = s := by
    intro s hs
    refine Xml.attributeText_of_isAttribute fun c hc => ⟨?_, hline s hs c hc⟩
    refine hlegal s ?_ c hc
    simp only [documentMarkup, Markup.texts, Markup.allTexts, List.map_cons, List.map_nil,
      List.mem_append]
    exact Or.inr (Or.inl (Or.inl hs))
  rw [readDocument_arrived hlegal] at h
  rcases map_eq_ok_iff.1 h with ⟨f, -, rfl⟩
  exact ⟨harrived _ (by simp), harrived _ (by simp)⟩

end Wire
end SignalTree
