import SignalTree.Proofs.Value.Location
import SignalTree.Proofs.Wire.Readable

/-!
# Location — where a text stands in a document that cannot be read

A map stands in a document as elements, and in its own notation as members of objects.  The same
texts stand in the same order and under the same keys, so what cannot be read has one location.

* `Unread.InElement`: a value whose texts are still to be read, as the element of an entry;
* `Unread.reports_readEntry`: the induction over elements;
* `Unread.reports_readFrame`: the texts of a document;
* `Unread.location_of_unreadable`: both formats report the same text at the same location.
-/

namespace SignalTree

open Wire Xml

namespace Unread

/-! ## Elements -/

/-- An element says of which tier the entry is, if anything, and does not restrict the value. -/
structure Regular (n : Node) : Prop where
  tier : Succeeds (readTier n)
  unrestricted : n.child? restrictedTag = none

/-- The size of a list, if there is one. -/
def Sized (n : Node) (count : Nat) : Prop :=
  ∀ size, n.attribute? sizeName = some size →
    ∃ m, Numeral.readUnsigned (Text.trim size.toList) = .ok m ∧ m.toNat = count

mutual

/-- A value stands in an element.  Blanks around a text do not count there. -/
def InElement : Unread → Node → Prop
  | .scalar kind text, n => n.isNamed valueTag = true ∧
    ∃ holder, holder? n = some holder ∧ ScalarKind.ofName? holder.name = some kind ∧
      textOf holder = Text.trimmed text
  | .list kind texts, n => n.isNamed arrayTag = true ∧
    (∃ name, n.attribute? typeName = some name ∧ ScalarKind.ofName? name = some kind) ∧
    (n.children.filter (Node.isNamed itemTag)).map textOf = texts.map Text.trimmed ∧
    Sized n texts.length
  | .map entries, n => n.isNamed mapTag = true ∧ InElements entries (n.children.filter isEntry)

/-- Each entry stands in an element with its key. -/
def InElements : List (String × Unread) → List Node → Prop
  | [], ns => ns = []
  | (key, v) :: rest, ns => ∃ n more, ns = n :: more ∧ n.attribute? keyName = some key ∧
    Regular n ∧ v.InElement n ∧ InElements rest more

end

/-- The entries of a frame stand in the element of a document. -/
structure InMap (entries : List (String × Unread)) (n : Node) : Prop where
  tier : Succeeds (readTier n)
  elements : InElements entries (n.children.filter isEntry)

/-! ## Parts of an element -/

theorem Regular.succeeds_readMeta {n : Node} (h : Regular n) : Succeeds (readMeta n) := by
  have hrestricted : readRestricted n = .ok [] := by rw [readRestricted, h.unrestricted]
  rcases h.tier with ⟨tier, htier⟩
  rw [readMeta, hrestricted, htier]
  exact succeeds_ok _

/-- The entries are those of the elements that are entries. -/
theorem readEntries_filter (ns : List Node) : readEntries ns = readEntries (ns.filter isEntry) := by
  induction ns with
  | nil => rfl
  | cons n rest ih =>
    by_cases hn : isEntry n = true
    · rw [List.filter_cons_of_pos hn, readEntries, readEntries, ih]
    · have hnone : readEntry n = .ok none := by
        cases n with
        | element name attributes children =>
          rw [isEntry_element] at hn
          rw [readEntry, if_neg (by simpa [or_assoc] using hn)]
        | text s => rw [readEntry]; simp
        | remark => rw [readEntry]; simp
      rw [List.filter_cons_of_neg hn, readEntries_cons_none hnone, ih]

theorem required_of_attribute {n : Node} {name value : String}
    (h : n.attribute? name = some value) :
    required n name = .ok value := by
  rw [required, h]

theorem reports_readItems (kind : ScalarKind) (i : Nat) (texts : List String) :
    Reports (itemLeaves kind i texts)
      (readItems (fun text => (Scalar.decode text kind).map .scalar) i
        (texts.map Text.trimmed)) := by
  induction texts generalizing i with
  | nil => exact succeeds_ok _
  | cons text rest ih =>
    let decode := fun text => (Scalar.decode text kind).map Value.scalar
    have hcons : readItems decode i ((text :: rest).map Text.trimmed) =
        ((Scalar.decode (Text.trimmed text) kind).mapError fun e => e.located (Error.index i)) >>=
          fun v => (readItems decode (i + 1) (rest.map Text.trimmed)).map (.scalar v :: ·) := by
      rw [List.map_cons, readItems]
      dsimp only [decode]
      cases Scalar.decode (Text.trimmed text) kind <;> rfl
    rw [hcons]
    exact (Reports.item i (Scalar.succeeds_decode_trimmed text kind)).bind fun _ _ =>
      (ih (i + 1)).map _

theorem Sized.succeeds_checkSize {n : Node} {items : List Value} (h : Sized n items.length)
    (name : String) : Succeeds (checkSize name items (n.attribute? sizeName)) := by
  cases hsize : n.attribute? sizeName with
  | none => exact succeeds_ok ()
  | some size =>
    rcases h size hsize with ⟨m, hm, hcount⟩
    rw [checkSize, hm]
    simp only [hcount, if_true]
    exact succeeds_ok ()

theorem reports_readScalar {n holder : Node} {kind : ScalarKind} {text : String} (hn : Regular n)
    (hholder : holder? n = some holder) (hkind : ScalarKind.ofName? holder.name = some kind)
    (htext : textOf holder = Text.trimmed text) :
    Reports [⟨[], none, kind, text⟩] (readScalar n) := by
  have hread : readScalar n = Scalar.decode (Text.trimmed text) kind >>= fun s =>
      readMeta n >>= fun info => .ok (.value (.scalar s) info) := by
    rw [holder?] at hholder
    simp only [readScalar, hholder, hkind, htext]
    rfl
  rw [hread]
  -- tier and choices are read after the text, so they cannot hide it
  refine (Reports.scalar (Scalar.succeeds_decode_trimmed text kind)).bind_succeeds fun s _ => ?_
  exact (succeeds_bind_of_forall fun _ _ => succeeds_ok _).2 hn.succeeds_readMeta

theorem reports_readArray {n : Node} {name : String} {kind : ScalarKind} {texts : List String}
    (hn : Regular n) (hname : n.attribute? typeName = some name)
    (hkind : ScalarKind.ofName? name = some kind)
    (htexts : (n.children.filter (Node.isNamed itemTag)).map textOf = texts.map Text.trimmed)
    (hsize : Sized n texts.length) : Reports (itemLeaves kind 0 texts) (readArray n) := by
  let decode := fun text => (Scalar.decode text kind).map Value.scalar
  have hread : readArray n = itemsOf n kind.name decode >>= fun items =>
      ScalarList.ofValues kind items >>= fun l =>
        readMeta n >>= fun info => .ok (.value (.list l) info) := by
    simp only [readArray, required_of_attribute hname, hkind, bind, Except.bind]
    rfl
  have hitems : Reports (itemLeaves kind 0 texts) (itemsOf n kind.name decode) := by
    rw [itemsOf, htexts]
    -- the items are counted when they have all been read
    refine (reports_readItems kind 0 texts).bind_succeeds fun items hitems => ?_
    have hcount : items.length = texts.length := by
      rw [length_readItems hitems, List.length_map]
    rw [← hcount] at hsize
    exact (succeeds_bind_of_forall fun _ _ => succeeds_ok _).2 (hsize.succeeds_checkSize kind.name)
  rw [hread]
  refine hitems.bind_succeeds fun items hitems => ?_
  have hvalues : Succeeds (ScalarList.ofValues kind items) := succeeds_ofValues_itemsOf hitems
  refine (succeeds_bind_of_forall fun l _ => ?_).2 hvalues
  exact (succeeds_bind_of_forall fun _ _ => succeeds_ok _).2 hn.succeeds_readMeta

/-! ## Entries -/

theorem exists_eq_element {n : Node} {tag : String} (h : n.isNamed tag = true) :
    ∃ attributes children, n = .element tag attributes children := by
  cases n with
  | element name attributes children =>
    obtain rfl := isNamed_element.1 h
    exact ⟨attributes, children, rfl⟩
  | text s => cases h
  | remark => cases h

theorem reports_keyed {leaves : List Leaf} {r : Except Error Entry} (h : Reports leaves r)
    (key : String) : Reports (leaves.map (Leaf.under key)) (keyed key r) :=
  (h.under key).map _

mutual

theorem reports_readEntry {v : Unread} {n : Node} {key : String}
    (hkey : n.attribute? keyName = some key) (hn : Regular n) (h : v.InElement n) :
    Reports (v.leaves.map (Leaf.under key)) (readEntry n) := by
  cases v with
  | scalar kind text =>
    rw [InElement] at h
    rcases h with ⟨hname, holder, hholder, hkind, htext⟩
    rcases exists_eq_element hname with ⟨attributes, children, rfl⟩
    rw [leaves, readEntry_of_value (required_of_attribute hkey)]
    exact reports_keyed (reports_readScalar hn hholder hkind htext) key
  | list kind texts =>
    rw [InElement] at h
    rcases h with ⟨hname, ⟨name, htype, hkind⟩, htexts, hsize⟩
    rcases exists_eq_element hname with ⟨attributes, children, rfl⟩
    rw [leaves, readEntry_of_array (required_of_attribute hkey)]
    exact reports_keyed (reports_readArray hn htype hkind htexts hsize) key
  | map entries =>
    rw [InElement] at h
    rcases h with ⟨hname, hentries⟩
    rcases exists_eq_element hname with ⟨attributes, children, rfl⟩
    rcases hn.tier with ⟨tier, htier⟩
    rw [leaves, readEntry_of_map (required_of_attribute hkey) htier]
    refine reports_keyed ?_ key
    rw [readEntries_filter]
    refine (reports_readEntries hentries).bind_succeeds fun _ _ => ?_
    rw [nestedEntry]
    split
    · exact succeeds_ok _
    · exact succeeds_map_iff.2 hn.succeeds_readMeta

theorem reports_readEntries {entries : List (String × Unread)} {ns : List Node}
    (h : InElements entries ns) : Reports (leavesOf entries) (readEntries ns) := by
  match entries with
  | [] =>
    rw [InElements] at h
    rw [h, leavesOf, readEntries]
    exact succeeds_ok _
  | (key, v) :: rest =>
    rw [InElements] at h
    rcases h with ⟨n, more, rfl, hkey, hn, hv, hrest⟩
    rw [leavesOf, readEntries]
    refine (reports_readEntry hkey hn hv).bind fun _ _ => ?_
    exact (reports_readEntries hrest).bind_succeeds fun _ _ => succeeds_ok _

end

/-! ## Documents -/

/-- A frame is read from a document up to the first text inside that cannot be read. -/
theorem reports_readFrame {text : String} {n : Node} {entries : List (String × Unread)}
    (hroot : readRoot text >>= mapOf = .ok (some n)) (h : InMap entries n) :
    Reports (leavesOf entries) (readFrame text) := by
  have hread : readFrame text = readMap n := by
    have hsplit : readFrame text = (readRoot text >>= mapOf) >>= readMap? := (bind_assoc ..).symm
    rw [hsplit, hroot]
    rfl
  rcases h.tier with ⟨tier, htier⟩
  rw [hread, readMap, htier, readEntries_filter]
  exact (reports_readEntries h.elements).bind_succeeds fun _ _ => succeeds_ok _

/-- What stands in both formats is reported in the same way.  Of the texts of a map, let one be the
first that cannot be read, and let no key on the way to it be empty or start with a bracket.  Then
reading the map from its own notation and reading the frame from a document both fail with the name
of the kind of this text, and with its location: the keys with dots between them, and the number of
the item if the text is one of a list. -/
theorem location_of_unreadable {entries : List (String × Unread)} {before after : List Leaf}
    {l : Leaf} (hleaves : leavesOf entries = before ++ l :: after)
    (hbefore : ∀ k ∈ before, k.reads = true) (hl : l.reads = false)
    (hkeys : ∀ key ∈ l.keys, IsKey key) :
    (∀ text members, Value.readJson text .map = .ok (.object members) →
      InMembers entries members → ∃ shown reason,
        Value.decode text .map = .error (.unreadable l.kind.name shown reason l.location)) ∧
    (∀ text n, readRoot text >>= mapOf = .ok (some n) → InMap entries n → ∃ shown reason,
        readFrame text = .error (.unreadable l.kind.name shown reason l.location)) := by
  rw [← Leaf.place_eq_location hkeys]
  constructor
  · intro text members hjson hmembers
    have hreports := reports_decode hjson hmembers
    rw [hleaves] at hreports
    exact hreports.of_append hbefore hl
  · intro text n hroot hmap
    have hreports := reports_readFrame hroot hmap
    rw [hleaves] at hreports
    exact hreports.of_append hbefore hl

/-- A list inside a map, with an item that is no number, and behind it another text that cannot be
read. -/
def twoFaults : List (String × Unread) :=
  [("a", .map [("b", .list .integer ["1", "x"])]), ("c", .scalar .bool "?")]

/-- The same in the notation of maps. -/
def twoFaultsMembers : List (String × Json) :=
  [("a", .object [("map", .object [("b", .object [("array[integer]",
      .array [.text "1", .text "x"])])])]),
    ("c", .object [("bool", .text "?")])]

/-- The same as a document. -/
def twoFaultsMarkup : Markup :=
  .block mapTag [] [
    .block mapTag [(keyName, "a")] [
      .block arrayTag [(keyName, "b"), (typeName, "integer")] [
        .leaf itemTag [] "1", .leaf itemTag [] "x"]],
    .block valueTag [(keyName, "c")] [.leaf "bool" [] "?"]]

theorem clean_twoFaultsMarkup : twoFaultsMarkup.Clean :=
  ⟨⟨by decide, by decide, by decide, by decide⟩,
    ⟨⟨by decide, by decide, by decide, by decide⟩,
      ⟨⟨by decide, by decide, by decide, by decide⟩,
        ⟨⟨by decide, by decide, by decide, by decide⟩, by decide⟩,
        ⟨⟨by decide, by decide, by decide, by decide⟩, by decide⟩, trivial⟩, trivial⟩,
    ⟨⟨by decide, by decide, by decide, by decide⟩,
      ⟨⟨by decide, by decide, by decide, by decide⟩, by decide⟩, trivial⟩, trivial⟩

theorem inMembers_twoFaults : InMembers twoFaults twoFaultsMembers := by
  simp only [twoFaults, InMembers, InJson]
  exact ⟨_, _, rfl, ⟨"map", _, rfl, rfl, _, _, rfl, ⟨"array[integer]", rfl, rfl⟩, rfl⟩,
    _, _, rfl, ⟨"bool", rfl, rfl⟩, rfl⟩

theorem inMap_twoFaults : InMap twoFaults (twoFaultsMarkup.node 0) := by
  have hregular : ∀ n : Node, n.attribute? tierName = none → n.child? restrictedTag = none →
      Regular n := by
    intro n htier hrestricted
    refine ⟨⟨none, ?_⟩, hrestricted⟩
    rw [readTier, htier]
  refine ⟨⟨none, rfl⟩, ?_⟩
  simp only [twoFaults, InElements, InElement]
  refine ⟨_, _, rfl, rfl, hregular _ rfl rfl, ⟨rfl, _, _, rfl, rfl, hregular _ rfl rfl, ?_, rfl⟩,
    _, _, rfl, rfl, hregular _ rfl rfl, ⟨rfl, _, rfl, rfl, rfl⟩, rfl⟩
  exact ⟨rfl, ⟨"integer", rfl, rfl⟩, rfl, fun size hsize => by cases hsize⟩

/-- The item is found in both formats. -/
theorem location_twoFaults :
    (∃ shown reason, Value.decode (Json.object twoFaultsMembers).render .map =
      .error (.unreadable "integer" shown reason "a.b[1]")) ∧
    ∃ shown reason, readFrame (String.ofList (twoFaultsMarkup.write 0)) =
      .error (.unreadable "integer" shown reason "a.b[1]") := by
  have hleaves : leavesOf twoFaults = [⟨["a", "b"], some 0, .integer, "1"⟩] ++
      ⟨["a", "b"], some 1, .integer, "x"⟩ :: [⟨["c"], none, .bool, "?"⟩] := rfl
  have hlocation : Leaf.location ⟨["a", "b"], some 1, .integer, "x"⟩ = "a.b[1]" := by decide
  have hboth := location_of_unreadable hleaves (by decide) (by decide) (by decide)
  have hjson : Value.readJson (Json.object twoFaultsMembers).render .map =
      .ok (.object twoFaultsMembers) := by
    have hplain : (Json.object twoFaultsMembers).Plain := by
      simp [twoFaultsMembers, Json.Plain, Json.PlainMembers, Json.PlainItems]
    rw [Value.readJson, Json.render, String.toList_ofList, Json.read_write hplain (by decide)]
    rfl
  have hroot : readRoot (String.ofList (twoFaultsMarkup.write 0)) >>= mapOf =
      .ok (some (twoFaultsMarkup.node 0)) := by
    rw [readRoot, String.toList_ofList, Xml.read_write_root clean_twoFaultsMarkup]
    rfl
  rw [hlocation] at hboth
  exact ⟨hboth.1 _ _ hjson inMembers_twoFaults, hboth.2 _ _ hroot inMap_twoFaults⟩

end Unread
end SignalTree
