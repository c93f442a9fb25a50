import SignalTree.Proofs.Frame
import SignalTree.Proofs.Wire.Clean
import SignalTree.Proofs.Wire.Entry

/-!
# RoundTrip — signals survive the wire

The document of a signal is read back as the signal.  Three things are not told apart on the wire:
a name to show that is the key itself is like none, a map of which neither a name to show nor
allowed values are known is like a frame with the same entries, and a leap second that is not at the
end of a minute is like the second that follows.  Only the last one changes a value.

* `Frame.settled`, `Frame.received`: what comes back of a frame;
* `Wire.readEntry_value`, `Wire.readEntry_entry`: the induction over values and over frames;
* `Frame.Alike`: the two frames say the same;
* `Frame.alike_received_iff`: they do if there are no other leap seconds;
* `Wire.readDocument_writeDocument`: the round trip of signals.
-/

namespace SignalTree

/-! ## What comes back -/

/-- What comes back of a value: a map that could be a frame comes back as one. -/
def Value.received (key : String) (info : Meta) : Value → Entry
  | .map entries =>
    if (info.received key).pretty = "" ∧ info.restricted.isEmpty then
      .frame ⟨info.description, info.tier, Entry.ofMapEntries entries⟩
    else .value (.map entries) (info.received key)
  | v => .value v (info.received key)

mutual

/-- What comes back of a frame. -/
def Frame.received : Frame → Frame
  | ⟨description, tier, entries⟩ => ⟨description, tier, Entry.allReceived entries⟩

/-- What comes back of an entry under a key. -/
def Entry.received (key : String) : Entry → Entry
  | .value v info => v.received key info
  | .frame f => .frame f.received

/-- What comes back of some entries. -/
def Entry.allReceived : List (String × Entry) → List (String × Entry)
  | [] => []
  | (k, e) :: rest => (k, e.received k) :: Entry.allReceived rest

end

mutual

/-- The frame with settled values. -/
def Frame.settled : Frame → Frame
  | ⟨description, tier, entries⟩ => ⟨description, tier, Entry.allSettled entries⟩

/-- The entry with settled values. -/
def Entry.settled : Entry → Entry
  | .value v info => .value v.settled info.settled
  | .frame f => .frame f.settled

/-- `settled` for some entries. -/
def Entry.allSettled : List (String × Entry) → List (String × Entry)
  | [] => []
  | (k, e) :: rest => (k, e.settled) :: Entry.allSettled rest

end

theorem Entry.allSettled_eq_map (entries : List (String × Entry)) :
    allSettled entries = entries.map fun p => (p.1, p.2.settled) := by
  induction entries with
  | nil => rw [allSettled, List.map_nil]
  | cons p rest ih => rw [allSettled, ih, List.map_cons]

theorem Entry.allReceived_eq_map (entries : List (String × Entry)) :
    allReceived entries = entries.map fun p => (p.1, p.2.received p.1) := by
  induction entries with
  | nil => rw [allReceived, List.map_nil]
  | cons p rest ih => rw [allReceived, ih, List.map_cons]

theorem Entry.distinct_received {entries : List (String × Entry)} (h : Keyed.Distinct entries) :
    Keyed.Distinct (allReceived (allSettled entries)) := by
  refine h.of_keys_eq ?_
  rw [allReceived_eq_map, Keyed.keys_map, allSettled_eq_map, Keyed.keys_map]

/-- Of a value of which nothing is known, the entry for it comes back. -/
theorem Value.received_none (key : String) (v : Value) :
    v.received key Meta.none = Entry.ofValue v := by
  have hnone : Meta.none.received key = Meta.none := by
    simp [Meta.received, Meta.none]
  cases v with
  | scalar s => simp [received, Entry.ofValue, hnone]
  | list l => simp [received, Entry.ofValue, hnone]
  | map entries =>
    have hpretty : (Meta.none.received key).pretty = "" := by
      rw [hnone]
      rfl
    rw [received, if_pos ⟨hpretty, rfl⟩, Entry.ofValue]
    rfl

namespace Wire

open Xml (Node Markup)

/-! ## Scalars and lists -/

theorem readEntry_scalar {key : String} {s : Scalar} {info : Meta} (hs : s.Sendable)
    (hinfo : info.Sendable (.scalar s.kind)) (depth : Nat) :
    readEntry ((entryMarkup key (.value (.scalar s) info)).node depth)
      = .ok (some (key, .value (.scalar s.settled) (info.settled.received key))) := by
  let holder : Markup := .leaf s.kind.name [] s.encode
  let children := Markup.content depth (holder :: restrictedMarkup (.scalar s.kind) info.restricted)
  let n : Node := .element valueTag ((keyName, key) :: metaAttributes key info) children
  have hchildren : ∀ p : Node → Bool, (∀ s, p (.text s) = false) → children.filter p
      = (([holder] ++ restrictedMarkup (.scalar s.kind) info.restricted).map
        (Markup.node (depth + 1))).filter p :=
    fun p hp => Markup.filter_content hp depth _
  have hname : holder.name ≠ restrictedTag := by
    change s.kind.name ≠ restrictedTag
    cases s.kind <;> decide
  have hchild : n.child? restrictedTag = ((restrictedMarkup (.scalar s.kind) info.restricted).map
      (Markup.node (depth + 1))).head? :=
    child?_restricted hchildren (by simpa using hname)
  have hdecode : Scalar.decode (textOf (holder.node (depth + 1))) s.kind = .ok s.settled := by
    rw [textOf_leaf _ _ _ hs.isContent]
    exact Scalar.decode_encode hs.regular
  -- the attributes, the holder and the allowed values make up the entry
  have hmeta : HasMeta n key info :=
    hasMeta_append [(keyName, key)] [keyName] rfl (by decide)
  have hknown := readMeta_markup hinfo hmeta hchild
  have hread : readScalar n = .ok (.value (.scalar s.settled) (info.settled.received key)) := by
    rw [readScalar_of_holder hchildren rfl, hdecode, hknown]
    rfl
  exact readEntry_valueElement.trans (congrArg (keyed key) hread)

theorem readEntry_list {key : String} {l : ScalarList} {info : Meta}
    (hcount : l.items.length < UInt64.size) (hitems : ∀ s ∈ l.items, s.Sendable)
    (hinfo : info.Sendable (.list l.kind)) (depth : Nat) :
    readEntry ((entryMarkup key (.value (.list l) info)).node depth)
      = .ok (some (key, .value (.list l.settled) (info.settled.received key))) := by
  let leaves : List Markup := l.items.map fun s => .leaf itemTag [] s.encode
  let children := Markup.content depth (leaves ++ restrictedMarkup (.list l.kind) info.restricted)
  let first := [(keyName, key), (typeName, l.kind.name), sizeAttribute l.items.length]
  let n : Node := .element arrayTag (first ++ metaAttributes key info) children
  have hchildren : ∀ p : Node → Bool, (∀ s, p (.text s) = false) → children.filter p
      = ((leaves ++ restrictedMarkup (.list l.kind) info.restricted).map
        (Markup.node (depth + 1))).filter p :=
    fun p hp => Markup.filter_content hp depth _
  have hname : ∀ m ∈ leaves, m.name = itemTag := by
    intro m hm
    rcases List.mem_map.1 hm with ⟨s, -, rfl⟩
    rfl
  have hother : ∀ m ∈ restrictedMarkup (.list l.kind) info.restricted, m.name ≠ itemTag := by
    intro m hm
    rw [name_restricted hm]
    decide
  have hchild : n.child? restrictedTag = ((restrictedMarkup (.list l.kind) info.restricted).map
      (Markup.node (depth + 1))).head? := by
    refine child?_restricted hchildren ?_
    intro m hm
    rw [hname m hm]
    decide
  have hleaves : n.children.filter (Node.isNamed itemTag)
      = (l.items.map Value.scalar).map fun v =>
        (Markup.leaf itemTag [] v.encode).node (depth + 1) := by
    refine (filter_front hchildren hname hother).trans ?_
    rw [List.map_map, List.map_map]
    rfl
  have hread : itemsOf n l.kind.name (fun text => (Scalar.decode text l.kind).map .scalar)
      = .ok ((l.items.map Value.scalar).map Value.settled) := by
    refine itemsOf_leaves l.kind.name hleaves ?_ (by simpa using hcount) ?_ ?_
    · rw [List.length_map]
      rfl
    · intro v hv
      rcases List.mem_map.1 hv with ⟨s, hs, rfl⟩
      exact (hitems s hs).isContent
    · intro v hv
      rcases List.mem_map.1 hv with ⟨s, hs, rfl⟩
      have hdecode := Scalar.decode_encode (hitems s hs).regular
      rw [l.uniform s hs] at hdecode
      simp [Value.encode, hdecode, Except.map, Value.settled]
  have hvalues : ScalarList.ofValues l.kind ((l.items.map Value.scalar).map Value.settled)
      = .ok l.settled := by
    have hitems : (l.items.map Value.scalar).map Value.settled
        = l.settled.items.map Value.scalar := by
      simp [ScalarList.settled, Value.settled]
    rw [hitems]
    exact Value.ofValues_map_scalar l.settled
  have hmeta : HasMeta n key info :=
    hasMeta_append first [keyName, typeName, sizeName] rfl (by decide)
  have hknown := readMeta_markup hinfo hmeta hchild
  have hentry : readArray n = .ok (.value (.list l.settled) (info.settled.received key)) := by
    rw [readArray_of_kind rfl, hread, hknown]
    simp only [hvalues, bind, Except.bind, pure, Except.pure]
  exact readEntry_arrayElement.trans (congrArg (keyed key) hentry)

/-! ## Maps and frames -/

/-- A map element is read as a frame, or as a map if it says what only a value can have. -/
theorem readEntry_map (key : String) {info : Meta} {ms : List Markup} {es : List (String × Entry)}
    (hinfo : info.Sendable .map) (hms : ∀ m ∈ ms, m.name ≠ restrictedTag)
    (hread : ∀ depth, readEntries (ms.map (Markup.node depth)) = .ok es)
    (hdistinct : Keyed.Distinct es) (depth : Nat) :
    readEntry ((mapMarkup ((keyName, key) :: metaAttributes key info)
        (ms ++ restrictedMarkup .map info.restricted)).node depth)
      = .ok (some (key,
          if (info.settled.received key).pretty = "" ∧ info.settled.restricted.isEmpty then
            .frame ⟨info.description, info.tier, es⟩
          else .value (.map (Entry.toMapEntries es)) (info.settled.received key))) := by
  rcases node_mapMarkup depth ((keyName, key) :: metaAttributes key info)
    (ms ++ restrictedMarkup .map info.restricted) with ⟨children, hnode, hentries, hchildren⟩
  rw [List.map_append, readEntries_restricted _ fun _ hm => name_restricted hm, hread] at hentries
  rw [hnode]
  let n : Node := .element mapTag ((keyName, key) :: metaAttributes key info) children
  have hmeta : HasMeta n key info :=
    hasMeta_append [(keyName, key)] [keyName] rfl (by decide)
  have hchild : n.child? restrictedTag = ((restrictedMarkup .map info.restricted).map
      (Markup.node (depth + 1))).head? := child?_restricted hchildren hms
  have hknown := readMeta_markup hinfo hmeta hchild
  have hframe : frameOf n info.tier es = ⟨info.description, info.tier, es⟩ := by
    rw [frameOf, hmeta.description, Keyed.ofList_of_distinct hdistinct]
  -- the reader decides between frame and map by what the element says
  have hpretty : (n.attribute? prettyName).isNone
      = decide ((info.settled.received key).pretty = "") := by
    have hsame : (info.settled.received key).pretty = (info.received key).pretty := rfl
    rw [hmeta.pretty, hsame]
    by_cases h : (info.received key).pretty = ""
    · simp [said, h]
    · simp [said, h]
  have hplain : (n.child? restrictedTag).isNone = info.settled.restricted.isEmpty := by
    rw [hchild]
    by_cases h : info.restricted = []
    · simp [restrictedMarkup, Meta.settled, h]
    · simp [restrictedMarkup, Meta.settled, h]
  have hnested : nestedEntry n (frameOf n info.tier es)
      = .ok (if (info.settled.received key).pretty = "" ∧ info.settled.restricted.isEmpty then
            .frame ⟨info.description, info.tier, es⟩
          else .value (.map (Entry.toMapEntries es)) (info.settled.received key)) := by
    rw [nestedEntry, hpretty, hplain, hframe, hknown]
    by_cases h : (info.settled.received key).pretty = "" ∧ info.settled.restricted.isEmpty
    · simp [h]
    · rw [if_neg h, if_neg (by simpa using h)]
      simp [Frame.toMap, Except.map]
  rw [readEntry_mapElement hmeta.tier, hentries]
  exact congrArg (keyed key) hnested

/-! ## Entries -/

mutual

/-- A value is read back from its element, at whatever depth it stands. -/
theorem readEntry_value (key : String) {v : Value} {info : Meta} (hv : v.Sendable)
    (hinfo : info.Sendable v.kind) (depth : Nat) :
    readEntry ((entryMarkup key (.value v info)).node depth)
      = .ok (some (key, v.settled.received key info.settled)) := by
  match v with
  | .scalar s =>
    rw [Value.Sendable] at hv
    rw [Value.settled]
    exact readEntry_scalar hv hinfo depth
  | .list l =>
    rw [Value.Sendable] at hv
    rw [Value.settled]
    exact readEntry_list hv.1 hv.2 hinfo depth
  | .map entries =>
    rw [Value.Sendable] at hv
    have hdistinct : Keyed.Distinct (Entry.ofMapEntries (Value.settledEntries entries)) :=
      (hv.1.of_keys_eq (Value.keys_settledEntries entries)).of_keys_eq (Entry.keys_ofMapEntries _)
    have hread := readEntry_map key hinfo (name_mapEntries entries)
      (readEntries_mapEntries hv.2) hdistinct depth
    rw [Entry.toMapEntries_ofMapEntries] at hread
    rw [entryMarkup, valueMarkup, Value.settled, Value.received]
    exact hread

theorem readEntries_mapEntries {entries : List (String × Value)}
    (h : Value.SendableEntries entries) (depth : Nat) :
    readEntries ((mapEntries entries).map (Markup.node depth))
      = .ok (Entry.ofMapEntries (Value.settledEntries entries)) := by
  match entries with
  | [] => simp [mapEntries, readEntries, Value.settledEntries, Entry.ofMapEntries]
  | (k, v) :: rest =>
    rw [Value.SendableEntries] at h
    have hv := readEntry_value k h.2.1 (sendable_none v.kind) depth
    have hnone : v.settled.received k Meta.none.settled = Entry.ofValue v.settled :=
      Value.received_none k v.settled
    rw [hnone] at hv
    rw [mapEntries_cons, List.map_cons, Value.settledEntries, Entry.ofMapEntries]
    exact readEntries_cons_some hv (readEntries_mapEntries h.2.2 depth)

end

mutual

/-- An entry of a frame is read back from its element. -/
theorem readEntry_entry {key : String} {e : Entry} (he : e.Sendable) (depth : Nat) :
    readEntry ((entryMarkup key e).node depth) = .ok (some (key, e.settled.received key)) := by
  match e with
  | .value v info =>
    rw [Entry.Sendable] at he
    rw [Entry.settled, Entry.received]
    exact readEntry_value key he.1 he.2 depth
  | .frame ⟨description, tier, entries⟩ =>
    rw [Entry.Sendable, Frame.Sendable] at he
    have hdistinct := Entry.distinct_received he.2.1
    have hread := readEntry_map key (sendable_frameMeta he.1 tier .map)
      (name_entryMarkups entries) (readEntries_entries he.2.2) hdistinct depth
    rw [if_pos (by simp [Meta.settled, Meta.received])] at hread
    rw [entryMarkup, frameAttributes_eq key, Entry.settled, Frame.settled, Entry.received,
      Frame.received]
    simpa [restrictedMarkup] using hread

theorem readEntries_entries {entries : List (String × Entry)} (h : Entry.AllSendable entries)
    (depth : Nat) :
    readEntries ((entryMarkups entries).map (Markup.node depth))
      = .ok (Entry.allReceived (Entry.allSettled entries)) := by
  match entries with
  | [] => simp [entryMarkups, readEntries, Entry.allSettled, Entry.allReceived]
  | (k, e) :: rest =>
    rw [Entry.AllSendable] at h
    rw [entryMarkups, List.map_cons, Entry.allSettled, Entry.allReceived]
    exact readEntries_cons_some (readEntry_entry h.2.1 depth) (readEntries_entries h.2.2 depth)

end

/-! ## Documents -/

theorem readMap_frame {f : Frame} (hf : f.Sendable) (depth : Nat) :
    readMap ((frameMarkup f).node depth) = .ok f.settled.received := by
  rcases f with ⟨description, tier, entries⟩
  rw [Frame.Sendable] at hf
  have hdistinct := Entry.distinct_received hf.2.1
  rw [frameMarkup, frameAttributes_eq ""]
  rcases node_mapMarkup depth (metaAttributes "" ⟨description, "", tier, []⟩) (entryMarkups entries)
    with ⟨children, hnode, hentries, -⟩
  rw [readEntries_entries hf.2.2] at hentries
  have hmeta : HasMeta (.element mapTag (metaAttributes "" ⟨description, "", tier, []⟩) children) ""
      ⟨description, "", tier, []⟩ := hasMeta_append [] [] rfl (by simp)
  have htier := hmeta.tier
  have hdescription := hmeta.description
  rw [hnode, readMap, htier]
  simp only [Node.children, hentries, bind, Except.bind, pure, Except.pure, frameOf, hdescription,
    Keyed.ofList_of_distinct hdistinct, Frame.settled, Frame.received]

/-- What is read from the document of a frame. -/
theorem readFrame_received {f : Frame} (hf : f.Sendable) :
    readFrame (String.ofList (writeFrame f)) = .ok f.settled.received := by
  let root := (frameMarkup f).node 0
  have hroot : readRoot (String.ofList (writeFrame f)) = .ok root := by
    rw [readRoot, String.toList_ofList, writeFrame, Xml.read_write_root (clean_frame hf)]
  have hmap : mapOf root = .ok (some root) := by
    refine if_pos ?_
    rw [Markup.isNamed_node, frameMarkup, name_map]
    decide
  simp only [readFrame, hroot, hmap, readMap?, readMap_frame hf 0, bind, Except.bind, root]

/-- A document with legal texts is read if its frame is, with all texts as they arrive. -/
theorem readDocument_arrived {d : Document}
    (hlegal : ∀ s ∈ (documentMarkup d).texts, Xml.IsLegal s) :
    readDocument (String.ofList (writeDocument d))
      = (readMap ((frameMarkup d.frame).arrived.node 2)).map fun f =>
          ⟨Xml.attributeText d.target, Xml.attributeText d.receiver, f⟩ := by
  let root := (documentMarkup d).arrived.node 0
  let signal : Node := .element signalTag
    (Xml.arrivedAttributes [(targetName, d.target), (receiverName, d.receiver)])
    (Markup.content 1 [(frameMarkup d.frame).arrived])
  have hread : Xml.read (writeDocument d) = some root :=
    Xml.read_write_arrived (shaped_document d) hlegal
  have hroot : readRoot (String.ofList (writeDocument d)) = .ok root := by
    rw [readRoot, String.toList_ofList, hread]
  have hsignal : signalOf root = .ok signal := rfl
  have hmap : signal.child? mapTag = some ((frameMarkup d.frame).arrived.node 2) := by
    have hname : ((frameMarkup d.frame).arrived.node 2).isNamed mapTag = true := by
      rw [Markup.isNamed_node, Markup.name_arrived, frameMarkup, name_map]
      decide
    rw [Node.child?, ← List.head?_filter]
    change ((Markup.content 1 [(frameMarkup d.frame).arrived]).filter _).head? = _
    rw [Markup.filter_content fun _ => rfl]
    simp [hname]
  simp only [readDocument, hroot, hsignal, hmap, readMap?, bind, Except.bind]
  cases readMap ((frameMarkup d.frame).arrived.node 2) with
  | ok f => rfl
  | error e => rfl

/-- What is read from the document of a signal. -/
theorem readDocument_received {d : Document} (hd : d.Sendable) :
    readDocument (String.ofList (writeDocument d))
      = .ok ⟨d.target, d.receiver, d.frame.settled.received⟩ := by
  rw [readDocument_arrived (clean_document hd).legal, (clean_frame hd.frame).arrived_eq,
    readMap_frame hd.frame 2, Xml.attributeText_of_isAttribute hd.target,
    Xml.attributeText_of_isAttribute hd.receiver]
  rfl

end Wire

/-! ## What is the same -/

/-- The name to show. -/
def Meta.shown (key : String) (info : Meta) : String :=
  if info.pretty = "" then key else info.pretty

/-- The same is known about two values under a key. -/
structure Meta.Alike (key : String) (a b : Meta) : Prop where
  description : a.description = b.description
  shown : a.shown key = b.shown key
  tier : a.tier = b.tier
  restricted : a.restricted = b.restricted

/-- What is known about an entry; of a frame, a description and a tier. -/
def Entry.info : Entry → Meta
  | .value _ info => info
  | .frame f => ⟨f.description, "", f.tier, []⟩

mutual

/-- The second frame says what the first does, with the same keys in the same order. -/
def Frame.Alike : Frame → Frame → Prop
  | ⟨description, tier, entries⟩, g =>
    g.description = description ∧ g.tier = tier ∧ Entry.AllAlike entries g.entries

/-- The second entry has the value of the first, and the same is known about it. -/
def Entry.Alike (key : String) : Entry → Entry → Prop
  | .value v info, e => e.toValue = v ∧ e.kind = v.kind ∧ info.Alike key e.info
  | .frame f, e => ∃ g, e = .frame g ∧ f.Alike g

/-- `Alike` for entries under the same keys. -/
def Entry.AllAlike : List (String × Entry) → List (String × Entry) → Prop
  | [], es => es = []
  | (k, e) :: rest, es => ∃ e' rest', es = (k, e') :: rest' ∧ e.Alike k e' ∧
      Entry.AllAlike rest rest'

end

theorem Meta.alike_received (key : String) (info : Meta) : info.Alike key (info.received key) := by
  refine ⟨rfl, ?_, rfl, rfl⟩
  by_cases hkey : info.pretty = key
  · by_cases hempty : key = ""
    · simp [shown, received, hkey, hempty]
    · simp [shown, received, hkey, hempty]
  · simp [shown, received, hkey]

theorem Value.alike_received (key : String) (v : Value) (info : Meta) :
    (Entry.value v info).Alike key (v.received key info) := by
  have hinfo := info.alike_received key
  cases v with
  | scalar s => exact ⟨by simp [received, Entry.toValue], rfl, hinfo⟩
  | list l => exact ⟨by simp [received, Entry.toValue], rfl, hinfo⟩
  | map entries =>
    by_cases hframe : (info.received key).pretty = "" ∧ info.restricted.isEmpty
    · rw [received, if_pos hframe, Entry.Alike]
      refine ⟨?_, rfl, ⟨rfl, ?_, rfl, ?_⟩⟩
      · rw [Entry.toValue, Frame.toMap, Entry.toMapEntries_ofMapEntries]
      · -- a frame shows its key, and so does the map if no other name is left
        rw [hinfo.shown, Meta.shown, if_pos hframe.1]
        rfl
      · exact List.isEmpty_iff.1 hframe.2
    · rw [received, if_neg hframe]
      exact ⟨by rw [Entry.toValue], rfl, hinfo⟩

/-! ## Leap seconds -/

mutual

/-- Every leap second in the frame is at the end of a minute. -/
def Frame.IsSettled : Frame → Prop
  | ⟨_, _, entries⟩ => Entry.AllSettled entries

/-- The value and the values to choose from are settled. -/
def Entry.IsSettled : Entry → Prop
  | .value v info =>
    v.Every Scalar.IsSettled ∧ ∀ w ∈ info.restricted, w.Every Scalar.IsSettled
  | .frame f => f.IsSettled

/-- `IsSettled` for some entries. -/
def Entry.AllSettled : List (String × Entry) → Prop
  | [] => True
  | (_, e) :: rest => e.IsSettled ∧ Entry.AllSettled rest

end

theorem Meta.settled_eq_self_iff {info : Meta} :
    info.settled = info ↔ ∀ w ∈ info.restricted, w.Every Scalar.IsSettled := by
  rcases info with ⟨description, pretty, tier, restricted⟩
  rw [settled, Meta.mk.injEq, map_eq_self_iff]
  simp only [true_and, Value.settled_eq_self_iff]

theorem Value.alike_received_iff (key : String) (v : Value) (info : Meta) :
    (Entry.value v info).Alike key (v.settled.received key info.settled) ↔
      (Entry.value v info).IsSettled := by
  rw [Entry.IsSettled, ← settled_eq_self_iff, ← Meta.settled_eq_self_iff]
  -- what comes back says what the settled value says, so the two values are compared
  have hself := v.settled.alike_received key info.settled
  rw [Entry.Alike] at hself ⊢
  constructor
  · rintro ⟨hvalue, _, hinfo⟩
    refine ⟨hself.1.symm.trans hvalue, ?_⟩
    have hrestricted : info.settled.restricted = info.restricted :=
      hself.2.2.restricted.trans hinfo.restricted.symm
    exact congrArg (fun choices => { info with restricted := choices }) hrestricted
  · rintro ⟨hv, hinfo⟩
    rw [hv, hinfo] at hself ⊢
    exact hself

mutual

/-- What comes back of a frame says the same if the frame is settled, and only then. -/
theorem Frame.alike_received_iff (f : Frame) : f.Alike f.settled.received ↔ f.IsSettled := by
  match f with
  | ⟨description, tier, entries⟩ =>
    rw [Frame.settled, Frame.received, Frame.Alike, Frame.IsSettled,
      ← Entry.allAlike_received_iff entries]
    simp only [true_and]

theorem Entry.alike_received_iff (key : String) (e : Entry) :
    e.Alike key (e.settled.received key) ↔ e.IsSettled := by
  match e with
  | .value v info =>
    rw [Entry.settled, Entry.received]
    exact v.alike_received_iff key info
  | .frame f =>
    rw [Entry.settled, Entry.received, Entry.Alike, Entry.IsSettled, ← f.alike_received_iff]
    simp only [Entry.frame.injEq, exists_eq_left']

theorem Entry.allAlike_received_iff (entries : List (String × Entry)) :
    Entry.AllAlike entries (Entry.allReceived (Entry.allSettled entries)) ↔
      Entry.AllSettled entries := by
  match entries with
  | [] => simp [Entry.allSettled, Entry.allReceived, Entry.AllAlike, Entry.AllSettled]
  | (k, e) :: rest =>
    rw [Entry.allSettled, Entry.allReceived, Entry.AllAlike, Entry.AllSettled,
      ← e.alike_received_iff k, ← Entry.allAlike_received_iff rest]
    constructor
    · rintro ⟨e', rest', heq, he, hrest⟩
      rcases List.cons.inj heq with ⟨hfirst, rfl⟩
      obtain rfl : e.settled.received k = e' := (Prod.mk.inj hfirst).2
      exact ⟨he, hrest⟩
    · rintro ⟨he, hrest⟩
      exact ⟨_, _, rfl, he, hrest⟩

end

namespace Wire

/-- A signal that can be sent is read back: its name, its receiver, and a frame that says the same
about the same values in the same order, if every leap second in it is at the end of a minute.  One
that is not comes back as the second that follows. -/
theorem readDocument_writeDocument (d : Document) (hd : d.Sendable) :
    readDocument (String.ofList (writeDocument d))
        = .ok ⟨d.target, d.receiver, d.frame.settled.received⟩ ∧
      (d.frame.Alike d.frame.settled.received ↔ d.frame.IsSettled) :=
  ⟨readDocument_received hd, d.frame.alike_received_iff⟩

/-- A signal with every shape of entry: a text with a name to show and texts to choose from, lists
with and without items, a list with lists to choose from, a map with a name to show, a map that
comes back as a frame, and a frame in the frame. -/
def sampleDocument : Document where
  target := "set \"all\""
  receiver := "cpath:/a & b"
  frame := ⟨"<top>", some .basic, [
    ("name", .value (.scalar (.string "a <\n b")) ⟨"what's it", "Name", none,
      [.scalar (.string "a <\n b"), .scalar (.string "")]⟩),
    ("none", .value (.list (.empty .real)) Meta.none),
    ("list", .value (.list ⟨.integer, [.integer 2, .integer (-1)], by decide⟩)
      ⟨"", "list", some .advanced, [.list ⟨.integer, [.integer 3], by decide⟩]⟩),
    ("map", .value (.map [("k", .scalar (.bool true))]) ⟨"", "Map", none, []⟩),
    ("plain", .value (.map [("at", .scalar (.path ⟨some "cpath", "/a:b"⟩))])
      ⟨"like a frame", "plain", none, []⟩),
    ("", .frame ⟨"", some .advanced, [("empty", .frame Frame.empty)]⟩)]⟩

theorem readDocument_sampleDocument :
    sampleDocument.Sendable ∧ sampleDocument.frame.IsSettled ∧
      readDocument (String.ofList (writeDocument sampleDocument))
        = .ok ⟨sampleDocument.target, sampleDocument.receiver,
          sampleDocument.frame.settled.received⟩ ∧
      sampleDocument.frame.Alike sampleDocument.frame.settled.received := by
  have hname : Meta.Sendable (.scalar .string) ⟨"what's it", "Name", none,
      [.scalar (.string "a <\n b"), .scalar (.string "")]⟩ := by
    refine ⟨by decide, by decide, by decide, by simp [Value.kind, Scalar.kind], ?_⟩
    simp only [List.mem_cons, List.not_mem_nil, or_false, forall_eq_or_imp, forall_eq,
      Value.Choice, Scalar.Sendable]
    exact ⟨by decide, by decide⟩
  have hlist : Meta.Sendable (.list .integer)
      ⟨"", "list", some .advanced, [.list ⟨.integer, [.integer 3], by decide⟩]⟩ := by
    refine ⟨by decide, by decide, by decide, by simp [Value.kind], ?_⟩
    simp only [List.mem_singleton, forall_eq, Value.Choice]
    exact ⟨by simp [Value.Distinct], by simp [Value.Every, Scalar.Regular], by decide, by decide⟩
  have hmap : Meta.Sendable .map ⟨"", "Map", none, []⟩ :=
    ⟨by decide, by decide, by decide, by simp, by simp⟩
  have hplain : Meta.Sendable .map ⟨"like a frame", "plain", none, []⟩ :=
    ⟨by decide, by decide, by decide, by simp, by simp⟩
  have hsendable : sampleDocument.Sendable := by
    refine ⟨by decide, by decide, ?_⟩
    simp only [sampleDocument, Frame.Sendable, Entry.AllSendable, Entry.Sendable, Value.Sendable,
      Value.SendableEntries, Scalar.Sendable, Value.kind, Scalar.kind, ScalarList.empty,
      Frame.empty]
    refine ⟨by decide, by decide, ⟨by decide, ⟨by decide, hname⟩, ?_⟩⟩
    refine ⟨by decide, ⟨⟨by decide, by simp⟩, sendable_none _⟩, ?_⟩
    refine ⟨by decide, ⟨⟨by decide, by simp⟩, hlist⟩, ?_⟩
    refine ⟨by decide, ⟨⟨by decide, by decide, trivial, trivial⟩, hmap⟩, ?_⟩
    refine ⟨by decide, ⟨⟨by decide, by decide, ⟨⟨"cpath:/a:b", rfl⟩, by decide⟩, trivial⟩, hplain⟩,
      ?_⟩
    exact ⟨by decide, ⟨by decide, by decide, by decide, ⟨by decide, by decide, trivial⟩, trivial⟩,
      trivial⟩
  have hsettled : sampleDocument.frame.IsSettled := by
    simp [sampleDocument, Frame.IsSettled, Entry.AllSettled, Entry.IsSettled, Value.Every,
      Value.EveryEntry, Scalar.IsSettled, ScalarList.empty, Frame.empty, Meta.none]
  have hread := readDocument_writeDocument sampleDocument hsendable
  exact ⟨hsendable, hsettled, hread.1, hread.2.2 hsettled⟩

/-- A signal whose only argument is a leap second after the twenty-third second of a minute. -/
def leapDocument : Document where
  target := "schedule"
  receiver := "cpath:/"
  frame := ⟨"", none, [("at", .value Value.earlyLeap Meta.none)]⟩

/-- It is read, with the twenty-fourth second in place of the leap second. -/
theorem readDocument_leapDocument :
    leapDocument.Sendable ∧
      ∃ f, readDocument (String.ofList (writeDocument leapDocument))
          = .ok ⟨leapDocument.target, leapDocument.receiver, f⟩ ∧
        ¬ leapDocument.frame.Alike f := by
  have hsendable : leapDocument.Sendable := by
    refine ⟨by decide, by decide, ?_⟩
    simp only [leapDocument, Frame.Sendable, Entry.AllSendable, Entry.Sendable, Value.earlyLeap,
      Value.Sendable, Scalar.Sendable]
    exact ⟨by decide, by decide, ⟨by decide, ⟨trivial, sendable_none _⟩, trivial⟩⟩
  have hunsettled : ¬ leapDocument.frame.IsSettled := by
    simp only [leapDocument, Frame.IsSettled, Entry.AllSettled, Entry.IsSettled, Value.earlyLeap,
      Value.Every, Scalar.IsSettled]
    exact fun h => absurd h.1.1 (by decide)
  exact ⟨hsendable, leapDocument.frame.settled.received, readDocument_received hsendable,
    mt leapDocument.frame.alike_received_iff.1 hunsettled⟩

end Wire
end SignalTree
