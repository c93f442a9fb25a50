import SignalTree.Proofs.Wire.Sendable
import SignalTree.Wire.Reader

/-!
# Element — single elements are read back

What the reader gets from one element: its text, its items, and what it says about its value.

* `Wire.itemsOf_leaves`: the items of a list or of allowed values, and their number;
* `Wire.readRestricted_markup`: the allowed values;
* `Wire.readMeta_markup`: all that is known about a value, but for a name to show that is its key.
-/

namespace SignalTree

theorem Tier.ofName?_name (t : Tier) : ofName? t.name = some t := by
  cases t with
  | basic => rfl
  | advanced => rfl

/-- What comes back of what is known: a name to show that is the key itself is not sent. -/
def Meta.received (key : String) (info : Meta) : Meta :=
  { info with pretty := if info.pretty = key then "" else info.pretty }

/-- What is known, with settled values. -/
def Meta.settled (info : Meta) : Meta :=
  { info with restricted := info.restricted.map Value.settled }

namespace Wire

open Xml (Node Markup)

/-! ## Texts -/

/-- The text of a leaf is read back. -/
theorem textOf_leaf (depth : Nat) (name : String) (attributes : List (String × String))
    {text : String} (h : IsContent text) :
    textOf ((Markup.leaf name attributes text).node depth) = text := by
  have htrim : Text.trimmed text = text := by
    rw [Text.trimmed, h.trimmed, String.ofList_toList]
  by_cases hempty : text = ""
  · subst hempty
    rfl
  · simp [textOf, Markup.node, hempty, Node.leadingText, Node.children, htrim]

theorem isAttribute_digits (n : Nat) : Xml.IsAttribute (String.ofList (Numeral.digits n)) := by
  intro c hc
  rw [String.toList_ofList] at hc
  exact Xml.attribute_of_graphic (Text.isGraphic_of_isDigit (Numeral.isDigit_of_mem_digits hc))

/-! ## Items -/

theorem readItems_texts {decode : String → Except Error Value} {text : Value → String}
    {values : List Value} (hdecode : ∀ v ∈ values, decode (text v) = .ok v.settled) (i : Nat) :
    readItems decode i (values.map text) = .ok (values.map Value.settled) := by
  induction values generalizing i with
  | nil => rfl
  | cons v rest ih =>
    have hv := hdecode v (List.mem_cons_self ..)
    have hrest := ih (fun w hw => hdecode w (List.mem_cons_of_mem _ hw)) (i + 1)
    simp [readItems, hv, hrest, Except.map]

theorem checkSize_digits (name : String) {items : List Value}
    (hcount : items.length < UInt64.size) :
    checkSize name items (some (String.ofList (Numeral.digits items.length))) = .ok () := by
  have htrim : Text.trim (Numeral.digits items.length) = Numeral.digits items.length :=
    Text.trim_of_graphic fun c hc =>
      Text.isGraphic_of_isDigit (Numeral.isDigit_of_mem_digits hc)
  have hword : (UInt64.ofNat items.length).toNat = items.length :=
    UInt64.toNat_ofNat_of_lt hcount
  have hread := Numeral.readUnsigned_digits (UInt64.ofNat items.length)
  rw [hword] at hread
  simp [checkSize, htrim, hread, hword]

/-- The items of an element are read from its leaves. -/
theorem itemsOf_leaves {n : Node} (name : String) {decode : String → Except Error Value}
    {text : Value → String} {values : List Value} {depth : Nat}
    (hitems : n.children.filter (Node.isNamed itemTag)
      = values.map fun v => (Markup.leaf itemTag [] (text v)).node depth)
    (hsize : n.attribute? sizeName = some (String.ofList (Numeral.digits values.length)))
    (hcount : values.length < UInt64.size) (hcontent : ∀ v ∈ values, IsContent (text v))
    (hdecode : ∀ v ∈ values, decode (text v) = .ok v.settled) :
    itemsOf n name decode = .ok (values.map Value.settled) := by
  have htexts : (n.children.filter (Node.isNamed itemTag)).map textOf = values.map text := by
    rw [hitems, List.map_map]
    exact List.map_congr_left fun v hv => textOf_leaf depth itemTag [] (hcontent v hv)
  have hread := readItems_texts hdecode 0
  have hsettled : (values.map Value.settled).length < UInt64.size := by
    rwa [List.length_map]
  have hcheck := checkSize_digits name hsettled
  rw [List.length_map] at hcheck
  simp [itemsOf, htexts, hread, hsize, hcheck, bind, Except.bind, pure, Except.pure]

/-! ## What is known about a value -/

theorem filter_isNamed_of_all {tag : String} {ms : List Markup} (h : ∀ m ∈ ms, m.name = tag)
    (depth : Nat) : (ms.map (Markup.node depth)).filter (Node.isNamed tag)
      = ms.map (Markup.node depth) := by
  apply List.filter_eq_self.2
  intro n hn
  rcases List.mem_map.1 hn with ⟨m, hm, rfl⟩
  simp [Markup.isNamed_node, h m hm]

/-- The elements of a block that all have one name. -/
theorem filter_content_of_all {tag : String} {ms : List Markup} (h : ∀ m ∈ ms, m.name = tag)
    (depth : Nat) : (Markup.content depth ms).filter (Node.isNamed tag)
      = ms.map (Markup.node (depth + 1)) :=
  (Markup.filter_content (fun _ => rfl) depth ms).trans (filter_isNamed_of_all h (depth + 1))

/-- The allowed values are the items of the element for them. -/
theorem readRestricted_of_child {n r : Node} {kind : Kind}
    (hchild : n.child? restrictedTag = some r)
    (htype : required r typeName = .ok kind.name) :
    readRestricted n = (itemsOf r kind.name fun text => Value.decode text kind).mapError fun e =>
      e.located restrictedTag := by
  rw [readRestricted, hchild]
  simp only [htype, Kind.ofName?_name, bind, Except.bind]
  cases itemsOf r kind.name fun text => Value.decode text kind <;> rfl

/-- The allowed values are read back from the element for them. -/
theorem readRestricted_markup {n : Node} {kind : Kind} {values : List Value} {depth : Nat}
    (hchild : n.child? restrictedTag
      = ((restrictedMarkup kind values).map (Markup.node depth)).head?)
    (hcount : values.length < UInt64.size) (hkind : ∀ v ∈ values, v.kind = kind)
    (hchoice : ∀ v ∈ values, v.Choice) :
    readRestricted n = .ok (values.map Value.settled) := by
  -- without allowed values there is no element for them
  by_cases hempty : values = []
  · subst hempty
    have hnone : n.child? restrictedTag = none := hchild
    simp [readRestricted, hnone]
  · have hmarkup : restrictedMarkup kind values
        = [.block restrictedTag [(typeName, kind.name), sizeAttribute values.length]
            (values.map fun v => .leaf itemTag [] v.encode)] := by
      simp [restrictedMarkup, hempty]
    rw [hmarkup] at hchild
    let leaves : List Markup := values.map fun v => .leaf itemTag [] v.encode
    let r : Node := (Markup.block restrictedTag [(typeName, kind.name), sizeAttribute values.length]
      leaves).node depth
    have hname : ∀ m ∈ leaves, m.name = itemTag := List.forall_mem_map.2 fun _ _ => rfl
    have hitems : r.children.filter (Node.isNamed itemTag)
        = values.map fun v => (Markup.leaf itemTag [] v.encode).node (depth + 1) := by
      refine (filter_content_of_all hname depth).trans ?_
      rw [List.map_map]
      rfl
    have hread : itemsOf r kind.name (fun text => Value.decode text kind)
        = .ok (values.map Value.settled) := by
      apply itemsOf_leaves kind.name hitems rfl hcount (fun v hv => (hchoice v hv).isContent)
      intro v hv
      rw [← hkind v hv]
      exact (hchoice v hv).decode_settled
    rw [readRestricted_of_child hchild rfl]
    exact congrArg (Except.mapError _) hread

/-- An attribute that may be missing. -/
def optional (name : String) (value : Option String) : List (String × String) :=
  (value.map fun v => (name, v)).toList

/-- A text, if it says something. -/
def said (s : String) : Option String := if s = "" then none else some s

theorem getD_said (s : String) : (said s).getD "" = s := by
  by_cases h : s = ""
  · simp [said, h]
  · simp [said, h]

theorem lookup_optional (key name : String) (value : Option String) :
    (optional name value).lookup key = if key = name then value else none := by
  cases value with
  | none => simp [optional]
  | some v =>
    by_cases h : key = name
    · simp [optional, h]
    · simp [optional, h]

theorem metaAttributes_eq (key : String) (info : Meta) :
    metaAttributes key info = optional descriptionName (said info.description) ++
      optional prettyName (said (info.received key).pretty) ++
      optional tierName (info.tier.map Tier.name) := by
  have hdescription : (if info.description = "" then [] else [(descriptionName, info.description)])
      = optional descriptionName (said info.description) := by
    by_cases h : info.description = ""
    · simp [optional, said, h]
    · simp [optional, said, h]
  have hpretty : (if info.pretty = "" || info.pretty = key then [] else [(prettyName, info.pretty)])
      = optional prettyName (said (info.received key).pretty) := by
    by_cases hkey : info.pretty = key
    · simp [optional, said, Meta.received, hkey]
    · by_cases h : info.pretty = ""
      · simp [optional, said, Meta.received, h]
      · simp [optional, said, Meta.received, h, hkey]
  have htier : (info.tier.map fun t => (tierName, t.name)).toList
      = optional tierName (info.tier.map Tier.name) := by
    rw [optional, Option.map_map]
    rfl
  rw [metaAttributes, hdescription, hpretty, htier]

section Attributes

variable {n : Node} {key : String} {info : Meta}

/-- An element has the attributes for what is known about a value, besides others. -/
def HasMeta (n : Node) (key : String) (info : Meta) : Prop :=
  ∀ name ∈ [descriptionName, prettyName, tierName],
    n.attribute? name = (metaAttributes key info).lookup name

theorem HasMeta.attribute_eq (h : HasMeta n key info) {name : String}
    (hname : name ∈ [descriptionName, prettyName, tierName]) :
    n.attribute? name = ((if name = descriptionName then said info.description else none).or
      (if name = prettyName then said (info.received key).pretty else none)).or
      (if name = tierName then info.tier.map Tier.name else none) := by
  rw [h name hname, metaAttributes_eq, List.lookup_append, List.lookup_append, lookup_optional,
    lookup_optional, lookup_optional]

theorem HasMeta.description (h : HasMeta n key info) :
    (n.attribute? descriptionName).getD "" = info.description := by
  rw [h.attribute_eq (by simp)]
  simp [descriptionName, prettyName, tierName, getD_said]

theorem HasMeta.pretty (h : HasMeta n key info) :
    n.attribute? prettyName = said (info.received key).pretty := by
  rw [h.attribute_eq (by simp)]
  simp [descriptionName, prettyName, tierName]

theorem HasMeta.tier (h : HasMeta n key info) : readTier n = .ok info.tier := by
  have htier : n.attribute? tierName = info.tier.map Tier.name := by
    rw [h.attribute_eq (by simp)]
    simp [descriptionName, prettyName, tierName]
  rw [readTier, htier]
  cases info.tier with
  | none => rfl
  | some t => simp [Tier.ofName?_name]

/-- The attributes may come after others with other names. -/
theorem hasMeta_append {tag : String} (first : List (String × String)) (names : List String)
    {children : List Node} (hfirst : first.map (·.1) = names)
    (hother : ∀ name ∈ [descriptionName, prettyName, tierName], name ∉ names) :
    HasMeta (.element tag (first ++ metaAttributes key info) children) key info := by
  intro name hname
  have hnone : first.lookup name = none := by
    apply Keyed.lookup_eq_none_iff_notMem_keys.2
    rw [Keyed.keys, hfirst]
    exact hother name hname
  rw [Node.attribute?, List.lookup_append, hnone, Option.none_or]

/-- What is known about a value is read back from its element. -/
theorem readMeta_markup {kind : Kind} {depth : Nat} (hinfo : info.Sendable kind)
    (hmeta : HasMeta n key info)
    (hchild : n.child? restrictedTag
      = ((restrictedMarkup kind info.restricted).map (Markup.node depth)).head?) :
    readMeta n = .ok (info.settled.received key) := by
  have hrestricted := readRestricted_markup hchild hinfo.restricted_count hinfo.restricted_kind
    hinfo.restricted_choice
  have hpretty : (n.attribute? prettyName).getD "" = (info.received key).pretty := by
    rw [hmeta.pretty, getD_said]
  rw [readMeta, hrestricted, hmeta.tier, hmeta.description, hpretty]
  rfl

end Attributes

/-! ## Maps -/

theorem readEntries_cons_none {n : Node} {rest : List Node} (h : readEntry n = .ok none) :
    readEntries (n :: rest) = readEntries rest := by
  rw [readEntries, h]
  cases hrest : readEntries rest <;> simp [bind, Except.bind, pure, Except.pure]

theorem readEntries_cons_some {n : Node} {rest : List Node} {p : String × Entry}
    {ps : List (String × Entry)} (h : readEntry n = .ok (some p))
    (hrest : readEntries rest = .ok ps) : readEntries (n :: rest) = .ok (p :: ps) := by
  rw [readEntries, h, hrest]
  rfl

/-- The reader of entries passes over the gaps of a block. -/
theorem readEntries_content (depth : Nat) (ms : List Markup) :
    readEntries (Markup.content depth ms) = readEntries (ms.map (Markup.node (depth + 1))) := by
  have htext : ∀ s, readEntry (.text s) = .ok none := fun s => by rw [readEntry]; simp
  induction ms with
  | nil => rw [Markup.content, readEntries_cons_none (htext _)]; rfl
  | cons m rest ih =>
    rw [Markup.content, readEntries_cons_none (htext _), List.map_cons, readEntries, readEntries,
      ih]

/-- A map element, with or without content, seen by the reader. -/
theorem node_mapMarkup (depth : Nat) (attributes : List (String × String)) (ms : List Markup) :
    ∃ children, (mapMarkup attributes ms).node depth = .element mapTag attributes children ∧
      readEntries children = readEntries (ms.map (Markup.node (depth + 1))) ∧
      ∀ p : Node → Bool, (∀ s, p (.text s) = false) →
        children.filter p = (ms.map (Markup.node (depth + 1))).filter p := by
  by_cases hempty : ms = []
  · subst hempty
    exact ⟨[], rfl, rfl, fun _ _ => rfl⟩
  · refine ⟨Markup.content depth ms, ?_, readEntries_content depth ms, ?_⟩
    · simp [mapMarkup, hempty, Markup.node]
    · intro p hp
      exact Markup.filter_content hp depth ms

end Wire
end SignalTree
