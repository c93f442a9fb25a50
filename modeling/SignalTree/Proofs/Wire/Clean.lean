import SignalTree.Proofs.Wire.Shape

/-!
# Clean — sendable signals are written as clean markup

Names of elements and attributes are words and no attribute stands twice in a tag; every key,
description, name to show and kind can stand in an attribute.

* `Wire.cleanTag_meta`: the tags of entries;
* `Wire.clean_value`, `Wire.clean_entry`: the elements of values and of entries;
* `Wire.clean_document`: the elements of a signal.
-/

namespace SignalTree
namespace Wire

open Xml (CleanTag ShapedTag IsWord IsAttribute Markup)

/-! ## Tags -/

theorem isAttribute_kind (k : Kind) : IsAttribute k.name := by
  cases k with
  | map => decide
  | scalar k => cases k <;> decide
  | list k => cases k <;> decide

theorem isAttribute_tier (t : Tier) : IsAttribute t.name := by
  cases t <;> decide

theorem cleanTag_of_shaped {name : String} {attributes : List (String × String)}
    (h : ShapedTag name attributes) (hvalues : ∀ a ∈ attributes, IsAttribute a.2) :
    CleanTag name attributes :=
  ⟨h.name_word, h.names_word, h.names_distinct, hvalues⟩

/-- A tag whose attributes have these names. -/
theorem cleanTag_of_names {name : String} {attributes : List (String × String)}
    (names : List String) (hnames : attributes.map (·.1) = names) (hname : IsWord name)
    (hwords : ∀ n ∈ names, IsWord n) (hdistinct : names.Nodup)
    (hvalues : ∀ a ∈ attributes, IsAttribute a.2) : CleanTag name attributes :=
  cleanTag_of_shaped (shapedTag_of_names names hnames hname hwords hdistinct) hvalues

theorem said_of_mem_optional {a : String × String} {name : String} {value : Option String}
    (h : a ∈ optional name value) : value = some a.2 := by
  cases value with
  | none => simp [optional] at h
  | some v =>
    have ha : a = (name, v) := by simpa [optional] using h
    rw [ha]

theorem isAttribute_of_said {s t : String} (h : IsAttribute s) (ht : said s = some t) :
    IsAttribute t := by
  by_cases hempty : s = ""
  · simp [said, hempty] at ht
  · have hst : s = t := by simpa [said, hempty] using ht
    exact hst ▸ h

theorem isAttribute_received {kind : Kind} {info : Meta} (h : info.Sendable kind)
    (key : String) : IsAttribute (info.received key).pretty := by
  by_cases hkey : info.pretty = key
  · simp [Meta.received, hkey, IsAttribute]
  · simp only [Meta.received, if_neg hkey]
    exact h.pretty

/-- A tag with some attributes of its own before those for what is known about a value. -/
theorem cleanTag_meta {name : String} (key : String) (first : List (String × String))
    (names : List String) {kind : Kind} {info : Meta} (hfirst : first.map (·.1) = names)
    (hname : IsWord name) (hwords : ∀ n ∈ names, IsWord n)
    (hdistinct : (names ++ [descriptionName, prettyName, tierName]).Nodup)
    (hvalues : ∀ a ∈ first, IsAttribute a.2) (hinfo : info.Sendable kind) :
    CleanTag name (first ++ metaAttributes key info) := by
  refine cleanTag_of_shaped (shapedTag_meta key info first names hfirst hname hwords hdistinct) ?_
  intro a ha
  rcases List.mem_append.1 ha with ha | ha
  · exact hvalues a ha
  · rw [metaAttributes_eq, List.mem_append, List.mem_append] at ha
    rcases ha with (ha | ha) | ha
    · exact isAttribute_of_said hinfo.description (said_of_mem_optional ha)
    · exact isAttribute_of_said (isAttribute_received hinfo key) (said_of_mem_optional ha)
    · rcases Option.map_eq_some_iff.1 (said_of_mem_optional ha) with ⟨t, -, ht⟩
      exact ht ▸ isAttribute_tier t

/-! ## Elements -/

theorem clean_leaf {name text : String} (hname : IsWord name) (htext : IsContent text) :
    (Markup.leaf name [] text).Clean :=
  ⟨cleanTag_of_names [] rfl hname (by simp) List.nodup_nil (by simp), htext.line⟩

theorem clean_map {attributes : List (String × String)} {children : List Markup}
    (htag : CleanTag mapTag attributes) (hchildren : Markup.CleanAll children) :
    (mapMarkup attributes children).Clean := by
  by_cases hempty : children = []
  · subst hempty
    exact htag
  · have hblock : mapMarkup attributes children = .block mapTag attributes children := by
      simp [mapMarkup, hempty]
    rw [hblock]
    exact ⟨htag, hchildren⟩

theorem cleanAll_restricted {kind : Kind} {info : Meta} (h : info.Sendable kind) :
    Markup.CleanAll (restrictedMarkup kind info.restricted) := by
  by_cases hempty : info.restricted = []
  · simp [restrictedMarkup, hempty, Markup.CleanAll]
  · have htag : CleanTag restrictedTag
        [(typeName, kind.name), sizeAttribute info.restricted.length] := by
      refine cleanTag_of_names [typeName, sizeName] rfl (by decide) (by decide)
        (by decide) ?_
      intro a ha
      rcases List.mem_cons.1 ha with rfl | ha
      · exact isAttribute_kind kind
      · rw [List.mem_singleton.1 ha]
        exact isAttribute_digits _
    have hitems : Markup.CleanAll (info.restricted.map fun v => .leaf itemTag [] v.encode) := by
      apply Markup.cleanAll_of_forall
      intro m hm
      rcases List.mem_map.1 hm with ⟨v, hv, rfl⟩
      exact clean_leaf (by decide) (h.restricted_choice v hv).isContent
    simp only [restrictedMarkup, List.isEmpty_iff, hempty, if_false]
    exact ⟨⟨htag, hitems⟩, trivial⟩

theorem sendable_none (kind : Kind) : Meta.none.Sendable kind where
  description := by decide
  pretty := by decide
  restricted_count := by decide
  restricted_kind := by simp [Meta.none]
  restricted_choice := by simp [Meta.none]

/-! ## Entries -/

mutual

theorem clean_value {key : String} {v : Value} {info : Meta} (hkey : IsAttribute key)
    (hv : v.Sendable) (hinfo : info.Sendable v.kind) :
    (entryMarkup key (.value v info)).Clean := by
  have hrestricted := cleanAll_restricted hinfo
  match v with
  | .scalar s =>
    rw [Value.Sendable] at hv
    have htag : CleanTag valueTag ([(keyName, key)] ++ metaAttributes key info) :=
      cleanTag_meta key [(keyName, key)] [keyName] rfl (by decide) (by decide) (by decide)
        (by simpa using hkey) hinfo
    rw [entryMarkup, valueMarkup]
    exact ⟨htag, clean_leaf (isWord_kind s.kind) hv.isContent, hrestricted⟩
  | .list l =>
    rw [Value.Sendable] at hv
    have htag : CleanTag arrayTag ([(keyName, key), (typeName, l.kind.name),
        sizeAttribute l.items.length] ++ metaAttributes key info) := by
      refine cleanTag_meta key _ [keyName, typeName, sizeName] rfl (by decide) (by decide)
        (by decide) ?_ hinfo
      intro a ha
      rcases List.mem_cons.1 ha with rfl | ha
      · exact hkey
      rcases List.mem_cons.1 ha with rfl | ha
      · exact isAttribute_kind (.scalar l.kind)
      · rw [List.mem_singleton.1 ha]
        exact isAttribute_digits _
    have hitems : Markup.CleanAll (l.items.map fun s => .leaf itemTag [] s.encode) := by
      apply Markup.cleanAll_of_forall
      intro m hm
      rcases List.mem_map.1 hm with ⟨s, hs, rfl⟩
      exact clean_leaf (by decide) (hv.2 s hs).isContent
    rw [entryMarkup, valueMarkup]
    exact ⟨htag, Markup.cleanAll_append hitems hrestricted⟩
  | .map entries =>
    rw [Value.Sendable] at hv
    have htag : CleanTag mapTag ([(keyName, key)] ++ metaAttributes key info) :=
      cleanTag_meta key [(keyName, key)] [keyName] rfl (by decide) (by decide) (by decide)
        (by simpa using hkey) hinfo
    rw [entryMarkup, valueMarkup]
    exact clean_map htag (Markup.cleanAll_append (cleanAll_mapEntries hv.2) hrestricted)

theorem cleanAll_mapEntries {entries : List (String × Value)}
    (h : Value.SendableEntries entries) : Markup.CleanAll (mapEntries entries) := by
  match entries with
  | [] => simp [mapEntries, Markup.CleanAll]
  | (k, v) :: rest =>
    rw [Value.SendableEntries] at h
    rw [mapEntries_cons]
    exact ⟨clean_value h.1 h.2.1 (sendable_none v.kind), cleanAll_mapEntries h.2.2⟩

end

theorem sendable_frameMeta {description : String} (h : IsAttribute description)
    (tier : Option Tier) (kind : Kind) : Meta.Sendable kind ⟨description, "", tier, []⟩ where
  description := h
  pretty := (by decide : IsAttribute "")
  restricted_count := (by decide : 0 < UInt64.size)
  restricted_kind := by simp
  restricted_choice := by simp

mutual

theorem clean_entry {key : String} {e : Entry} (hkey : IsAttribute key) (he : e.Sendable) :
    (entryMarkup key e).Clean := by
  match e with
  | .value v info =>
    rw [Entry.Sendable] at he
    exact clean_value hkey he.1 he.2
  | .frame ⟨description, tier, entries⟩ =>
    rw [Entry.Sendable, Frame.Sendable] at he
    rw [entryMarkup, frameAttributes_eq key]
    refine clean_map ?_ (cleanAll_entries he.2.2)
    exact cleanTag_meta key [(keyName, key)] [keyName] rfl (by decide)
      (by decide) (by decide) (by simpa using hkey) (sendable_frameMeta he.1 tier .map)

theorem cleanAll_entries {entries : List (String × Entry)} (h : Entry.AllSendable entries) :
    Markup.CleanAll (entryMarkups entries) := by
  match entries with
  | [] => simp [entryMarkups, Markup.CleanAll]
  | (k, e) :: rest =>
    rw [Entry.AllSendable] at h
    rw [entryMarkups]
    exact ⟨clean_entry h.1 h.2.1, cleanAll_entries h.2.2⟩

end

theorem clean_frame {f : Frame} (hf : f.Sendable) : (frameMarkup f).Clean := by
  rcases f with ⟨description, tier, entries⟩
  rw [Frame.Sendable] at hf
  rw [frameMarkup, frameAttributes_eq ""]
  refine clean_map ?_ (cleanAll_entries hf.2.2)
  exact cleanTag_meta "" [] [] rfl (by decide) (by simp) (by decide) (by simp)
    (sendable_frameMeta hf.1 tier .map)

/-- The elements of a sendable signal are clean. -/
theorem clean_document {d : Document} (hd : d.Sendable) : (documentMarkup d).Clean := by
  have houter : CleanTag documentTag [("version", "1.0")] :=
    cleanTag_of_names ["version"] rfl (by decide) (by decide) (by decide) (by decide)
  have hinner : CleanTag signalTag [(targetName, d.target), (receiverName, d.receiver)] :=
    cleanTag_of_names [targetName, receiverName] rfl (by decide) (by decide) (by decide)
      (by simpa using ⟨hd.target, hd.receiver⟩)
  exact ⟨houter, ⟨hinner, clean_frame hd.frame, trivial⟩, trivial⟩

end Wire
end SignalTree
