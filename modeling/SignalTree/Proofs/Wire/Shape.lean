import SignalTree.Proofs.Wire.Element

/-!
# Shape — documents of signals have words as names

The names of elements and attributes do not come from the frame that is written, and no attribute
stands twice in a tag.  This is so for every signal, whatever texts it holds.

* `Wire.shapedTag_meta`: the tags of entries;
* `Wire.shaped_value`, `Wire.shaped_entry`: the elements of values and of entries;
* `Wire.shaped_document`: the elements of a signal.
-/

namespace SignalTree
namespace Wire

open Xml (ShapedTag IsWord Markup)

/-! ## Tags -/

theorem isWord_kind (k : ScalarKind) : IsWord k.name := by
  cases k <;> decide

/-- A tag whose attributes have these names. -/
theorem shapedTag_of_names {name : String} {attributes : List (String × String)}
    (names : List String) (hnames : attributes.map (·.1) = names) (hname : IsWord name)
    (hwords : ∀ n ∈ names, IsWord n) (hdistinct : names.Nodup) : ShapedTag name attributes where
  name_word := hname
  names_word := fun a ha => hwords a.1 (hnames ▸ List.mem_map_of_mem ha)
  names_distinct := hnames ▸ hdistinct

theorem names_optional_sublist (name : String) (value : Option String) :
    ((optional name value).map (·.1)).Sublist [name] := by
  cases value with
  | none => exact List.nil_sublist _
  | some v => exact List.Sublist.refl _

/-- An attribute may be missing, but those that are there stand in a fixed order. -/
theorem names_meta_sublist (key : String) (info : Meta) :
    ((metaAttributes key info).map (·.1)).Sublist [descriptionName, prettyName, tierName] := by
  rw [metaAttributes_eq, List.map_append, List.map_append]
  exact ((names_optional_sublist _ _).append (names_optional_sublist _ _)).append
    (names_optional_sublist _ _)

/-- A tag with some attributes of its own before those for what is known about a value. -/
theorem shapedTag_meta {name : String} (key : String) (info : Meta)
    (first : List (String × String)) (names : List String) (hfirst : first.map (·.1) = names)
    (hname : IsWord name) (hwords : ∀ n ∈ names, IsWord n)
    (hdistinct : (names ++ [descriptionName, prettyName, tierName]).Nodup) :
    ShapedTag name (first ++ metaAttributes key info) where
  name_word := hname
  names_word := by
    intro a ha
    rcases List.mem_append.1 ha with ha | ha
    · exact hwords a.1 (hfirst ▸ List.mem_map_of_mem ha)
    · have hmem := (names_meta_sublist key info).subset (List.mem_map_of_mem ha)
      have hmeta : ∀ n ∈ [descriptionName, prettyName, tierName], IsWord n := by decide
      exact hmeta a.1 hmem
  names_distinct := by
    rw [List.map_append, hfirst]
    exact hdistinct.sublist ((List.Sublist.refl _).append (names_meta_sublist key info))

/-! ## Elements -/

theorem shapedAll_of_forall {ms : List Markup} (h : ∀ m ∈ ms, m.Shaped) :
    Markup.ShapedAll ms := by
  induction ms with
  | nil => trivial
  | cons m rest ih =>
    exact ⟨h m (List.mem_cons_self ..), ih fun n hn => h n (List.mem_cons_of_mem _ hn)⟩

theorem shapedAll_append {ms ns : List Markup} (hms : Markup.ShapedAll ms)
    (hns : Markup.ShapedAll ns) : Markup.ShapedAll (ms ++ ns) := by
  induction ms with
  | nil => exact hns
  | cons m rest ih => exact ⟨hms.1, ih hms.2⟩

/-- Leaves without attributes. -/
theorem shapedAll_leaves {α : Type} {name : String} (hname : IsWord name) (text : α → String)
    (items : List α) : Markup.ShapedAll (items.map fun a => .leaf name [] (text a)) := by
  refine shapedAll_of_forall fun m hm => ?_
  rcases List.mem_map.1 hm with ⟨a, -, rfl⟩
  exact shapedTag_of_names [] rfl hname (by simp) List.nodup_nil

theorem shaped_map {attributes : List (String × String)} {children : List Markup}
    (htag : ShapedTag mapTag attributes) (hchildren : Markup.ShapedAll children) :
    (mapMarkup attributes children).Shaped := by
  by_cases hempty : children = []
  · subst hempty
    exact htag
  · have hblock : mapMarkup attributes children = .block mapTag attributes children := by
      simp [mapMarkup, hempty]
    rw [hblock]
    exact ⟨htag, hchildren⟩

theorem shapedAll_restricted (kind : Kind) (values : List Value) :
    Markup.ShapedAll (restrictedMarkup kind values) := by
  by_cases hempty : values = []
  · simp [restrictedMarkup, hempty, Markup.ShapedAll]
  · simp only [restrictedMarkup, List.isEmpty_iff, hempty, if_false]
    refine ⟨⟨?_, shapedAll_leaves (by decide) Value.encode values⟩, trivial⟩
    exact shapedTag_of_names [typeName, sizeName] rfl (by decide) (by decide) (by decide)

/-- Inside a map, values stand like entries of which nothing is known. -/
theorem mapEntries_cons (k : String) (v : Value) (rest : List (String × Value)) :
    mapEntries ((k, v) :: rest) = entryMarkup k (.value v Meta.none) :: mapEntries rest := by
  simp [mapEntries, entryMarkup, metaAttributes, restrictedMarkup, Meta.none]

/-! ## Entries -/

mutual

theorem shaped_value (key : String) (v : Value) (info : Meta) :
    (entryMarkup key (.value v info)).Shaped := by
  have hrestricted := shapedAll_restricted v.kind info.restricted
  match v with
  | .scalar s =>
    rw [entryMarkup, valueMarkup]
    refine ⟨shapedTag_meta key info [(keyName, key)] [keyName] rfl (by decide) (by decide)
      (by decide), ?_, hrestricted⟩
    exact shapedTag_of_names [] rfl (isWord_kind s.kind) (by simp) List.nodup_nil
  | .list l =>
    rw [entryMarkup, valueMarkup]
    refine ⟨?_, shapedAll_append (shapedAll_leaves (by decide) Scalar.encode l.items) hrestricted⟩
    exact shapedTag_meta key info [(keyName, key), (typeName, l.kind.name),
      sizeAttribute l.items.length] [keyName, typeName, sizeName] rfl (by decide) (by decide)
      (by decide)
  | .map entries =>
    rw [entryMarkup, valueMarkup]
    refine shaped_map ?_ (shapedAll_append (shapedAll_mapEntries entries) hrestricted)
    exact shapedTag_meta key info [(keyName, key)] [keyName] rfl (by decide) (by decide)
      (by decide)

theorem shapedAll_mapEntries (entries : List (String × Value)) :
    Markup.ShapedAll (mapEntries entries) := by
  match entries with
  | [] => simp [mapEntries, Markup.ShapedAll]
  | (k, v) :: rest =>
    rw [mapEntries_cons]
    exact ⟨shaped_value k v Meta.none, shapedAll_mapEntries rest⟩

end

/-- A frame says what a value without a name to show and without allowed values says. -/
theorem frameAttributes_eq (key description : String) (tier : Option Tier) :
    frameAttributes description tier = metaAttributes key ⟨description, "", tier, []⟩ := by
  simp [frameAttributes, metaAttributes]

mutual

theorem shaped_entry (key : String) (e : Entry) : (entryMarkup key e).Shaped := by
  match e with
  | .value v info => exact shaped_value key v info
  | .frame ⟨description, tier, entries⟩ =>
    rw [entryMarkup, frameAttributes_eq key]
    refine shaped_map ?_ (shapedAll_entries entries)
    exact shapedTag_meta key _ [(keyName, key)] [keyName] rfl (by decide) (by decide) (by decide)

theorem shapedAll_entries (entries : List (String × Entry)) :
    Markup.ShapedAll (entryMarkups entries) := by
  match entries with
  | [] => simp [entryMarkups, Markup.ShapedAll]
  | (k, e) :: rest =>
    rw [entryMarkups]
    exact ⟨shaped_entry k e, shapedAll_entries rest⟩

end

theorem shaped_frame (f : Frame) : (frameMarkup f).Shaped := by
  rcases f with ⟨description, tier, entries⟩
  rw [frameMarkup, frameAttributes_eq ""]
  refine shaped_map ?_ (shapedAll_entries entries)
  exact shapedTag_meta "" _ [] [] rfl (by decide) (by simp) (by decide)

/-- The names in the document of a signal are words, whatever the signal is. -/
theorem shaped_document (d : Document) : (documentMarkup d).Shaped :=
  ⟨shapedTag_of_names ["version"] rfl (by decide) (by decide) (by decide),
    ⟨shapedTag_of_names [targetName, receiverName] rfl (by decide) (by decide) (by decide),
      shaped_frame d.frame, trivial⟩, trivial⟩

end Wire
end SignalTree
