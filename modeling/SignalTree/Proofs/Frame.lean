import SignalTree.Frame
import SignalTree.Proofs.Keyed

/-!
# Frame — frames and maps

A frame says more than the map that it becomes: there are texts and tiers in it, and a map may stand
in it as a value or as a frame.  A map becomes a frame that says nothing more than the map, and in
which every map has become a frame.  So maps are not changed on the way to a frame and back, and
frames lose on the way to a map and back what a map cannot say.

* `Entry.toValue_ofValue`, `Frame.toMap_ofMap`: maps come back as they were, at every depth;
* `Frame.Stripped`: the frames that say no more than maps do;
* `Frame.stripped_iff`: these are the frames that come back as they were;
* `Frame.conversion_outcome`: what comes back of maps and of frames.
-/

namespace SignalTree

/-! ## Row by row -/

theorem Entry.toMapEntries_eq_map (entries : List (String × Entry)) :
    toMapEntries entries = entries.map fun p => (p.1, p.2.toValue) := by
  induction entries with
  | nil => rfl
  | cons p rest ih => rw [toMapEntries, ih, List.map_cons]

theorem Entry.ofMapEntries_eq_map (entries : List (String × Value)) :
    ofMapEntries entries = entries.map fun p => (p.1, ofValue p.2) := by
  induction entries with
  | nil => rfl
  | cons p rest ih => rw [ofMapEntries, ih, List.map_cons]

theorem Entry.keys_toMapEntries (entries : List (String × Entry)) :
    Keyed.keys (toMapEntries entries) = Keyed.keys entries := by
  rw [toMapEntries_eq_map, Keyed.keys_map]

theorem Entry.keys_ofMapEntries (entries : List (String × Value)) :
    Keyed.keys (ofMapEntries entries) = Keyed.keys entries := by
  rw [ofMapEntries_eq_map, Keyed.keys_map]

/-- The kind of an entry is that of its value. -/
theorem Entry.kind_eq (e : Entry) : e.kind = e.toValue.kind := by
  cases e with
  | value v info => rw [kind, toValue]
  | frame f => rw [kind, toValue, Value.kind]

/-! ## From maps to frames and back -/

mutual

/-- A value that becomes an entry is the value of the entry. -/
theorem Entry.toValue_ofValue (v : Value) : (ofValue v).toValue = v := by
  match v with
  | .scalar s => simp [ofValue, toValue]
  | .list l => simp [ofValue, toValue]
  | .map entries => simp [ofValue, toValue, Frame.toMap, toMapEntries_ofMapEntries entries]

theorem Entry.toMapEntries_ofMapEntries (entries : List (String × Value)) :
    toMapEntries (ofMapEntries entries) = entries := by
  match entries with
  | [] => simp [ofMapEntries, toMapEntries]
  | (k, v) :: rest =>
    simp [ofMapEntries, toMapEntries, toValue_ofValue v, toMapEntries_ofMapEntries rest]

end

namespace Frame

theorem toMap_ofMap (m : List (String × Value)) : (ofMap m).toMap = m := by
  rw [ofMap, toMap, Entry.toMapEntries_ofMapEntries]

/-- A frame into which entries are put one after the other. -/
theorem foldl_put {α : Type} (key : α → String) (entry : α → Entry) (items : List α) :
    items.foldl (fun f a => f.put (key a) (entry a)) empty =
      ⟨"", none, Keyed.ofList (items.map fun a => (key a, entry a))⟩ := by
  -- the induction needs any frame to begin with
  have hfold : ∀ entries : List (String × Entry),
      items.foldl (fun (f : Frame) a => f.put (key a) (entry a)) ⟨"", none, entries⟩ =
        ⟨"", none, items.foldl (fun acc a => Keyed.put (key a) (entry a) acc) entries⟩ := by
    induction items with
    | nil => exact fun _ => rfl
    | cons a rest ih =>
      intro entries
      rw [List.foldl_cons, put, ih, List.foldl_cons]
  rw [Keyed.ofList, List.foldl_map]
  exact hfold []

/-- The entries of a frame that is made of a map may as well be put in one after the other. -/
theorem ofMap_eq_foldl {m : List (String × Value)} (hd : Keyed.Distinct m) :
    ofMap m = m.foldl (fun f p => f.put p.1 (Entry.ofValue p.2)) empty := by
  have hdistinct : Keyed.Distinct (Entry.ofMapEntries m) :=
    hd.of_keys_eq (Entry.keys_ofMapEntries m)
  calc ofMap m
      = ⟨"", none, Keyed.ofList (Entry.ofMapEntries m)⟩ := by
        rw [ofMap, Keyed.ofList_of_distinct hdistinct]
    _ = m.foldl (fun f p => f.put p.1 (Entry.ofValue p.2)) empty := by
        rw [foldl_put, Entry.ofMapEntries_eq_map]

end Frame

/-! ## Frames that say no more than maps -/

mutual

/-- Nothing is said of the value but the value, and a map stands as a frame. -/
def Entry.Stripped : Entry → Prop
  | .value v info => v.kind ≠ .map ∧ info = Meta.none
  | .frame f => f.Stripped

/-- The frame has no description and no tier, and its entries say no more than their values. -/
def Frame.Stripped : Frame → Prop
  | ⟨description, tier, entries⟩ =>
    description = "" ∧ tier = none ∧ Entry.AllStripped entries

/-- `Stripped` for some entries. -/
def Entry.AllStripped : List (String × Entry) → Prop
  | [] => True
  | (_, e) :: rest => e.Stripped ∧ Entry.AllStripped rest

end

mutual

/-- What a value becomes says no more than the value. -/
theorem Entry.stripped_ofValue (v : Value) : (ofValue v).Stripped := by
  match v with
  | .scalar s => simp [ofValue, Stripped, Value.kind]
  | .list l => simp [ofValue, Stripped, Value.kind]
  | .map entries =>
    rw [ofValue, Stripped, Frame.Stripped]
    exact ⟨rfl, rfl, allStripped_ofMapEntries entries⟩

theorem Entry.allStripped_ofMapEntries (entries : List (String × Value)) :
    AllStripped (ofMapEntries entries) := by
  match entries with
  | [] => simp [ofMapEntries, AllStripped]
  | (k, v) :: rest =>
    rw [ofMapEntries, AllStripped]
    exact ⟨stripped_ofValue v, allStripped_ofMapEntries rest⟩

end

mutual

/-- An entry that says no more than its value is made of the value again. -/
theorem Entry.ofValue_toValue {e : Entry} (h : e.Stripped) : ofValue e.toValue = e := by
  match e with
  | .value v info =>
    rw [Stripped] at h
    rcases h with ⟨hkind, rfl⟩
    -- a map is not stripped as a value, because it would become a frame
    cases v with
    | scalar s => rw [toValue, ofValue]
    | list l => rw [toValue, ofValue]
    | map entries => exact absurd rfl hkind
  | .frame ⟨description, tier, entries⟩ =>
    rw [Stripped, Frame.Stripped] at h
    rcases h with ⟨rfl, rfl, hentries⟩
    rw [toValue, Frame.toMap, ofValue, ofMapEntries_toMapEntries hentries]

theorem Entry.ofMapEntries_toMapEntries {entries : List (String × Entry)}
    (h : AllStripped entries) : ofMapEntries (toMapEntries entries) = entries := by
  match entries with
  | [] => rw [toMapEntries, ofMapEntries]
  | (k, e) :: rest =>
    rw [AllStripped] at h
    rw [toMapEntries, ofMapEntries, ofValue_toValue h.1, ofMapEntries_toMapEntries h.2]

end

/-- A map that becomes an entry becomes a frame. -/
theorem Entry.ofValue_of_map {v : Value} (h : v.kind = .map) :
    ∃ m, v = .map m ∧ ofValue v = .frame (Frame.ofMap m) := by
  cases v with
  | scalar s => cases h
  | list l => cases h
  | map m => exact ⟨m, rfl, by rw [ofValue, Frame.ofMap]⟩

/-- Any other value stands for itself. -/
theorem Entry.ofValue_of_not_map {v : Value} (h : v.kind ≠ .map) :
    ofValue v = .value v Meta.none := by
  cases v with
  | scalar s => rw [ofValue]
  | list l => rw [ofValue]
  | map m => exact absurd rfl h

namespace Frame

theorem stripped_ofMap (m : List (String × Value)) : (ofMap m).Stripped := by
  rw [ofMap, Stripped]
  exact ⟨rfl, rfl, Entry.allStripped_ofMapEntries m⟩

/-- The frames that say no more than maps are those that come back as they were. -/
theorem stripped_iff {f : Frame} : f.Stripped ↔ ofMap f.toMap = f := by
  constructor
  · intro h
    rcases f with ⟨description, tier, entries⟩
    rw [Stripped] at h
    rcases h with ⟨rfl, rfl, hentries⟩
    rw [toMap, ofMap, Entry.ofMapEntries_toMapEntries hentries]
  · intro h
    rw [← h]
    exact stripped_ofMap f.toMap

/-! ## From frames to maps and back -/

theorem keys_ofMap_toMap (f : Frame) : (ofMap f.toMap).keys = f.keys := by
  rcases f with ⟨description, tier, entries⟩
  calc (ofMap (toMap ⟨description, tier, entries⟩)).keys
      = Keyed.keys (Entry.ofMapEntries (Entry.toMapEntries entries)) := by rw [toMap, ofMap, keys]
    _ = Keyed.keys (Entry.toMapEntries entries) := Entry.keys_ofMapEntries _
    _ = Keyed.keys entries := Entry.keys_toMapEntries entries

/-- Under each key stands what the value there becomes. -/
theorem entry?_ofMap_toMap (f : Frame) (key : String) :
    entry? (ofMap f.toMap) key = (f.entry? key).map fun e => Entry.ofValue e.toValue := by
  rcases f with ⟨description, tier, entries⟩
  calc entry? (ofMap (toMap ⟨description, tier, entries⟩)) key
      = (Entry.ofMapEntries (Entry.toMapEntries entries)).lookup key := by rw [toMap, ofMap, entry?]
    _ = ((entries.lookup key).map Entry.toValue).map Entry.ofValue := by
        rw [Entry.ofMapEntries_eq_map, Keyed.lookup_map, Entry.toMapEntries_eq_map,
          Keyed.lookup_map]
    _ = (entries.lookup key).map fun e => Entry.ofValue e.toValue := Option.map_map ..

theorem value_ofMap_toMap (f : Frame) (key : String) :
    (ofMap f.toMap).value key = f.value key := by
  rw [value, value, entry?_ofMap_toMap]
  cases f.entry? key with
  | none => rfl
  | some e => simp only [Option.map_some, Entry.toValue_ofValue]

/-- A map becomes a frame, and the frame becomes the same map again, with its keys in order at every
depth; the frame says nothing more than the map, and it is the one that is filled entry by entry.  A
frame that becomes a map and a frame again has the same keys in order and the same value under each
of them.  Where a map or a frame stood, there stands a frame of the same entries; any other value
stands without what was said of it.  A frame that says no more than a map is not changed at all, and
any other frame is. -/
theorem conversion_outcome :
    (∀ m : List (String × Value), (ofMap m).toMap = m ∧ (ofMap m).Stripped ∧
      (Keyed.Distinct m → ofMap m = m.foldl (fun f p => f.put p.1 (Entry.ofValue p.2)) empty)) ∧
    ∀ f : Frame, (ofMap f.toMap).keys = f.keys ∧
      (∀ key, (ofMap f.toMap).value key = f.value key) ∧
      (∀ key e, f.entry? key = some e →
        (e.kind = .map → ∃ g, entry? (ofMap f.toMap) key = some (.frame g) ∧
          e.toValue = .map g.toMap ∧ g.Stripped) ∧
        (e.kind ≠ .map → entry? (ofMap f.toMap) key = some (.value e.toValue Meta.none))) ∧
      (f.Stripped ↔ ofMap f.toMap = f) := by
  constructor
  · intro m
    exact ⟨toMap_ofMap m, stripped_ofMap m, ofMap_eq_foldl⟩
  · intro f
    refine ⟨f.keys_ofMap_toMap, f.value_ofMap_toMap, ?_, stripped_iff⟩
    intro key e he
    rw [entry?_ofMap_toMap, he, Option.map_some, e.kind_eq]
    constructor
    · intro hmap
      rcases Entry.ofValue_of_map hmap with ⟨m, hm, hframe⟩
      rw [hframe]
      exact ⟨ofMap m, rfl, by rw [toMap_ofMap]; exact hm, stripped_ofMap m⟩
    · intro hplain
      rw [Entry.ofValue_of_not_map hplain]

/-- A frame with a described value, a map that stands as a value, and a frame inside. -/
def detailed : Frame :=
  ⟨"Settings", some .basic,
    [("rate", .value (.ofString "fast") ⟨"How fast", "Rate", none, []⟩),
      ("pair", .value (.map [("x", .ofString "1")]) Meta.none),
      ("more", .frame ⟨"More", none, [("deep", .value (.map []) Meta.none)]⟩)]⟩

/-- The description is lost, and both maps have become frames. -/
theorem conversion_outcome_detailed :
    Keyed.Distinct detailed.toMap ∧
      ofMap detailed.toMap =
        detailed.toMap.foldl (fun f p => f.put p.1 (Entry.ofValue p.2)) empty ∧
      (ofMap detailed.toMap).keys = ["rate", "pair", "more"] ∧
      entry? (ofMap detailed.toMap) "rate" = some (.value (.ofString "fast") Meta.none) ∧
      (∃ g, entry? (ofMap detailed.toMap) "pair" = some (.frame g) ∧
        Value.map [("x", .ofString "1")] = .map g.toMap ∧ g.Stripped) ∧
      (∃ g, entry? (ofMap detailed.toMap) "more" = some (.frame g) ∧
        Value.map [("deep", .map [])] = .map g.toMap ∧ g.Stripped) ∧
      ofMap detailed.toMap ≠ detailed := by
  rcases conversion_outcome with ⟨hmaps, hframes⟩
  rcases hmaps detailed.toMap with ⟨_, _, hfilled⟩
  rcases hframes detailed with ⟨hkeys, _, hentries, hstripped⟩
  have hdistinct : Keyed.Distinct detailed.toMap := by decide
  refine ⟨hdistinct, hfilled hdistinct, hkeys, ?_, ?_, ?_, ?_⟩
  · exact (hentries "rate" _ rfl).2 (by simp [Entry.kind, Value.kind, Value.ofString])
  · exact (hentries "pair" _ rfl).1 rfl
  · exact (hentries "more" _ rfl).1 rfl
  · rw [ne_eq, ← hstripped]
    simp [detailed, Stripped]

end Frame
end SignalTree
