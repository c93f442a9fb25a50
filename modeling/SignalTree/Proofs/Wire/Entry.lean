import SignalTree.Proofs.Wire.Element
import SignalTree.Proofs.Wire.Shape

/-!
# Entry — elements for entries, seen by the reader

An entry of a frame becomes one element.  The elements inside stand in a fixed order: what the value
is made of comes first, and the allowed values come last.  So what the reader does with an element
comes down to what it does with these two parts.

* `Wire.keyed`: what is read, under the key of the element;
* `readEntry_valueElement`, `readEntry_arrayElement`, `readEntry_mapElement`: the three kinds of
  elements;
* `readScalar_of_holder`, `readArray_of_kind`: the parts of a scalar and of a list;
* `readEntries_restricted`: the allowed values are no entries.
-/

namespace SignalTree
namespace Wire

open Xml (Node Markup)

/-! ## The elements around allowed values -/

theorem name_restricted {kind : Kind} {values : List Value} {m : Markup}
    (hm : m ∈ restrictedMarkup kind values) : m.name = restrictedTag := by
  by_cases hempty : values = []
  · simp [restrictedMarkup, hempty] at hm
  · simp only [restrictedMarkup, List.isEmpty_iff, hempty, if_false, List.mem_singleton] at hm
    rw [hm]
    rfl

theorem name_map (attributes : List (String × String)) (children : List Markup) :
    (mapMarkup attributes children).name = mapTag := by
  cases children <;> rfl

theorem name_entry_ne (key : String) (e : Entry) : (entryMarkup key e).name ≠ restrictedTag := by
  cases e with
  | value v info =>
    cases v with
    | scalar s => simp [entryMarkup, valueMarkup, Markup.name]; decide
    | list l => simp [entryMarkup, valueMarkup, Markup.name]; decide
    | map entries => simp [entryMarkup, valueMarkup, name_map]; decide
  | frame f =>
    rcases f with ⟨description, tier, entries⟩
    simp [entryMarkup, name_map]; decide

theorem name_mapEntries (entries : List (String × Value)) :
    ∀ m ∈ mapEntries entries, m.name ≠ restrictedTag := by
  induction entries with
  | nil => simp [mapEntries]
  | cons p rest ih =>
    rcases p with ⟨k, v⟩
    rw [mapEntries_cons]
    intro m hm
    rcases List.mem_cons.1 hm with rfl | hm
    · exact name_entry_ne k _
    · exact ih m hm

theorem name_entryMarkups (entries : List (String × Entry)) :
    ∀ m ∈ entryMarkups entries, m.name ≠ restrictedTag := by
  induction entries with
  | nil => simp [entryMarkups]
  | cons p rest ih =>
    rcases p with ⟨k, e⟩
    rw [entryMarkups]
    intro m hm
    rcases List.mem_cons.1 hm with rfl | hm
    · exact name_entry_ne k e
    · exact ih m hm

theorem filter_isNamed_of_none {tag : String} {ms : List Markup} (h : ∀ m ∈ ms, m.name ≠ tag)
    (depth : Nat) : (ms.map (Markup.node depth)).filter (Node.isNamed tag) = [] := by
  apply List.filter_eq_nil_iff.2
  intro n hn
  rcases List.mem_map.1 hn with ⟨m, hm, rfl⟩
  simp [Markup.isNamed_node, h m hm]

/-- A search for a name passes over the elements before those with this name. -/
theorem child?_back {tag named : String} {attributes : List (String × String)}
    {children : List Node} {ms rs : List Markup} {depth : Nat}
    (hchildren : ∀ p : Node → Bool, (∀ s, p (.text s) = false) →
      children.filter p = ((ms ++ rs).map (Markup.node depth)).filter p)
    (hms : ∀ m ∈ ms, m.name ≠ named) (hrs : ∀ m ∈ rs, m.name = named) :
    (Node.element tag attributes children).child? named = (rs.map (Markup.node depth)).head? := by
  have hfront := filter_isNamed_of_none hms depth
  have hback := filter_isNamed_of_all hrs depth
  rw [Node.child?, ← List.head?_filter]
  change (children.filter _).head? = _
  rw [hchildren _ fun _ => rfl, List.map_append, List.filter_append, hfront, hback, List.nil_append]

/-- The allowed values stand at the end. -/
theorem child?_restricted {tag : String} {attributes : List (String × String)}
    {children : List Node} {ms : List Markup} {kind : Kind} {values : List Value} {depth : Nat}
    (hchildren : ∀ p : Node → Bool, (∀ s, p (.text s) = false) →
      children.filter p = ((ms ++ restrictedMarkup kind values).map (Markup.node depth)).filter p)
    (hms : ∀ m ∈ ms, m.name ≠ restrictedTag) :
    (Node.element tag attributes children).child? restrictedTag
      = ((restrictedMarkup kind values).map (Markup.node depth)).head? :=
  child?_back hchildren hms fun _ hm => name_restricted hm

/-- The elements of a name are those in front. -/
theorem filter_front {named : String} {children : List Node} {ms rs : List Markup} {depth : Nat}
    (hchildren : ∀ p : Node → Bool, (∀ s, p (.text s) = false) →
      children.filter p = ((ms ++ rs).map (Markup.node depth)).filter p)
    (hms : ∀ m ∈ ms, m.name = named) (hrs : ∀ m ∈ rs, m.name ≠ named) :
    children.filter (Node.isNamed named) = ms.map (Markup.node depth) := by
  rw [hchildren _ fun _ => rfl, List.map_append, List.filter_append, filter_isNamed_of_all hms,
    filter_isNamed_of_none hrs, List.append_nil]

theorem readEntry_of_restricted {m : Markup} (hm : m.name = restrictedTag) (depth : Nat) :
    readEntry (m.node depth) = .ok none := by
  cases m with
  | leaf name attributes text =>
    obtain rfl : name = restrictedTag := hm
    rw [Markup.node, readEntry, if_neg (by decide)]
  | block name attributes children =>
    obtain rfl : name = restrictedTag := hm
    rw [Markup.node, readEntry, if_neg (by decide)]
  | mark name attributes =>
    obtain rfl : name = restrictedTag := hm
    rw [Markup.node, readEntry, if_neg (by decide)]

/-- The reader of entries passes over the elements for allowed values. -/
theorem readEntries_restricted (ns : List Node) {rs : List Markup}
    (hrs : ∀ m ∈ rs, m.name = restrictedTag) (depth : Nat) :
    readEntries (ns ++ rs.map (Markup.node depth)) = readEntries ns := by
  have hnone : readEntries (rs.map (Markup.node depth)) = .ok [] := by
    induction rs with
    | nil => simp [readEntries]
    | cons m rest ih =>
      rcases List.forall_mem_cons.1 hrs with ⟨hm, hrest⟩
      rw [List.map_cons, readEntries_cons_none (readEntry_of_restricted hm depth), ih hrest]
  induction ns with
  | nil => rw [List.nil_append, hnone, readEntries]
  | cons n rest ih => rw [List.cons_append, readEntries, readEntries, ih]

/-! ## Keys -/

/-- What is read of an element, under its key. -/
def keyed (key : String) (r : Except Error Entry) : Except Error (Option (String × Entry)) :=
  (r.mapError fun e => e.located key).map fun e => some (key, e)

/-- The key makes no difference to whether there is a result. -/
theorem succeeds_iff_of_keyed {key : String} {r : Except Error Entry}
    {r' : Except Error (Option (String × Entry))} (h : r' = keyed key r) :
    Succeeds r' ↔ Succeeds r := by
  rw [h]
  exact succeeds_map_iff.trans succeeds_mapError_iff

section Elements

variable {attributes : List (String × String)} {children : List Node} {key : String}

/-- The entry of an element for a scalar, if it has a key. -/
theorem readEntry_of_value
    (hkey : required (.element valueTag attributes children) keyName = .ok key) :
    readEntry (.element valueTag attributes children)
      = keyed key (readScalar (.element valueTag attributes children)) := by
  rw [readEntry, if_pos (by decide), hkey]
  simp only [if_true, bind, Except.bind]
  cases readScalar (.element valueTag attributes children) <;> rfl

/-- The same for a list. -/
theorem readEntry_of_array
    (hkey : required (.element arrayTag attributes children) keyName = .ok key) :
    readEntry (.element arrayTag attributes children)
      = keyed key (readArray (.element arrayTag attributes children)) := by
  have hother : arrayTag ≠ valueTag := by decide
  rw [readEntry, if_pos (by decide), hkey]
  simp only [hother, if_false, if_true, bind, Except.bind]
  cases readArray (.element arrayTag attributes children) <;> rfl

/-- The same for a frame or a map. -/
theorem readEntry_of_map {tier : Option Tier}
    (hkey : required (.element mapTag attributes children) keyName = .ok key)
    (htier : readTier (.element mapTag attributes children) = .ok tier) :
    readEntry (.element mapTag attributes children)
      = keyed key (readEntries children >>= fun entries =>
          nestedEntry (.element mapTag attributes children)
            (frameOf (.element mapTag attributes children) tier entries)) := by
  have hvalue : mapTag ≠ valueTag := by decide
  have harray : mapTag ≠ arrayTag := by decide
  rw [readEntry, if_pos (by decide), hkey]
  simp only [hvalue, harray, htier, if_false, bind, Except.bind]
  cases readEntries children with
  | error e => rfl
  | ok entries =>
    dsimp only
    cases nestedEntry (.element mapTag attributes children)
      (frameOf (.element mapTag attributes children) tier entries) <;> rfl

theorem required_key (tag : String) :
    required (.element tag ((keyName, key) :: attributes) children) keyName = .ok key := rfl

theorem readEntry_valueElement :
    readEntry (.element valueTag ((keyName, key) :: attributes) children)
      = keyed key (readScalar (.element valueTag ((keyName, key) :: attributes) children)) :=
  readEntry_of_value (required_key valueTag)

theorem readEntry_arrayElement :
    readEntry (.element arrayTag ((keyName, key) :: attributes) children)
      = keyed key (readArray (.element arrayTag ((keyName, key) :: attributes) children)) :=
  readEntry_of_array (required_key arrayTag)

theorem readEntry_mapElement {tier : Option Tier}
    (htier : readTier (.element mapTag ((keyName, key) :: attributes) children) = .ok tier) :
    readEntry (.element mapTag ((keyName, key) :: attributes) children)
      = keyed key (readEntries children >>= fun entries =>
          nestedEntry (.element mapTag ((keyName, key) :: attributes) children)
            (frameOf (.element mapTag ((keyName, key) :: attributes) children) tier entries)) :=
  readEntry_of_map (required_key mapTag) htier

end Elements

/-! ## Scalars and lists -/

/-- The first element says kind and value of a scalar. -/
theorem readScalar_of_holder {tag : String} {attributes : List (String × String)}
    {children : List Node} {holder : Markup} {rs : List Markup} {kind : ScalarKind} {depth : Nat}
    (hchildren : ∀ p : Node → Bool, (∀ s, p (.text s) = false) →
      children.filter p = ((holder :: rs).map (Markup.node depth)).filter p)
    (hname : holder.name = kind.name) :
    readScalar (.element tag attributes children) = (do
      let s ← Scalar.decode (textOf (holder.node depth)) kind
      let info ← readMeta (.element tag attributes children)
      return .value (.scalar s) info) := by
  have hother : holder.name ≠ restrictedTag := by
    rw [hname]
    cases kind <;> decide
  have hfound : ((holder.node depth).isElement && !(holder.node depth).isNamed restrictedTag)
      = true := by
    have helement : (holder.node depth).isElement = true := by
      cases holder <;> rfl
    rw [helement, Markup.isNamed_node, beq_eq_false_iff_ne.2 hother]
    rfl
  have hholder : children.find? (fun c => c.isElement && !c.isNamed restrictedTag)
      = some (holder.node depth) := by
    rw [← List.head?_filter, hchildren _ fun _ => rfl, List.map_cons, List.filter_cons,
      if_pos hfound, List.head?_cons]
  have hkind : ScalarKind.ofName? (holder.node depth).name = some kind := by
    have hnode : (holder.node depth).name = holder.name := by
      cases holder <;> rfl
    rw [hnode, hname, ScalarKind.ofName?_name]
  simp only [readScalar, Node.children, hholder, hkind]

/-- The attribute for the kind says what the items are read as. -/
theorem readArray_of_kind {n : Node} {kind : ScalarKind}
    (htype : required n typeName = .ok kind.name) :
    readArray n = (do
      let items ← itemsOf n kind.name fun text => (Scalar.decode text kind).map .scalar
      let l ← ScalarList.ofValues kind items
      let info ← readMeta n
      return .value (.list l) info) := by
  simp only [readArray, htype, ScalarKind.ofName?_name, bind, Except.bind]

end Wire
end SignalTree
