import Mathlib.Data.List.Nodup
import SignalTree.Tree.Change

/-!
# Lookup — which component an identifier leads to

Three updates change the components of a tree: one is modified, one is added, some are removed.
This file says what `Tree.get?` finds after each of them.

* `Tree.get?_modify`, `Tree.get?_remove`: for every identifier;
* `Tree.get?_add`: if the next identifier is still free;
* `Tree.attachTo`, `Tree.detachFrom`: the tree after a child is attached or removed, the two
  updates in which the parent is written as well.
-/

namespace SignalTree
namespace Tree

variable {σ η : Type} {t : Tree σ η} {id k : NodeId} {c : Component σ η}

/-! ## Single updates -/

theorem lookup_cons_ite (k : NodeId) (p : NodeId × Component σ η)
    (rest : List (NodeId × Component σ η)) :
    (p :: rest).lookup k = if k = p.1 then some p.2 else rest.lookup k := by
  rcases p with ⟨id, c⟩
  by_cases hk : k = id
  · simp [hk]
  · have hbeq : (k == id) = false := by simpa using hk
    simp [List.lookup_cons, hbeq, hk]

theorem lookup_map_ite (nodes : List (NodeId × Component σ η)) (id k : NodeId)
    (f : Component σ η → Component σ η) :
    (nodes.map fun p => if p.1 = id then (p.1, f p.2) else p).lookup k =
      if k = id then (nodes.lookup k).map f else nodes.lookup k := by
  induction nodes with
  | nil => simp
  | cons p rest ih =>
    rw [List.map_cons, lookup_cons_ite, lookup_cons_ite, ih]
    by_cases hp : p.1 = id
    · by_cases hk : k = id <;> simp [hp, hk]
    · by_cases hk : k = p.1 <;> simp [hp, hk]

theorem get?_modify (t : Tree σ η) (id k : NodeId) (f : Component σ η → Component σ η) :
    (t.modify id f).get? k = if k = id then (t.get? k).map f else t.get? k :=
  lookup_map_ite t.nodes id k f

/-- A component after a change in place, and the one it was. -/
theorem get?_modify_eq_some_iff {f : Component σ η → Component σ η} {k : NodeId}
    {d : Component σ η} :
    (t.modify id f).get? k = some d ↔ ∃ c, t.get? k = some c ∧ (if k = id then f c else c) = d := by
  rw [get?_modify]
  by_cases hk : k = id <;> simp [hk]

theorem get?_add (hfree : t.get? t.next = none) (c : Component σ η) (k : NodeId) :
    (t.add c).2.get? k = if k = t.next then some c else t.get? k := by
  change (t.nodes ++ [(t.next, c)]).lookup k = _
  rw [List.lookup_append, lookup_cons_ite]
  by_cases hk : k = t.next
  · subst hk
    have hnone : t.nodes.lookup t.next = none := hfree
    simp [hnone]
  · simp [hk, get?]

theorem lookup_filter_notMem (nodes : List (NodeId × Component σ η)) (ids : List NodeId)
    (k : NodeId) :
    (nodes.filter fun p => !ids.contains p.1).lookup k =
      if k ∈ ids then none else nodes.lookup k := by
  induction nodes with
  | nil => simp
  | cons p rest ih =>
    by_cases hp : p.1 ∈ ids
    · rw [List.filter_cons_of_neg (by simpa using hp), ih, lookup_cons_ite]
      by_cases hk : k = p.1 <;> simp [hk, hp]
    · rw [List.filter_cons_of_pos (by simpa using hp), lookup_cons_ite, lookup_cons_ite, ih]
      by_cases hk : k = p.1 <;> simp [hk, hp]

theorem get?_remove (t : Tree σ η) (ids : List NodeId) (k : NodeId) :
    (t.remove ids).get? k = if k ∈ ids then none else t.get? k :=
  lookup_filter_notMem t.nodes ids k

theorem contains_iff : t.contains id = true ↔ ∃ c, t.get? id = some c := by
  rw [contains, Option.isSome_iff_exists]

theorem component_eq_ok_iff : t.component id = .ok c ↔ t.get? id = some c := by
  cases h : t.get? id with
  | none => simp [component, h]
  | some d => simp [component, h]

/-- The identifiers of a tree. -/
def ids (t : Tree σ η) : List NodeId := t.nodes.map Prod.fst

theorem mem_ids_iff : id ∈ t.ids ↔ ∃ c, t.get? id = some c := by
  rw [ids, List.mem_map, ← Option.isSome_iff_exists, get?, List.lookup_isSome_iff]
  simp only [beq_iff_eq]
  constructor
  · rintro ⟨p, hp, rfl⟩
    exact ⟨p, hp, rfl⟩
  · rintro ⟨p, hp, rfl⟩
    exact ⟨p, hp, rfl⟩

theorem get?_of_mem_nodes (hd : t.ids.Nodup) (h : (id, c) ∈ t.nodes) : t.get? id = some c := by
  rcases List.append_of_mem h with ⟨before, after, hnodes⟩
  refine List.lookup_eq_some_iff.2 ⟨before, after, hnodes, ?_⟩
  intro p hp
  simp only [bne_iff_ne, ne_eq]
  rintro rfl
  have hsplit : (before.map Prod.fst ++ p.1 :: after.map Prod.fst).Nodup := by
    simpa [ids, hnodes] using hd
  exact (List.disjoint_of_nodup_append hsplit) (List.mem_map_of_mem hp) (List.mem_cons_self ..)

/-- A change in place is not seen by a view of the components that does not see it in the one that
is changed. -/
theorem map_nodes_modify {β : Type} (hd : t.ids.Nodup) {f : Component σ η → Component σ η}
    (g : Component σ η → β) (hc : t.get? id = some c) (hf : g (f c) = g c) :
    ((t.modify id f).nodes.map fun p => (p.1, g p.2)) = t.nodes.map fun p => (p.1, g p.2) := by
  rw [modify, List.map_map]
  apply List.map_congr_left
  rintro ⟨k, d⟩ hp
  by_cases hk : k = id
  · subst hk
    have hdc : d = c := Option.some.inj ((get?_of_mem_nodes hd hp).symm.trans hc)
    simp [hdc, hf]
  · simp [hk]

theorem modify_eq_self (hd : t.ids.Nodup) {f : Component σ η → Component σ η}
    (hc : t.get? id = some c) (hf : f c = c) : t.modify id f = t := by
  have hnodes : (t.modify id f).nodes = t.nodes := by
    simpa using map_nodes_modify hd (fun c => c) hc hf
  change { t with nodes := (t.modify id f).nodes } = t
  rw [hnodes]

theorem modify_modify (t : Tree σ η) (id : NodeId) (f g : Component σ η → Component σ η) :
    (t.modify id f).modify id g = t.modify id fun c => g (f c) := by
  simp only [modify, List.map_map]
  congr 1
  apply List.map_congr_left
  intro p _
  by_cases hp : p.1 = id <;> simp [hp]

theorem remove_modify (t : Tree σ η) (id : NodeId) (f : Component σ η → Component σ η)
    (doomed : List NodeId) : (t.modify id f).remove doomed = (t.remove doomed).modify id f := by
  simp only [modify, remove, List.filter_map]
  congr 2
  apply List.filter_congr
  intro p _
  by_cases hp : p.1 = id <;> simp [hp]

@[simp] theorem ids_modify (t : Tree σ η) (id : NodeId) (f : Component σ η → Component σ η) :
    (t.modify id f).ids = t.ids := by
  simp only [ids, modify, List.map_map]
  apply List.map_congr_left
  intro p _
  by_cases hp : p.1 = id <;> simp [hp]

@[simp] theorem ids_add (t : Tree σ η) (c : Component σ η) :
    (t.add c).2.ids = t.ids ++ [t.next] := by
  simp [ids, add]

theorem ids_remove_sublist (t : Tree σ η) (doomed : List NodeId) :
    (t.remove doomed).ids.Sublist t.ids :=
  (List.filter_sublist).map Prod.fst

/-! ## Attaching and detaching -/

/-- The tree with a component attached under the next identifier. -/
def attachTo (t : Tree σ η) (parent : NodeId) (name : String) (c : Component σ η) : Tree σ η :=
  (t.add c).2.modify parent fun p => { p with children := Keyed.put name t.next p.children }

/-- The tree without some components and without a name in the table of a parent. -/
def detachFrom (t : Tree σ η) (parent : NodeId) (name : String) (doomed : List NodeId) :
    Tree σ η :=
  (t.remove doomed).modify parent fun p => { p with children := Keyed.erase name p.children }

theorem get?_attachTo (hfree : t.get? t.next = none) (parent : NodeId) (name : String)
    (c : Component σ η) (k : NodeId) :
    (t.attachTo parent name c).get? k =
      if k = parent then
        (if k = t.next then some c else t.get? k).map fun p =>
          { p with children := Keyed.put name t.next p.children }
      else if k = t.next then some c else t.get? k := by
  rw [attachTo, get?_modify, get?_add hfree]

theorem get?_detachFrom (t : Tree σ η) (parent : NodeId) (name : String) (doomed : List NodeId)
    (k : NodeId) :
    (t.detachFrom parent name doomed).get? k =
      if k ∈ doomed then none
      else if k = parent then
        (t.get? k).map fun p => { p with children := Keyed.erase name p.children }
      else t.get? k := by
  rw [detachFrom, get?_modify, get?_remove]
  by_cases hk : k ∈ doomed <;> simp [hk]

/-- A component that is left after a removal, and the one it was. -/
theorem get?_detachFrom_eq_some_iff {parent k : NodeId} {name : String} {doomed : List NodeId}
    {d : Component σ η} :
    (t.detachFrom parent name doomed).get? k = some d ↔
      k ∉ doomed ∧ ∃ c, t.get? k = some c ∧
        (if k = parent then { c with children := Keyed.erase name c.children } else c) = d := by
  rw [get?_detachFrom]
  by_cases hk : k ∈ doomed
  · simp [hk]
  · by_cases hp : k = parent <;> simp [hk, hp]

end Tree
end SignalTree
