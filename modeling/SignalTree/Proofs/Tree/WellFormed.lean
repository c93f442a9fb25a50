import SignalTree.Proofs.Tree.Subtree

/-!
# WellFormed — what can be relied on in a tree

`Tree.WellFormed` says how the components, their parents, their tables and their names fit
together, without a word on how the tree came about.  Every grown tree is well formed.
-/

namespace SignalTree
namespace Tree

variable {σ η : Type} {t : Tree σ η}

/-- Components, parents, tables and names fit together. -/
structure WellFormed (t : Tree σ η) : Prop where
  root_live : ∃ r, t.get? t.root = some r ∧ r.parent = none
  /-- The table of a parent leads to its child under the name of the child, and under no other. -/
  parent_live : ∀ id c, t.get? id = some c → id ≠ t.root → ∃ p pc, c.parent = some p ∧
    t.get? p = some pc ∧ pc.child? c.name = some id ∧ ∀ n, (n, id) ∈ pc.children → n = c.name
  child_live : ∀ id c n k, t.get? id = some c → (n, k) ∈ c.children →
    ∃ kc, t.get? k = some kc ∧ kc.parent = some id ∧ kc.name = n
  names_distinct : ∀ id c, t.get? id = some c → Keyed.Distinct c.children
  /-- A component other than the root stands in the table of exactly one other. -/
  owner_unique : ∀ id, t.contains id = true → id ≠ t.root →
    ∃! p, ∃ c n, t.get? p = some c ∧ (n, id) ∈ c.children
  /-- There is no cycle: the way up ends at the root before it could pass a component twice. -/
  climb_root : ∀ id, t.contains id = true → ∃ n < t.size, t.climb n id = some t.root
  mem_subtree : ∀ id, id ∈ t.subtree t.root ↔ t.contains id = true
  subtree_nodup : (t.subtree t.root).Nodup
  parent_first : ∀ id c p, t.get? id = some c → c.parent = some p →
    [p, id].Sublist (t.subtree t.root)
  /-- There is no component besides those under the root. -/
  size_eq : t.size = (t.subtree t.root).length

theorem Grown.wellFormed (h : t.Grown) : t.WellFormed where
  root_live := h.root_live
  parent_live := by
    intro id c hc hne
    rcases h.has_parent id c hc hne with ⟨p, pc, hp, _, hpc, hmem⟩
    refine ⟨p, pc, hp, hpc, Keyed.lookup_eq_some_of_mem (h.names_distinct p pc hpc) hmem, ?_⟩
    intro n hn
    exact ((h.child_iff hc hpc n).1 hn).2
  child_live := h.child_live
  names_distinct := h.names_distinct
  owner_unique := by
    intro id hid hne
    rcases contains_iff.1 hid with ⟨c, hc⟩
    rcases h.has_parent id c hc hne with ⟨p, pc, hp, _, hpc, hmem⟩
    refine ⟨p, ⟨pc, c.name, hpc, hmem⟩, ?_⟩
    rintro q ⟨qc, n, hqc, hq⟩
    have hparent : c.parent = some q := ((h.child_iff hc hqc n).1 hq).1
    exact Option.some.inj (hparent.symm.trans hp)
  climb_root := by
    intro id hid
    have hmem : id ∈ t.ids := mem_ids_iff.2 (contains_iff.1 hid)
    rcases h.exists_climb_root hmem with ⟨n, hn⟩
    exact ⟨n, h.climb_lt_size hmem hn, hn⟩
  mem_subtree := fun _ => h.mem_subtree_root_iff
  subtree_nodup := h.subtree_nodup _
  parent_first := by
    intro id c p hc hp
    exact h.parent_before_child_root (parent?_eq_some_iff.2 ⟨c, hc, hp⟩)
  size_eq := h.length_subtree_root.symm

end Tree
end SignalTree
