import Mathlib.Data.List.Flatten
import SignalTree.Proofs.Tree.Growth

/-!
# Subtree — what a walk down the tables meets

`Tree.collect` walks down the tables of children.  In a grown tree it meets exactly the components
from which its start is some parents up, none of them twice, and a parent always before its
children.

* `Grown.mem_collect_iff`: what a walk of limited depth meets;
* `Grown.collect_nodup`: no component is met twice;
* `Grown.parent_before_child`: the order;
* `Grown.mem_subtree_root_iff`, `Grown.length_subtree_root`: from the root every component is met.
-/

namespace SignalTree
namespace Tree

variable {σ η : Type} {t : Tree σ η}

/-- The identifiers in the table of a component. -/
def childIds (t : Tree σ η) (id : NodeId) : List NodeId :=
  ((t.get? id).map fun c => c.children.map Prod.snd).getD []

theorem collect_succ (fuel : Nat) (id : NodeId) :
    t.collect (fuel + 1) id = id :: (t.childIds id).flatMap (t.collect fuel) := by
  cases h : t.get? id with
  | none => simp [collect, childIds, h]
  | some c => simp [collect, childIds, h, List.flatMap_map]

namespace Grown

variable {id k p : NodeId}

theorem mem_childIds_iff (h : t.Grown) : k ∈ t.childIds id ↔ t.parent? k = some id := by
  rw [h.parent?_eq_some_iff_child]
  cases hget : t.get? id with
  | none => simp [childIds, hget]
  | some c => simp [childIds, hget]

/-- The components of one table differ, because their names do. -/
theorem childIds_nodup (h : t.Grown) (id : NodeId) : (t.childIds id).Nodup := by
  cases hget : t.get? id with
  | none => simp [childIds, hget]
  | some c =>
    have hdistinct : Keyed.Distinct c.children := h.names_distinct id c hget
    have hpairs : c.children.Nodup := List.Nodup.of_map _ hdistinct
    simp only [childIds, hget, Option.map_some, Option.getD_some]
    apply hpairs.map_on
    rintro ⟨n, k⟩ hp ⟨m, l⟩ hq hkl
    have hkl' : k = l := hkl
    subst hkl'
    rcases h.child_live id c n k hget hp with ⟨kc, hkc, _, hn⟩
    rcases h.child_live id c m k hget hq with ⟨lc, hlc, _, hm⟩
    have hsame : kc = lc := Option.some.inj (hkc.symm.trans hlc)
    rw [← hn, ← hm, hsame]

/-! ## What is met -/

/-- A walk meets the components from which its start is a few parents up. -/
theorem mem_collect_iff (h : t.Grown) {fuel : Nat} :
    k ∈ t.collect fuel id ↔ ∃ n < fuel, t.climb n k = some id := by
  induction fuel generalizing id with
  | zero => simp [collect]
  | succ fuel ih =>
    rw [collect_succ, List.mem_cons, List.mem_flatMap]
    constructor
    · rintro (rfl | ⟨child, hchild, hk⟩)
      · exact ⟨0, Nat.succ_pos _, rfl⟩
      · rcases ih.1 hk with ⟨n, hn, hclimb⟩
        exact ⟨n + 1, Nat.succ_lt_succ hn,
          climb_succ_eq_some_iff.2 ⟨child, hclimb, h.mem_childIds_iff.1 hchild⟩⟩
    · rintro ⟨n, hn, hclimb⟩
      cases n with
      | zero =>
        left
        simpa [climb] using hclimb
      | succ n =>
        rcases climb_succ_eq_some_iff.1 hclimb with ⟨child, hbelow, hchild⟩
        right
        exact ⟨child, h.mem_childIds_iff.2 hchild, ih.2 ⟨n, Nat.lt_of_succ_lt_succ hn, hbelow⟩⟩

/-- Below two different children of one component there is nothing in common. -/
theorem climb_child_unique (h : t.Grown) {m n : Nat} {a b : NodeId}
    (ha : t.parent? a = some id) (hb : t.parent? b = some id)
    (hm : t.climb m k = some a) (hn : t.climb n k = some b) : a = b := by
  wlog hmn : m ≤ n generalizing m n a b with hwlog
  · exact (hwlog hb ha hn hm (Nat.le_of_not_le hmn)).symm
  · obtain ⟨d, rfl⟩ := Nat.exists_eq_add_of_le hmn
    have hrest : t.climb d a = some b := by
      rw [climb_add, hm] at hn
      exact hn
    cases d with
    | zero => simpa [climb] using hrest
    | succ d =>
      -- the way from `a` to its sibling would lead over their parent, which is older
      have hover : t.climb d id = some b := by
        simpa [climb, ha] using hrest
      exact absurd (h.climb_le hover) (not_le.2 (h.parent_lt hb))

/-- No component is met twice. -/
theorem collect_nodup (h : t.Grown) (fuel : Nat) (id : NodeId) : (t.collect fuel id).Nodup := by
  induction fuel generalizing id with
  | zero => simp [collect]
  | succ fuel ih =>
    rw [collect_succ, List.nodup_cons]
    constructor
    · rw [List.mem_flatMap]
      rintro ⟨child, hchild, hid⟩
      rcases h.mem_collect_iff.1 hid with ⟨n, _, hclimb⟩
      have hlt : id < child := h.parent_lt (h.mem_childIds_iff.1 hchild)
      exact absurd (h.climb_le hclimb) (not_le.2 hlt)
    · rw [List.nodup_flatMap]
      refine ⟨fun child _ => ih child, ?_⟩
      apply (h.childIds_nodup id).imp_of_mem
      intro a b ha hb hne x hxa hxb
      rcases h.mem_collect_iff.1 hxa with ⟨m, _, hm⟩
      rcases h.mem_collect_iff.1 hxb with ⟨n, _, hn⟩
      exact hne (h.climb_child_unique (h.mem_childIds_iff.1 ha) (h.mem_childIds_iff.1 hb) hm hn)

/-- Every component but the first comes after its parent. -/
theorem parent_before_child (h : t.Grown) {fuel : Nat} (hk : k ∈ t.collect fuel id)
    (hne : k ≠ id) (hp : t.parent? k = some p) : [p, k].Sublist (t.collect fuel id) := by
  induction fuel generalizing id with
  | zero => simp [collect] at hk
  | succ fuel ih =>
    rw [collect_succ] at hk ⊢
    have hbelow : k ∈ (t.childIds id).flatMap (t.collect fuel) :=
      (List.mem_cons.1 hk).resolve_left hne
    rcases List.mem_flatMap.1 hbelow with ⟨child, hchild, hkc⟩
    by_cases hkchild : k = child
    · have hpid : p = id := by
        rw [hkchild, h.mem_childIds_iff.1 hchild] at hp
        exact (Option.some.inj hp).symm
      rw [hpid]
      exact (List.singleton_sublist.2 hbelow).cons_cons id
    · have hinner : [p, k].Sublist (t.collect fuel child) := ih hkc hkchild
      have hlist : (t.collect fuel child).Sublist ((t.childIds id).flatMap (t.collect fuel)) :=
        List.sublist_flatten_of_mem (List.mem_map_of_mem hchild)
      exact (hinner.trans hlist).cons id

/-! ## From a component on, and from the root -/

theorem mem_subtree_iff (h : t.Grown) :
    k ∈ t.subtree id ↔ k ∈ t.ids ∧ ∃ n, t.climb n k = some id := by
  by_cases hid : t.contains id = true
  · have hsub : t.subtree id = t.collect (t.size + 1) id := by simp [subtree, hid]
    rw [hsub, h.mem_collect_iff]
    constructor
    · rintro ⟨n, _, hclimb⟩
      refine ⟨?_, n, hclimb⟩
      cases n with
      | zero =>
        have hkid : k = id := by simpa [climb] using hclimb
        exact hkid ▸ mem_ids_iff.2 (contains_iff.1 hid)
      | succ n =>
        rcases Option.bind_eq_some_iff.1 hclimb with ⟨q, hq, _⟩
        rcases parent?_eq_some_iff.1 hq with ⟨c, hc, _⟩
        exact mem_ids_iff.2 ⟨c, hc⟩
    · rintro ⟨hk, n, hclimb⟩
      exact ⟨n, (h.climb_lt_size hk hclimb).trans (Nat.lt_succ_self _), hclimb⟩
  · have hsub : t.subtree id = [] := by simp [subtree, hid]
    rw [hsub]
    apply iff_of_false (by simp)
    rintro ⟨hk, n, hclimb⟩
    exact hid (contains_iff.2 (mem_ids_iff.1 (h.mem_ids_of_climb hk hclimb)))

theorem subtree_nodup (h : t.Grown) (id : NodeId) : (t.subtree id).Nodup := by
  rw [subtree]
  split
  · exact h.collect_nodup _ _
  · exact List.nodup_nil

theorem mem_subtree_root_iff (h : t.Grown) : k ∈ t.subtree t.root ↔ t.contains k = true := by
  rw [h.mem_subtree_iff, contains_iff, ← mem_ids_iff]
  constructor
  · exact And.left
  · intro hk
    exact ⟨hk, h.exists_climb_root hk⟩

/-- The walk from the root meets as many components as there are. -/
theorem length_subtree_root (h : t.Grown) : (t.subtree t.root).length = t.size := by
  have hperm : (t.subtree t.root).Perm t.ids := by
    apply (List.perm_ext_iff_of_nodup (h.subtree_nodup _) h.ids_nodup).2
    intro k
    rw [h.mem_subtree_root_iff, contains_iff, mem_ids_iff]
  have hlen : t.size = t.ids.length := by simp [size, ids]
  rw [hlen]
  exact hperm.length_eq

theorem parent_before_child_root (h : t.Grown) (hp : t.parent? k = some p) :
    [p, k].Sublist (t.subtree t.root) := by
  have hk : t.contains k = true := by
    rcases parent?_eq_some_iff.1 hp with ⟨c, hc, _⟩
    exact contains_iff.2 ⟨c, hc⟩
  have hmem : k ∈ t.subtree t.root := h.mem_subtree_root_iff.2 hk
  have hsub : t.subtree t.root = t.collect (t.size + 1) t.root := by
    simp [subtree, h.contains_root]
  rw [hsub] at hmem ⊢
  exact h.parent_before_child hmem (h.ne_root_of_parent? hp) hp

end Grown
end Tree
end SignalTree
