import SignalTree.Proofs.Tree.Listing
import SignalTree.Proofs.Tree.Run

/-!
# Adoption — what an attached component brings along

A component that is added to a tree is placed under a new name, parent and label, but keeps the
table of children that it comes with.  A fresh component has none.  A copy of a component of the
tree has that of its original, and then two components claim the same children.

* `Tree.SingleOwned`: every component but the root stands in the table of exactly one other;
* `Gains.subtree_eq_iff`, `Gains.not_singleOwned`: what comes of the table of a new component;
* `World.adopts_iff_of_run`: what is added is alone, and owned alone, if it has no children.
-/

namespace SignalTree

variable {σ η : Type}

namespace Tree

variable {t t' : Tree σ η} {id parent k : NodeId} {c original : Component σ η}

/-- A component other than the root stands in the table of exactly one other. -/
def SingleOwned (t : Tree σ η) : Prop :=
  ∀ k, t.contains k = true → k ≠ t.root → ∃! p, ∃ c n, t.get? p = some c ∧ (n, k) ∈ c.children

theorem size_attachTo (t : Tree σ η) (parent : NodeId) (name : String) (c : Component σ η) :
    (t.attachTo parent name c).size = t.size + 1 := by
  have hids : (t.attachTo parent name c).ids.length = t.ids.length + 1 := by
    rw [attachTo, ids_modify, ids_add, List.length_append, List.length_singleton]
  simpa [size, ids] using hids

namespace Gains

/-- The new component is alone in its subtree if it has no children. -/
theorem subtree_eq_iff (h : t.Gains t' id parent c) : t'.subtree id = [id] ↔ c.children = [] := by
  have hlive : t'.contains id = true := contains_iff.2 ⟨c, h.new⟩
  rw [Tree.subtree_eq hlive, collect_eq_cons h.new, List.cons.injEq, and_iff_right rfl]
  constructor
  · intro hnothing
    cases hchildren : c.children with
    | nil => rfl
    | cons p rest =>
      -- the walk goes at least as far down as to the children
      have hpos : 0 < t'.size := by
        have hmem : id ∈ t'.ids := mem_ids_iff.2 ⟨c, h.new⟩
        simpa [size, ids] using List.length_pos_of_mem hmem
      obtain ⟨fuel, hfuel⟩ := Nat.exists_eq_succ_of_ne_zero hpos.ne'
      rw [hchildren, hfuel] at hnothing
      cases hnothing
  · intro hchildren
    rw [hchildren, List.flatMap_nil]

/-- A component keeps what stands in its table. -/
theorem mem_children (h : t.Gains t' id parent c) (hk : t.get? k = some original) :
    ∃ d, t'.get? k = some d ∧ ∀ p ∈ original.children, p ∈ d.children := by
  have hne : k ≠ id := by
    rintro rfl
    rw [h.free] at hk
    cases hk
  by_cases hp : k = parent
  · subst hp
    rcases h.table with ⟨pc, hpc, hpc'⟩
    obtain rfl := Option.some.inj (hpc.symm.trans hk)
    exact ⟨_, hpc', fun p hp => List.mem_append_left _ hp⟩
  · exact ⟨original, (h.others k hne hp).trans hk, fun p hp => hp⟩

/-- A new component with the children of another one takes a share in them. -/
theorem not_singleOwned (h : t.Gains t' id parent c) (ht : t.Grown)
    (hk : t.get? k = some original) (hsame : c.children = original.children)
    (hsome : c.children ≠ []) : ¬ t'.SingleOwned := by
  rcases List.exists_mem_of_ne_nil _ hsome with ⟨⟨n, child⟩, hchild⟩
  rcases ht.child_live k original n child hk (hsame ▸ hchild) with ⟨cc, hcc, hparent, _⟩
  rcases h.mem_children hk with ⟨d, hd, hkeeps⟩
  rcases h.mem_children hcc with ⟨d', hd', _⟩
  have hroot : child ≠ t'.root := by
    rw [h.root]
    exact ht.ne_root_of_parent? (parent?_eq_some_iff.2 ⟨cc, hcc, hparent⟩)
  intro howned
  rcases howned child (contains_iff.2 ⟨d', hd'⟩) hroot with ⟨p, _, hunique⟩
  -- the original still lists the child, and the copy does too
  have hnew : id = p := hunique id ⟨c, n, h.new, hchild⟩
  have hold : k = p := hunique k ⟨d, n, hd, hkeeps _ (hsame ▸ hchild)⟩
  rw [hold.trans hnew.symm, h.free] at hk
  cases hk

end Gains
end Tree

namespace World

variable {w w' : World σ η} {parent id : NodeId} {c : Component σ η}

/-- Adding a component makes the tree larger by one.  The component is alone in its subtree if and
only if it comes without children, and under the same condition every component still stands in one
table only.  So it is for a fresh component, and for a copy of a component of the tree if that has
no children. -/
theorem adopts_iff_of_run {rootName : String} {registry : Registry σ η} {env : Env σ}
    (hr : registry.Plain) (h : Run ⟨Tree.new rootName registry, env⟩ w)
    (hc : c.children = [] ∨ ∃ k, w.tree.get? k = some c)
    (hadd : w.addChild parent c = (.ok id, w')) :
    w'.tree.size = w.tree.size + 1 ∧
      (w'.tree.subtree id = [id] ↔ c.children = []) ∧
      (w'.tree.SingleOwned ↔ c.children = []) := by
  have hgrown : w.tree.Grown := h.grown hr (Tree.Grown.new rootName registry)
  have heffect := w.addChild_effect parent c
  rw [hadd] at heffect
  generalize w'.tree = t' at heffect ⊢
  cases heffect with
  | @added _ _ pc hpc hname hvalid path hpath =>
    let placed := c.placed c.name (some parent) path
    have hgains : w.tree.Gains (w.tree.attachTo parent c.name placed) w.tree.next parent placed :=
      hgrown.gains_attachTo (c := placed) hpc hname
    refine ⟨Tree.size_attachTo _ _ _ _, hgains.subtree_eq_iff, ?_⟩
    constructor
    · intro howned
      by_contra hsome
      -- a component with children is no fresh one, so it is a copy
      rcases hc with hnone | ⟨k, hk⟩
      · exact hsome hnone
      · exact hgains.not_singleOwned hgrown hk rfl hsome howned
    · intro hnone
      have hafter := hgrown.attachTo (c := placed) hpc hname rfl rfl hnone
      exact hafter.wellFormed.owner_unique

/-- A copy of the first component of the branch, with its child. -/
def branchCopy : Component Unit Unit := (branchWorld.tree.get? 1).getD (.new "" "")

/-- A copy of the component at the end of the branch, which has no children. -/
def leafCopy : Component Unit Unit := (branchWorld.tree.get? 2).getD (.new "" "")

theorem run_branchWorld : Run rootAlone branchWorld :=
  .link 3 "end" 2 (.createChild 0 _ "c" (.createChild 1 _ "b" (.createChild 0 _ "a" (.start _))))

/-- A copy without children may be added next to its original. -/
theorem adopts_leafCopy :
    (Registry.standard : Registry Unit Unit).Plain ∧ Run rootAlone branchWorld ∧
    branchWorld.tree.get? 2 = some leafCopy ∧
    ∃ w', branchWorld.addChild 3 leafCopy = (.ok 4, w') ∧ w'.tree.size = 5 ∧
      w'.tree.subtree 4 = [4] ∧ w'.tree.SingleOwned := by
  have hadd : branchWorld.addChild 3 leafCopy = (.ok 4, (branchWorld.addChild 3 leafCopy).2) := rfl
  rcases adopts_iff_of_run Registry.plain_standard run_branchWorld (.inr ⟨2, rfl⟩) hadd with
    ⟨hsize, hsubtree, howned⟩
  exact ⟨Registry.plain_standard, run_branchWorld, rfl, _, hadd, hsize, hsubtree.2 rfl,
    howned.2 rfl⟩

/-- A copy with a child takes a share in it: the child stands in two tables. -/
theorem not_adopts_branchCopy :
    Run rootAlone branchWorld ∧ branchWorld.tree.get? 1 = some branchCopy ∧
    ∃ w', branchWorld.addChild 3 branchCopy = (.ok 4, w') ∧
      w'.tree.subtree 4 = [4, 2] ∧ w'.tree.subtree 1 = [1, 2] ∧ ¬ w'.tree.SingleOwned := by
  refine ⟨run_branchWorld, rfl, _, rfl, rfl, rfl, ?_⟩
  intro howned
  rcases howned 2 rfl (by decide) with ⟨p, _, hunique⟩
  have hold : 1 = p := hunique 1 ⟨_, "b", rfl, List.mem_singleton.2 rfl⟩
  have hnew : 4 = p := hunique 4 ⟨_, "b", rfl, List.mem_singleton.2 rfl⟩
  exact absurd (hold.trans hnew.symm) (by decide)

end World
end SignalTree
