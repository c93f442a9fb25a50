import Mathlib.Data.Finset.Card
import Mathlib.Order.Monotone.Basic
import SignalTree.Proofs.Tree.Action
import SignalTree.Proofs.Tree.Course

/-!
# Rooted — every component stands below the root under valid names

What is said of a tree here asks nothing of the components that come into it: a builder may make one
whose table of children is not empty, so tables may name components that stand elsewhere or that are
gone.  All the same each live component stands in the table of its parent, and a removal takes along
everything below.

* `Tree.Rooted`: what every operation keeps true, whatever it puts into the tree;
* `mem_collect_of_childIds`: what a removal takes along is closed under the tables;
* `Effect.rooted`: one action keeps a tree rooted;
* `Course.rooted`, `Run.rooted`: so does every course, and every run.
-/

namespace SignalTree

variable {σ η : Type}

namespace Tree

variable {t t' : Tree σ η} {id j k parent child : NodeId} {name : String} {c pc : Component σ η}

/-- Every live component but the root is owned by an older one that has it under its name. -/
structure Rooted (t : Tree σ η) : Prop where
  ids_lt_next : ∀ id c, t.get? id = some c → id < t.next
  root_lt_next : t.root < t.next
  root_orphan : ∀ r, t.get? t.root = some r → r.parent = none
  owned : ∀ id c, t.get? id = some c → id ≠ t.root → nameFault c.name = none ∧
    ∃ p pc, c.parent = some p ∧ p < id ∧ t.get? p = some pc ∧ pc.child? c.name = some id

/-! ## What a removal takes along -/

theorem mem_collect_succ_iff {fuel : Nat} :
    k ∈ t.collect (fuel + 1) id ↔ k = id ∨ ∃ p ∈ t.collect fuel id, k ∈ t.childIds p := by
  induction fuel generalizing id with
  | zero =>
    rw [collect_succ]
    simp [collect]
  | succ fuel ih =>
    rw [collect_succ, List.mem_cons, List.mem_flatMap]
    constructor
    · rintro (rfl | ⟨first, hfirst, hk⟩)
      · exact Or.inl rfl
      · right
        rcases ih.1 hk with rfl | ⟨p, hp, hkp⟩
        · exact ⟨id, by simp [collect_succ], hfirst⟩
        · refine ⟨p, ?_, hkp⟩
          rw [collect_succ, List.mem_cons, List.mem_flatMap]
          exact Or.inr ⟨first, hfirst, hp⟩
    · rintro (rfl | ⟨p, hp, hkp⟩)
      · exact Or.inl rfl
      · right
        rw [collect_succ, List.mem_cons, List.mem_flatMap] at hp
        rcases hp with rfl | ⟨first, hfirst, hp⟩
        · exact ⟨k, hkp, by simp [collect_succ]⟩
        · exact ⟨first, hfirst, ih.2 (Or.inr ⟨p, hp, hkp⟩)⟩

theorem collect_subset_succ (t : Tree σ η) (fuel : Nat) (id : NodeId) :
    t.collect fuel id ⊆ t.collect (fuel + 1) id := by
  induction fuel with
  | zero => simp [collect]
  | succ fuel ih =>
    intro k hk
    rcases mem_collect_succ_iff.1 hk with hid | ⟨p, hp, hkp⟩
    · exact mem_collect_succ_iff.2 (Or.inl hid)
    · exact mem_collect_succ_iff.2 (Or.inr ⟨p, ih hp, hkp⟩)

theorem mem_ids_of_childIds (h : k ∈ t.childIds id) : id ∈ t.ids := by
  rw [mem_ids_iff]
  cases hget : t.get? id with
  | none => simp [childIds, hget] at h
  | some c => exact ⟨c, rfl⟩

/-- The live components that a walk of some depth meets. -/
def liveMet (t : Tree σ η) (id : NodeId) (fuel : Nat) : Finset NodeId :=
  t.ids.toFinset.filter fun k => k ∈ t.collect fuel id

theorem liveMet_subset_succ (t : Tree σ η) (id : NodeId) (fuel : Nat) :
    t.liveMet id fuel ⊆ t.liveMet id (fuel + 1) :=
  Finset.monotone_filter_right _ fun _ _ hk => t.collect_subset_succ fuel id hk

/-- A walk that meets no more live components one level deeper meets nothing more at all after
that. -/
theorem collect_succ_subset_of_liveMet_eq {fuel : Nat}
    (h : t.liveMet id fuel = t.liveMet id (fuel + 1)) :
    t.collect (fuel + 2) id ⊆ t.collect (fuel + 1) id := by
  intro k hk
  rcases mem_collect_succ_iff.1 hk with hid | ⟨p, hp, hkp⟩
  · exact mem_collect_succ_iff.2 (Or.inl hid)
  · have hlive : p ∈ t.liveMet id (fuel + 1) := by
      simpa [liveMet, hp] using mem_ids_of_childIds hkp
    rw [← h] at hlive
    exact mem_collect_succ_iff.2 (Or.inr ⟨p, (Finset.mem_filter.1 hlive).2, hkp⟩)

/-- A walk as deep as there are components meets everything below. -/
theorem mem_collect_of_childIds (hp : j ∈ t.collect (t.size + 1) id) (hk : k ∈ t.childIds j) :
    k ∈ t.collect (t.size + 1) id := by
  have hmono : Monotone fun fuel => (t.liveMet id fuel).card :=
    monotone_nat_of_le_succ fun fuel => Finset.card_le_card (t.liveMet_subset_succ id fuel)
  have hbound : ∀ fuel, (t.liveMet id fuel).card ≤ t.size := by
    intro fuel
    have hlen : t.ids.length = t.size := by simp [size, ids]
    exact (Finset.card_filter_le _ _).trans (hlen ▸ t.ids.toFinset_card_le)
  have heq : ∀ {fuel}, (t.liveMet id fuel).card = (t.liveMet id (fuel + 1)).card →
      t.liveMet id fuel = t.liveMet id (fuel + 1) := fun hcard =>
    Finset.eq_of_subset_of_card_le (t.liveMet_subset_succ id _) hcard.ge
  have hstab : ∀ fuel, (t.liveMet id fuel).card = (t.liveMet id (fuel + 1)).card →
      (t.liveMet id (fuel + 1)).card = (t.liveMet id (fuel + 2)).card := by
    intro fuel hcard
    apply le_antisymm (hmono (Nat.le_succ _))
    apply Finset.card_le_card
    exact Finset.monotone_filter_right _ fun _ _ hk =>
      collect_succ_subset_of_liveMet_eq (heq hcard) hk
  -- each level meets a live component more until there are none, so the size is deep enough
  have hstable := Nat.stabilises_of_monotone hmono hbound hstab (Nat.le_succ t.size)
  exact collect_succ_subset_of_liveMet_eq (heq hstable.symm)
    (mem_collect_succ_iff.2 (Or.inr ⟨j, hp, hk⟩))

theorem mem_childIds_of_child? (hc : t.get? id = some c) (hk : c.child? name = some k) :
    k ∈ t.childIds id := by
  simp only [childIds, hc, Option.map_some, Option.getD_some]
  exact List.mem_map_of_mem (Keyed.mem_of_lookup_eq_some hk)

/-! ## Updates -/

namespace Rooted

theorem new (rootName : String) (registry : Registry σ η) :
    (Tree.new rootName registry).Rooted where
  ids_lt_next := by
    intro id c hc
    rw [(get?_new hc).1]
    exact Nat.zero_lt_one
  root_lt_next := Nat.zero_lt_one
  root_orphan := by
    intro r hr
    rw [(get?_new hr).2]
    rfl
  owned := by
    intro id c hc hne
    exact absurd (get?_new hc).1 hne

theorem next_free (h : t.Rooted) : t.get? t.next = none := by
  cases hget : t.get? t.next with
  | none => rfl
  | some c => exact absurd (h.ids_lt_next _ c hget) (lt_irrefl _)

/-- What stands in a tree after a component was attached. -/
theorem get?_attachTo_eq (h : t.Rooted) (hpc : t.get? parent = some pc) (name : String)
    (c : Component σ η) (k : NodeId) :
    (t.attachTo parent name c).get? k =
      if k = parent then some { pc with children := Keyed.put name t.next pc.children }
      else if k = t.next then some c else t.get? k := by
  have hne : parent ≠ t.next := (h.ids_lt_next parent pc hpc).ne
  rw [get?_attachTo h.next_free]
  by_cases hk : k = parent
  · simp [hk, hne, hpc]
  · simp [hk]

/-- A component stays owned if it stays as it is and its owner still has it. -/
theorem owned_of_kept (h : t.Rooted) {d : Component σ η} (hc : t.get? k = some c)
    (hname : d.name = c.name) (hparent : d.parent = c.parent) (hne : k ≠ t.root)
    (howner : ∀ p pc, t.get? p = some pc → p < k → c.parent = some p →
      pc.child? c.name = some k → ∃ pd, t'.get? p = some pd ∧ pd.child? c.name = some k) :
    nameFault d.name = none ∧ ∃ p pd, d.parent = some p ∧ p < k ∧ t'.get? p = some pd ∧
      pd.child? d.name = some k := by
  rcases h.owned k c hc hne with ⟨hvalid, p, pc, hp, hlt, hpc, hchild⟩
  rcases howner p pc hpc hlt hp hchild with ⟨pd, hpd, hkept⟩
  rw [hname, hparent]
  exact ⟨hvalid, p, pd, hp, hlt, hpd, hkept⟩

theorem modify (h : t.Rooted) (id : NodeId) {f : Component σ η → Component σ η}
    (hf : KeepsPlace f) : (t.modify id f).Rooted := by
  have hback := hf.of_get?_modify (t := t) id
  refine ⟨?_, h.root_lt_next, ?_, ?_⟩
  · intro k d hd
    rcases hback k d hd with ⟨c, hc, _⟩
    exact h.ids_lt_next k c hc
  · intro r hr
    rcases hback _ r hr with ⟨c, hc, _, hparent, _⟩
    exact hparent.trans (h.root_orphan c hc)
  · intro k d hd hne
    rcases hback k d hd with ⟨c, hc, hname, hparent, _⟩
    refine h.owned_of_kept hc hname hparent hne ?_
    intro p pc hpc _ _ hchild
    refine ⟨_, get?_modify_eq_some_iff.2 ⟨pc, hpc, rfl⟩, ?_⟩
    split
    · rw [Component.child?, (hf pc).2.2]
      exact hchild
    · exact hchild

theorem attachTo (h : t.Rooted) (hpc : t.get? parent = some pc) (hname : pc.child? name = none)
    (hvalid : nameFault name = none) (hcn : c.name = name) (hcp : c.parent = some parent) :
    (t.attachTo parent name c).Rooted := by
  have hlt : parent < t.next := h.ids_lt_next parent pc hpc
  have hget := h.get?_attachTo_eq hpc name c
  -- a component is the new one, or it was there
  have hback : ∀ k d, (t.attachTo parent name c).get? k = some d → (k = t.next ∧ d = c) ∨
      ∃ c', t.get? k = some c' ∧ d.name = c'.name ∧ d.parent = c'.parent := by
    intro k d hd
    rw [hget] at hd
    split at hd
    · rename_i hk
      rw [← Option.some.inj hd, hk]
      exact Or.inr ⟨pc, hpc, rfl, rfl⟩
    · split at hd
      · rename_i hk
        exact Or.inl ⟨hk, (Option.some.inj hd).symm⟩
      · exact Or.inr ⟨d, hd, rfl, rfl⟩
  refine ⟨?_, h.root_lt_next.trans (Nat.lt_succ_self _), ?_, ?_⟩
  · intro k d hd
    rcases hback k d hd with ⟨rfl, _⟩ | ⟨c', hc', _, _⟩
    · exact Nat.lt_succ_self _
    · exact (h.ids_lt_next k c' hc').trans (Nat.lt_succ_self _)
  · intro r hr
    rcases hback _ r hr with ⟨hroot, _⟩ | ⟨c', hc', _, hparent⟩
    · exact absurd hroot h.root_lt_next.ne
    · exact hparent.trans (h.root_orphan c' hc')
  · intro k d hd hne
    rcases hback k d hd with ⟨rfl, rfl⟩ | ⟨c', hc', hdn, hdp⟩
    · rw [hcn]
      refine ⟨hvalid, parent, _, hcp, hlt, by rw [hget, if_pos rfl], ?_⟩
      simp [Component.child?, Keyed.lookup_put]
    · refine h.owned_of_kept hc' hdn hdp hne ?_
      intro p qc hqc hpk _ hchild
      have hp : p ≠ t.next := (h.ids_lt_next p qc hqc).ne
      rw [hget]
      by_cases hpp : p = parent
      · -- the new entry has another name than the one that is looked for
        subst hpp
        have hsame : qc = pc := Option.some.inj (hqc.symm.trans hpc)
        subst hsame
        have hother : c'.name ≠ name := by
          rintro rfl
          rw [hname] at hchild
          cases hchild
        refine ⟨_, if_pos rfl, ?_⟩
        rw [Component.child?, Keyed.lookup_put, if_neg hother]
        exact hchild
      · exact ⟨qc, by rw [if_neg hpp, if_neg hp, hqc], hchild⟩

theorem detachFrom (h : t.Rooted) (hpc : t.get? parent = some pc)
    (hchild : pc.child? name = some child) :
    (t.detachFrom parent name (t.collect (t.size + 1) child)).Rooted := by
  have hback : ∀ k d, (t.detachFrom parent name (t.collect (t.size + 1) child)).get? k = some d →
      k ∉ t.collect (t.size + 1) child ∧
        ∃ c, t.get? k = some c ∧ d.name = c.name ∧ d.parent = c.parent := by
    intro k d hd
    rcases get?_detachFrom_eq_some_iff.1 hd with ⟨hk, c, hc, rfl⟩
    refine ⟨hk, c, hc, ?_⟩
    split <;> exact ⟨rfl, rfl⟩
  refine ⟨?_, h.root_lt_next, ?_, ?_⟩
  · intro k d hd
    rcases hback k d hd with ⟨_, c, hc, _, _⟩
    exact h.ids_lt_next k c hc
  · intro r hr
    rcases hback _ r hr with ⟨_, c, hc, _, hparent⟩
    exact hparent.trans (h.root_orphan c hc)
  · intro k d hd hne
    rcases hback k d hd with ⟨hk, c, hc, hdn, hdp⟩
    refine h.owned_of_kept hc hdn hdp hne ?_
    intro p qc hqc _ _ hentry
    -- an owner that goes would have taken the component along
    have hstays : p ∉ t.collect (t.size + 1) child := fun hp =>
      hk (mem_collect_of_childIds hp (mem_childIds_of_child? hqc hentry))
    refine ⟨_, get?_detachFrom_eq_some_iff.2 ⟨hstays, qc, hqc, rfl⟩, ?_⟩
    by_cases hpp : p = parent
    · subst hpp
      have hsame : qc = pc := Option.some.inj (hqc.symm.trans hpc)
      subst hsame
      have hother : c.name ≠ name := by
        intro heq
        rw [heq, hchild] at hentry
        apply hk
        rw [← Option.some.inj hentry]
        exact mem_collect_succ_iff.2 (Or.inl rfl)
      rw [if_pos rfl, Component.child?, Keyed.lookup_erase_of_ne _ hother]
      exact hentry
    · rw [if_neg hpp]
      exact hentry

end Rooted

/-- An action keeps a tree rooted, whatever it puts into it. -/
theorem Effect.rooted {a : World.Action σ η} {r : Except Error (Option NodeId)}
    (h : t.Effect a r t') (ht : t.Rooted) : t'.Rooted := by
  cases h with
  | failed a e => exact ht
  | created _ hpc hname hvalid path => exact ht.attachTo hpc hname hvalid rfl rfl
  | added hpc hname hvalid path => exact ht.attachTo hpc hname hvalid rfl rfl
  | removed hpc hchild => exact ht.detachFrom hpc hchild
  | linked _ _ => exact ht.modify _ fun _ => ⟨rfl, rfl, rfl⟩
  | unlinked _ _ => exact ht.modify _ fun _ => ⟨rfl, rfl, rfl⟩
  | revised id options signals => exact ht.modify id fun _ => ⟨rfl, rfl, rfl⟩
  | surrounded env => exact ht
  | rebuilt r => exact ⟨ht.ids_lt_next, ht.root_lt_next, ht.root_orphan, ht.owned⟩

/-- The component that an action made is there after it. -/
theorem Effect.contains_new {a : World.Action σ η} {r : Except Error (Option NodeId)}
    (h : t.Effect a r t') (ht : t.Rooted) (hr : r = .ok (some id)) : t'.contains id = true := by
  have hnew : ∀ {parent : NodeId} {pc : Component σ η} (name : String) (c : Component σ η),
      t.get? parent = some pc → (t.attachTo parent name c).contains t.next = true := by
    intro parent pc name c hpc
    rw [contains, ht.get?_attachTo_eq hpc]
    split <;> simp
  cases h with
  | created _ hpc _ _ path => exact (Option.some.inj (Except.ok.inj hr)) ▸ hnew _ _ hpc
  | added hpc _ _ path => exact (Option.some.inj (Except.ok.inj hr)) ▸ hnew _ _ hpc
  | failed a e => cases hr
  | _ => simp at hr

end Tree

/-! ## Runs -/

namespace World

variable {u v w : World σ η}

theorem rooted_perform (a : Action σ η) (h : w.tree.Rooted) : (w.perform a).2.tree.Rooted :=
  (w.perform_effect a).rooted h

/-- A course keeps a tree rooted, without any condition on the builders. -/
theorem Course.rooted {Allowed : Tree σ η → Action σ η → Prop} (h : Course Allowed u v)
    (hu : u.tree.Rooted) : v.tree.Rooted := by
  have hfree : Course (fun _ _ => True) u v := h.mono fun _ _ _ => trivial
  exact hfree.keeps (fun _ _ _ _ _ => trivial) (fun _ a _ hw => rooted_perform a hw) hu

theorem Run.rooted (hrun : Run u v) (hu : u.tree.Rooted) : v.tree.Rooted := hrun.course.rooted hu

/-- A run that starts at a root alone keeps the tree rooted. -/
theorem rooted_of_run {rootName : String} {registry : Registry σ η} {env : Env σ}
    (hrun : Run ⟨Tree.new rootName registry, env⟩ v) : v.tree.Rooted :=
  hrun.rooted (Tree.Rooted.new rootName registry)

end World
end SignalTree
