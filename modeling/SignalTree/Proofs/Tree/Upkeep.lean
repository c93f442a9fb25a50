import SignalTree.Proofs.Tree.Subtree

/-!
# Upkeep — the updates of a tree keep it grown

Every operation on a tree changes it by one of three updates, and each keeps the invariant.

* `Grown.new`: the tree that is its root alone;
* `Grown.modify`: one component changes, but neither its name nor its place;
* `Grown.attachTo`: a component without children is attached under a free name;
* `Grown.detachFrom`: a child goes with everything below it.
-/

namespace SignalTree
namespace Tree

variable {σ η : Type} {t : Tree σ η}

/-- A change of a component that leaves its name, its parent and its children alone. -/
def KeepsPlace (f : Component σ η → Component σ η) : Prop :=
  ∀ c, (f c).name = c.name ∧ (f c).parent = c.parent ∧ (f c).children = c.children

/-- Such a change of one component is not seen in the places of any. -/
theorem KeepsPlace.of_get?_modify {f : Component σ η → Component σ η} (hf : KeepsPlace f)
    (id k : NodeId) (d : Component σ η) (hd : (t.modify id f).get? k = some d) :
    ∃ c, t.get? k = some c ∧ d.name = c.name ∧ d.parent = c.parent ∧ d.children = c.children := by
  rcases get?_modify_eq_some_iff.1 hd with ⟨c, hc, rfl⟩
  refine ⟨c, hc, ?_⟩
  split
  · exact hf c
  · exact ⟨rfl, rfl, rfl⟩

/-- A new tree is its root alone. -/
theorem get?_new {rootName : String} {registry : Registry σ η} {id : NodeId} {c : Component σ η}
    (hc : (Tree.new rootName registry).get? id = some c) :
    id = 0 ∧ c = (Component.new rootName Builtin.groupType).placed rootName none "cpath:/" := by
  have hmem : id ∈ (Tree.new rootName registry).ids := mem_ids_iff.2 ⟨c, hc⟩
  have hid : id = 0 := by simpa [ids, Tree.new] using hmem
  subst hid
  exact ⟨rfl, (Option.some.inj hc).symm⟩

namespace Grown

variable {parent child : NodeId} {name : String} {c pc : Component σ η}

/-! ## A root alone -/

theorem new (rootName : String) (registry : Registry σ η) :
    (Tree.new rootName registry).Grown := by
  have hids : (Tree.new rootName registry).ids = [0] := rfl
  constructor
  · simp [hids]
  · intro id hid
    have hzero : id = 0 := by simpa [hids] using hid
    exact hzero ▸ Nat.zero_lt_one
  · exact ⟨_, rfl, rfl⟩
  · intro id c hc hne
    exact absurd (get?_new hc).1 hne
  · intro id c n k hc hmem
    rw [(get?_new hc).2] at hmem
    cases hmem
  · intro id c hc
    rw [(get?_new hc).2]
    exact List.nodup_nil

/-! ## A change in place -/

theorem modify (h : t.Grown) (id : NodeId) {f : Component σ η → Component σ η}
    (hf : KeepsPlace f) : (t.modify id f).Grown := by
  have hback := hf.of_get?_modify (t := t) id
  have hforth : ∀ k c, t.get? k = some c → ∃ d, (t.modify id f).get? k = some d ∧
      d.name = c.name ∧ d.parent = c.parent ∧ d.children = c.children := by
    intro k c hc
    rw [get?_modify, hc]
    split
    · exact ⟨f c, rfl, hf c⟩
    · exact ⟨c, rfl, rfl, rfl, rfl⟩
  constructor
  · rw [ids_modify]
    exact h.ids_nodup
  · rw [ids_modify]
    exact h.ids_lt_next
  · rcases h.root_live with ⟨r, hr, hparent⟩
    rcases hforth _ r hr with ⟨d, hd, _, hdp, _⟩
    exact ⟨d, hd, hdp.trans hparent⟩
  · intro k d hd hne
    rcases hback k d hd with ⟨c, hc, hname, hparent, _⟩
    rcases h.has_parent k c hc hne with ⟨p, pc, hp, hlt, hpc, hmem⟩
    rcases hforth p pc hpc with ⟨pd, hpd, _, _, hchildren⟩
    refine ⟨p, pd, hparent.trans hp, hlt, hpd, ?_⟩
    rw [hname, hchildren]
    exact hmem
  · intro k d n l hd hmem
    rcases hback k d hd with ⟨c, hc, _, _, hchildren⟩
    rcases h.child_live k c n l hc (hchildren ▸ hmem) with ⟨kc, hkc, hparent, hname⟩
    rcases hforth l kc hkc with ⟨kd, hkd, hkn, hkp, _⟩
    exact ⟨kd, hkd, hkp.trans hparent, hkn.trans hname⟩
  · intro k d hd
    rcases hback k d hd with ⟨c, hc, _, _, hchildren⟩
    rw [hchildren]
    exact h.names_distinct k c hc

/-! ## Attaching -/

/-- What stands in a tree after a component was attached. -/
theorem get?_attachTo_eq (h : t.Grown) (hpc : t.get? parent = some pc)
    (hname : pc.child? name = none) (k : NodeId) :
    (t.attachTo parent name c).get? k =
      if k = t.next then some c
      else if k = parent then some { pc with children := pc.children ++ [(name, t.next)] }
      else t.get? k := by
  have hne : parent ≠ t.next := (h.lt_next hpc).ne
  have hput : Keyed.put name t.next pc.children = pc.children ++ [(name, t.next)] :=
    Keyed.put_of_lookup_eq_none hname
  rw [get?_attachTo h.next_free]
  by_cases hk : k = t.next
  · simp [hk, hne.symm]
  · by_cases hp : k = parent
    · simp [hp, hne, hpc, hput]
    · simp [hk, hp]

theorem lt_next_of_attachTo (h : t.Grown) {id : NodeId}
    (hid : id ∈ (t.attachTo parent name c).ids) : id < (t.attachTo parent name c).next := by
  rw [Tree.attachTo, ids_modify, ids_add, List.mem_append, List.mem_singleton] at hid
  change id < t.next + 1
  rcases hid with hold | rfl
  · exact (h.ids_lt_next id hold).trans (Nat.lt_succ_self _)
  · exact Nat.lt_succ_self _

/-- A component that was there is still there; its table has at most become longer. -/
theorem exists_get?_attachTo (h : t.Grown) (hpc : t.get? parent = some pc)
    (hname : pc.child? name = none) {k : NodeId} {d : Component σ η} (hd : t.get? k = some d) :
    ∃ d', (t.attachTo parent name c).get? k = some d' ∧ d'.name = d.name ∧
      d'.parent = d.parent ∧ ∀ e ∈ d.children, e ∈ d'.children := by
  have hk : k ≠ t.next := (h.lt_next hd).ne
  rw [h.get?_attachTo_eq hpc hname, if_neg hk]
  by_cases hp : k = parent
  · subst hp
    have hsame : d = pc := Option.some.inj (hd.symm.trans hpc)
    subst hsame
    refine ⟨_, if_pos rfl, rfl, rfl, ?_⟩
    intro e he
    exact List.mem_append_left _ he
  · exact ⟨d, by rw [if_neg hp, hd], rfl, rfl, fun _ he => he⟩

/-- A component after the change is the new one, or it was there; only the table of the parent has
a new entry. -/
theorem get?_attachTo_cases (h : t.Grown) (hpc : t.get? parent = some pc)
    (hname : pc.child? name = none) {k : NodeId} {d : Component σ η}
    (hd : (t.attachTo parent name c).get? k = some d) :
    (k = t.next ∧ d = c) ∨ ∃ c', t.get? k = some c' ∧ d.name = c'.name ∧ d.parent = c'.parent ∧
      (d.children = c'.children ∨
        k = parent ∧ c' = pc ∧ d.children = pc.children ++ [(name, t.next)]) := by
  rw [h.get?_attachTo_eq hpc hname] at hd
  by_cases hk : k = t.next
  · rw [if_pos hk] at hd
    exact Or.inl ⟨hk, (Option.some.inj hd).symm⟩
  · rw [if_neg hk] at hd
    right
    by_cases hp : k = parent
    · rw [if_pos hp] at hd
      have hd' := (Option.some.inj hd).symm
      subst hd'
      exact ⟨pc, hp ▸ hpc, rfl, rfl, Or.inr ⟨hp, rfl, rfl⟩⟩
    · rw [if_neg hp] at hd
      exact ⟨d, hd, rfl, rfl, Or.inl rfl⟩

theorem attachTo (h : t.Grown) (hpc : t.get? parent = some pc) (hname : pc.child? name = none)
    (hcn : c.name = name) (hcp : c.parent = some parent) (hcc : c.children = []) :
    (t.attachTo parent name c).Grown := by
  have hget := fun k => h.get?_attachTo_eq (c := c) hpc hname k
  have hlt : parent < t.next := h.lt_next hpc
  constructor
  · rw [Tree.attachTo, ids_modify, ids_add]
    apply List.Nodup.append h.ids_nodup (List.nodup_singleton _)
    rw [List.disjoint_singleton]
    intro hmem
    exact absurd (h.ids_lt_next _ hmem) (lt_irrefl _)
  · intro id hid
    exact h.lt_next_of_attachTo hid
  · rcases h.root_live with ⟨r, hr, hparent⟩
    rcases h.exists_get?_attachTo (c := c) hpc hname hr with ⟨d, hd, _, hdp, _⟩
    exact ⟨d, hd, hdp.trans hparent⟩
  · intro k d hd hne
    rcases h.get?_attachTo_cases hpc hname hd with ⟨rfl, rfl⟩ | ⟨c', hc', hdn, hdp, _⟩
    · refine ⟨parent, _, hcp, hlt, by rw [hget, if_neg hlt.ne, if_pos rfl], ?_⟩
      rw [hcn]
      exact List.mem_append_right _ (List.mem_singleton.2 rfl)
    · -- an old component keeps its parent, whose table has only grown
      rcases h.has_parent k c' hc' hne with ⟨p, qc, hp, hplt, hqc, hmem⟩
      rcases h.exists_get?_attachTo (c := c) hpc hname hqc with ⟨qd, hqd, _, _, hsub⟩
      exact ⟨p, qd, hdp.trans hp, hplt, hqd, hdn ▸ hsub _ hmem⟩
  · intro k d n l hd hmem
    rcases h.get?_attachTo_cases hpc hname hd with ⟨rfl, rfl⟩ | ⟨c', hc', _, _, htable⟩
    · rw [hcc] at hmem
      cases hmem
    · -- the entry is the new one, or it was there before
      have hentry : (k = parent ∧ n = name ∧ l = t.next) ∨ (n, l) ∈ c'.children := by
        rcases htable with hsame | ⟨hk, rfl, hlonger⟩
        · exact Or.inr (hsame ▸ hmem)
        · rw [hlonger, List.mem_append, List.mem_singleton, Prod.mk.injEq] at hmem
          rcases hmem with hold | ⟨hn, hl⟩
          · exact Or.inr hold
          · exact Or.inl ⟨hk, hn, hl⟩
      rcases hentry with ⟨hkp, hn, hl⟩ | hold
      · exact ⟨c, by rw [hget, if_pos hl], hkp ▸ hcp, hn ▸ hcn⟩
      · rcases h.child_live k c' n l hc' hold with ⟨kc, hkc, hparent, hkn⟩
        rcases h.exists_get?_attachTo (c := c) hpc hname hkc with ⟨kd, hkd, hkdn, hkdp, _⟩
        exact ⟨kd, hkd, hkdp.trans hparent, hkdn.trans hkn⟩
  · intro k d hd
    rcases h.get?_attachTo_cases hpc hname hd with ⟨rfl, rfl⟩ | ⟨c', hc', _, _, htable⟩
    · rw [hcc]
      exact List.nodup_nil
    · rcases htable with hsame | ⟨_, rfl, hlonger⟩
      · rw [hsame]
        exact h.names_distinct k c' hc'
      · rw [hlonger]
        exact Keyed.distinct_append_of_lookup_eq_none (h.names_distinct _ _ hc') hname

/-! ## Detaching -/

/-- The components that go with a child are those from which there is a way up to it. -/
theorem mem_doomed_iff (h : t.Grown) {k : NodeId} (hchild : t.contains child = true) :
    k ∈ t.collect (t.size + 1) child ↔ k ∈ t.ids ∧ ∃ n, t.climb n k = some child := by
  rw [← h.mem_subtree_iff, subtree, if_pos hchild]

/-- What goes takes along what is below it. -/
theorem doomed_of_parent_doomed (h : t.Grown) {k p : NodeId} (hchild : t.contains child = true)
    (hk : t.parent? k = some p) (hp : p ∈ t.collect (t.size + 1) child) :
    k ∈ t.collect (t.size + 1) child := by
  rcases (h.mem_doomed_iff hchild).1 hp with ⟨_, n, hclimb⟩
  rcases parent?_eq_some_iff.1 hk with ⟨c, hc, _⟩
  refine (h.mem_doomed_iff hchild).2 ⟨mem_ids_iff.2 ⟨c, hc⟩, n + 1, ?_⟩
  simpa [climb, hk] using hclimb

/-- What goes is the child itself, or its parent goes too. -/
theorem doomed_cases (h : t.Grown) {k : NodeId} (hchild : t.contains child = true)
    (hk : k ∈ t.collect (t.size + 1) child) :
    k = child ∨ ∃ p, t.parent? k = some p ∧ p ∈ t.collect (t.size + 1) child := by
  rcases (h.mem_doomed_iff hchild).1 hk with ⟨_, n, hclimb⟩
  cases n with
  | zero =>
    left
    simpa [climb] using hclimb
  | succ n =>
    rcases Option.bind_eq_some_iff.1 hclimb with ⟨p, hp, hrest⟩
    rcases h.parent?_spec hp with ⟨_, pc, _, _, hpc, _⟩
    right
    exact ⟨p, hp, (h.mem_doomed_iff hchild).2 ⟨mem_ids_iff.2 ⟨pc, hpc⟩, n, hrest⟩⟩

theorem root_notMem_doomed (h : t.Grown) (hchild : t.parent? child = some parent) :
    t.root ∉ t.collect (t.size + 1) child := by
  have hlive : t.contains child = true := by
    rcases parent?_eq_some_iff.1 hchild with ⟨c, hc, _⟩
    exact contains_iff.2 ⟨c, hc⟩
  intro hroot
  rcases h.doomed_cases hlive hroot with heq | ⟨p, hp, _⟩
  · exact h.ne_root_of_parent? hchild heq.symm
  · exact h.ne_root_of_parent? hp rfl

/-- What is left is what it was, without the one entry in the table of the parent. -/
theorem get?_detachFrom_cases (h : t.Grown) {doomed : List NodeId} {k : NodeId}
    {d : Component σ η} (hd : (t.detachFrom parent name doomed).get? k = some d) :
    k ∉ doomed ∧ ∃ c, t.get? k = some c ∧ d.name = c.name ∧ d.parent = c.parent ∧
      Keyed.Distinct d.children ∧
      ∀ e, e ∈ d.children ↔ e ∈ c.children ∧ ¬(k = parent ∧ e.1 = name) := by
  rcases get?_detachFrom_eq_some_iff.1 hd with ⟨hk, c, hc, rfl⟩
  have hdistinct := h.names_distinct k c hc
  refine ⟨hk, c, hc, ?_⟩
  by_cases hp : k = parent
  · rw [if_pos hp]
    refine ⟨rfl, rfl, Keyed.distinct_erase hdistinct, ?_⟩
    intro e
    rw [Keyed.mem_erase_iff hdistinct]
    simp [hp]
  · rw [if_neg hp]
    exact ⟨rfl, rfl, hdistinct, fun e => by simp [hp]⟩

theorem exists_get?_detachFrom {doomed : List NodeId} {k : NodeId} (hk : k ∉ doomed)
    (hc : t.get? k = some c) : ∃ d, (t.detachFrom parent name doomed).get? k = some d :=
  ⟨_, get?_detachFrom_eq_some_iff.2 ⟨hk, c, hc, rfl⟩⟩

theorem detachFrom (h : t.Grown) (hpc : t.get? parent = some pc)
    (hchild : pc.child? name = some child) :
    (t.detachFrom parent name (t.collect (t.size + 1) child)).Grown := by
  have hentry : (name, child) ∈ pc.children := Keyed.mem_of_lookup_eq_some hchild
  have hdistinct : Keyed.Distinct pc.children := h.names_distinct parent pc hpc
  have hup : t.parent? child = some parent :=
    h.parent?_eq_some_iff_child.2 ⟨pc, name, hpc, hentry⟩
  have hlive : t.contains child = true := by
    rcases parent?_eq_some_iff.1 hup with ⟨c, hc, _⟩
    exact contains_iff.2 ⟨c, hc⟩
  have hsub : (t.detachFrom parent name (t.collect (t.size + 1) child)).ids.Sublist t.ids := by
    rw [Tree.detachFrom, ids_modify]
    exact ids_remove_sublist t _
  constructor
  · exact h.ids_nodup.sublist hsub
  · intro id hid
    exact h.ids_lt_next id (hsub.subset hid)
  · rcases h.root_live with ⟨r, hr, hparent⟩
    rcases exists_get?_detachFrom (h.root_notMem_doomed hup) hr with ⟨d, hd⟩
    rcases h.get?_detachFrom_cases hd with ⟨_, c, hc, _, hdp, _⟩
    have hsame : r = c := Option.some.inj (hr.symm.trans hc)
    exact ⟨d, hd, hdp.trans (hsame ▸ hparent)⟩
  · intro k d hd hne
    rcases h.get?_detachFrom_cases hd with ⟨hk, c, hc, hname, hparent, _⟩
    rcases h.has_parent k c hc hne with ⟨p, qc, hp, hlt, hqc, hmem⟩
    have hkp : t.parent? k = some p := parent?_eq_some_iff.2 ⟨c, hc, hp⟩
    have hpstays : p ∉ t.collect (t.size + 1) child :=
      fun hdoomed => hk (h.doomed_of_parent_doomed hlive hkp hdoomed)
    rcases exists_get?_detachFrom hpstays hqc with ⟨qd, hqd⟩
    rcases h.get?_detachFrom_cases hqd with ⟨_, qc', hqc', _, _, _, hentries⟩
    have hsame : qc = qc' := Option.some.inj (hqc.symm.trans hqc')
    refine ⟨p, qd, hparent.trans hp, hlt, hqd, (hentries _).2 ⟨hname ▸ hsame ▸ hmem, ?_⟩⟩
    rintro ⟨rfl, hgone : d.name = name⟩
    -- the entry that was erased is the one of the child, which does not stay
    have hqpc : qc = pc := Option.some.inj (hqc.symm.trans hpc)
    have hkname : pc.child? name = some k := by
      have hlook := Keyed.lookup_eq_some_of_mem hdistinct (hqpc ▸ hmem)
      rw [← hname, hgone] at hlook
      exact hlook
    have hkchild : k = child := Option.some.inj (hkname.symm.trans hchild)
    exact hk ((h.mem_doomed_iff hlive).2 ⟨mem_ids_iff.2 ⟨c, hc⟩, 0, by rw [hkchild, climb]⟩)
  · intro k d n l hd hmem
    rcases h.get?_detachFrom_cases hd with ⟨hk, c, hc, _, _, _, hentries⟩
    rcases (hentries _).1 hmem with ⟨hold, hkeep⟩
    rcases h.child_live k c n l hc hold with ⟨lc, hlc, hlp, hln⟩
    have hlk : t.parent? l = some k := parent?_eq_some_iff.2 ⟨lc, hlc, hlp⟩
    have hl : l ∉ t.collect (t.size + 1) child := by
      intro hdoomed
      rcases h.doomed_cases hlive hdoomed with rfl | ⟨p, hp, hpdoomed⟩
      · have hkparent : k = parent := Option.some.inj (hlk.symm.trans hup)
        have hnname : n = name := by
          rcases (h.child_iff hlc hpc name).1 hentry with ⟨_, hname⟩
          rw [hname, hln]
        exact hkeep ⟨hkparent, hnname⟩
      · rw [hlk] at hp
        exact hk (Option.some.inj hp ▸ hpdoomed)
    rcases exists_get?_detachFrom hl hlc with ⟨ld, hld⟩
    rcases h.get?_detachFrom_cases hld with ⟨_, lc', hlc', hldn, hldp, _⟩
    have hsame : lc = lc' := Option.some.inj (hlc.symm.trans hlc')
    exact ⟨ld, hld, hldp.trans (hsame ▸ hlp), hldn.trans (hsame ▸ hln)⟩
  · intro k d hd
    rcases h.get?_detachFrom_cases hd with ⟨_, _, _, _, _, hdist, _⟩
    exact hdist

end Grown
end Tree
end SignalTree
