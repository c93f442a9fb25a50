import SignalTree.Proofs.Tree.Action
import SignalTree.Proofs.Tree.Route

/-!
# Lifetime — from the making of a component to its removal

A component comes into a tree under an identifier that was never given before, and it goes when a
removal takes it along, by itself or below another component.  After that its identifier is not seen
again.

* `Tree.Direct`: what actions keep true of a tree in which everything was made directly;
* `World.Takes`, `World.Removed`: what one action takes along, and what some actions take along;
* `contains_performAll_iff`: a component is there until it is removed;
* `not_contains_performAll`: what is gone does not come back;
* `Grown.contains_of_find`: only live components are found.
-/

namespace SignalTree

variable {σ η : Type}

namespace Tree

variable {t t' : Tree σ η} {a : World.Action σ η} {r : Except Error (Option NodeId)}
  {parent id k : NodeId} {name : String} {c pc : Component σ η}

/-! ## Trees that were made directly -/

/-- What actions keep true of a tree in which everything was made directly. -/
structure Direct (t : Tree σ η) : Prop where
  grown : t.Grown
  builders_bare : t.registry.Bare
  links_distinct : ∀ id c, t.get? id = some c → Keyed.Distinct c.links

theorem Makes.bare {type : String} (hc : t.Makes type c) (hr : t.registry.Bare) : c.Bare := by
  rcases hc with ⟨builder, name, env, made, env', hbuilder, hmade, rfl⟩
  exact hr _ builder name env made env' hbuilder hmade

namespace Direct

theorem new (rootName : String) {registry : Registry σ η} (hr : registry.Bare) :
    (Tree.new rootName registry).Direct where
  grown := Grown.new rootName registry
  builders_bare := hr
  links_distinct := by
    intro id c hc
    rw [(get?_new hc).2]
    exact List.nodup_nil

theorem modify (h : t.Direct) (id : NodeId) {f : Component σ η → Component σ η}
    (hf : KeepsPlace f) (hlinks : ∀ c, Keyed.Distinct c.links → Keyed.Distinct (f c).links) :
    (t.modify id f).Direct where
  grown := h.grown.modify id hf
  builders_bare := h.builders_bare
  links_distinct := by
    intro k d hd
    rcases get?_modify_eq_some_iff.1 hd with ⟨c, hc, rfl⟩
    split
    · exact hlinks c (h.links_distinct k c hc)
    · exact h.links_distinct k c hc

theorem attachTo (h : t.Direct) (hpc : t.get? parent = some pc) (hname : pc.child? name = none)
    (hc : c.Bare) (path : String) :
    (t.attachTo parent name (c.placed name (some parent) path)).Direct where
  grown := h.grown.attachTo hpc hname rfl rfl hc.1
  builders_bare := h.builders_bare
  links_distinct := by
    intro k d hd
    rw [h.grown.get?_attachTo_eq hpc hname] at hd
    split at hd
    · have hlinks : d.links = [] := by rw [← Option.some.inj hd]; exact hc.2
      rw [hlinks]
      exact List.nodup_nil
    · split at hd
      · rw [← Option.some.inj hd]
        exact h.links_distinct parent pc hpc
      · exact h.links_distinct k d hd

theorem detachFrom (h : t.Direct) (hpc : t.get? parent = some pc)
    (hchild : pc.child? name = some k) :
    (t.detachFrom parent name (t.collect (t.size + 1) k)).Direct where
  grown := h.grown.detachFrom hpc hchild
  builders_bare := h.builders_bare
  links_distinct := by
    intro j d hd
    rcases get?_detachFrom_eq_some_iff.1 hd with ⟨_, c, hc, rfl⟩
    split <;> exact h.links_distinct j c hc

end Direct

/-- An action that adds nothing but bare components keeps a tree direct. -/
theorem Effect.direct (h : t.Effect a r t') (ha : a.Direct) (ht : t.Direct) : t'.Direct := by
  cases h with
  | failed a e => exact ht
  | created hc hpc hname _ path => exact ht.attachTo hpc hname (hc.bare ht.builders_bare) path
  | added hpc hname _ path => exact ht.attachTo hpc hname ha path
  | removed hpc hchild => exact ht.detachFrom hpc hchild
  | linked _ _ => exact ht.modify _ (fun _ => ⟨rfl, rfl, rfl⟩) fun _ hd => Keyed.distinct_put hd
  | unlinked _ _ => exact ht.modify _ (fun _ => ⟨rfl, rfl, rfl⟩) fun _ hd => Keyed.distinct_erase hd
  | revised id options signals => exact ht.modify id (fun _ => ⟨rfl, rfl, rfl⟩) fun _ hd => hd
  | surrounded env => exact ht
  | rebuilt r =>
    have hg := ht.grown
    exact ⟨⟨hg.ids_nodup, hg.ids_lt_next, hg.root_live, hg.has_parent, hg.child_live,
      hg.names_distinct⟩, ha, ht.links_distinct⟩

/-! ## What is there after an action -/

theorem contains_modify (t : Tree σ η) (id k : NodeId) (f : Component σ η → Component σ η) :
    (t.modify id f).contains k = t.contains k := by
  rw [contains, contains, get?_modify]
  split <;> simp

theorem Grown.contains_attachTo (h : t.Grown) (hpc : t.get? parent = some pc)
    (hname : pc.child? name = none) :
    (t.attachTo parent name c).contains k = true ↔ t.contains k = true ∨ k = t.next := by
  rw [contains, h.get?_attachTo_eq hpc hname]
  by_cases hk : k = t.next
  · simp [hk]
  · by_cases hp : k = parent
    · subst hp
      simp [hk, contains, hpc]
    · simp [hk, hp, contains]

theorem contains_detachFrom (t : Tree σ η) (parent k : NodeId) (name : String)
    (doomed : List NodeId) :
    (t.detachFrom parent name doomed).contains k = true ↔ t.contains k = true ∧ k ∉ doomed := by
  rw [contains, get?_detachFrom]
  by_cases hk : k ∈ doomed
  · simp [hk]
  · by_cases hp : k = parent
    · subst hp
      simp [hk, contains]
    · simp [hk, hp, contains]

/-- A removal that takes a component along: the component is the child that goes, or below it. -/
def Takes (t : Tree σ η) (a : World.Action σ η) (k : NodeId) : Prop :=
  ∃ parent name pc child, a = .removeChild parent name ∧ t.get? parent = some pc ∧
    pc.child? name = some child ∧ k ∈ t.subtree child

/-- After an action are the components that were there and that it did not take along, and the one
that it made. -/
theorem Effect.contains_iff (h : t.Effect a r t') (ht : t.Grown) :
    t'.contains k = true ↔
      t.contains k = true ∧ ¬ (r.isOk = true ∧ t.Takes a k) ∨
        k = t.next ∧ r = .ok (some t.next) := by
  have hfixed : ∀ {b : World.Action σ η}, (∀ parent name, b ≠ .removeChild parent name) →
      ¬ t.Takes b k := by
    rintro b hb ⟨parent, name, _, _, hremove, _⟩
    exact hb parent name hremove
  cases h with
  | failed a e => simp [Except.isOk, Except.toBool]
  | created hc hpc hname _ path =>
    rw [ht.contains_attachTo hpc hname]
    simp [hfixed]
  | added hpc hname _ path =>
    rw [ht.contains_attachTo hpc hname]
    simp [hfixed]
  | @removed parent child name pc hpc hchild =>
    rw [contains_detachFrom]
    have hmem : (name, child) ∈ pc.children := Keyed.mem_of_lookup_eq_some hchild
    have hlive : t.contains child = true := by
      rcases ht.child_live parent pc name child hpc hmem with ⟨kc, hkc, _⟩
      exact contains_iff.2 ⟨kc, hkc⟩
    have hsub : t.subtree child = t.collect (t.size + 1) child := by simp [subtree, hlive]
    have htakes : t.Takes (.removeChild parent name) k ↔ k ∈ t.collect (t.size + 1) child := by
      rw [← hsub]
      constructor
      · rintro ⟨parent', name', pc', child', heq, hpc', hchild', hk⟩
        cases heq
        have hsame : pc = pc' := Option.some.inj (hpc.symm.trans hpc')
        have hchildren : child = child' := Option.some.inj (hchild.symm.trans (hsame ▸ hchild'))
        exact hchildren ▸ hk
      · intro hk
        exact ⟨parent, name, pc, child, rfl, hpc, hchild, hk⟩
    simp [htakes, Except.isOk, Except.toBool]
  | linked _ _ => simp [contains_modify, hfixed]
  | unlinked _ _ => simp [contains_modify, hfixed]
  | revised id options signals => simp [contains_modify, hfixed]
  | surrounded env => simp [hfixed]
  | rebuilt r =>
    have hsame : ({ t with registry := r } : Tree σ η).contains k = t.contains k := rfl
    simp [hsame, hfixed]

theorem Effect.next_le (h : t.Effect a r t') : t.next ≤ t'.next := by
  cases h with
  | created hc hpc hname _ path => exact Nat.le_succ _
  | added hpc hname _ path => exact Nat.le_succ _
  | _ => exact le_refl _

/-- The component that an action made has the next identifier. -/
theorem Effect.eq_next (h : t.Effect a r t') (hr : r = .ok (some id)) : id = t.next := by
  cases h with
  | created _ _ _ _ _ => exact (Option.some.inj (Except.ok.inj hr)).symm
  | added _ _ _ _ => exact (Option.some.inj (Except.ok.inj hr)).symm
  | failed a e => cases hr
  | _ => simp at hr

/-! ## What is found -/

namespace Grown

theorem contains_of_find (h : t.Grown) {u : Uri} (hk : t.find u = .ok k) :
    t.contains k = true := by
  unfold find at hk
  split at hk
  · cases hk
  · exact h.contains_of_resolve hk

theorem contains_of_mem_subtree (h : t.Grown) (hk : k ∈ t.subtree id) : t.contains k = true :=
  contains_iff.2 (mem_ids_iff.1 (h.mem_subtree_iff.1 hk).1)

end Grown
end Tree

/-! ## Many actions -/

namespace World

variable {w : World σ η} {a : Action σ η} {actions : List (Action σ η)} {k : NodeId}

/-- The action succeeds and takes a component along. -/
def Takes (w : World σ η) (a : Action σ η) (k : NodeId) : Prop :=
  w.succeeds a = true ∧ w.tree.Takes a k

/-- One of the actions takes a component along. -/
def Removed (w : World σ η) (k : NodeId) : List (Action σ η) → Prop
  | [] => False
  | a :: rest => w.Takes a k ∨ Removed (w.perform a).2 k rest

theorem direct_perform (ha : a.Direct) (h : w.tree.Direct) : (w.perform a).2.tree.Direct :=
  (w.perform_effect a).direct ha h

theorem direct_performAll (hactions : ∀ a ∈ actions, a.Direct) (h : w.tree.Direct) :
    (w.performAll actions).tree.Direct := by
  induction actions generalizing w with
  | nil => exact h
  | cons a rest ih =>
    rcases List.forall_mem_cons.1 hactions with ⟨ha, hrest⟩
    exact ih hrest (direct_perform ha h)

/-- What is gone does not come back. -/
theorem not_contains_perform (h : w.tree.Direct) (hold : k < w.tree.next)
    (hgone : ¬ w.tree.contains k = true) : ¬ (w.perform a).2.tree.contains k = true := by
  rw [(w.perform_effect a).contains_iff h.grown]
  rintro (⟨hlive, _⟩ | ⟨hnew, _⟩)
  · exact hgone hlive
  · exact absurd hnew hold.ne

theorem not_contains_performAll (hactions : ∀ a ∈ actions, a.Direct) (h : w.tree.Direct)
    (hold : k < w.tree.next) (hgone : ¬ w.tree.contains k = true) :
    ¬ (w.performAll actions).tree.contains k = true := by
  induction actions generalizing w with
  | nil => exact hgone
  | cons a rest ih =>
    rcases List.forall_mem_cons.1 hactions with ⟨ha, hrest⟩
    have hnext : k < (w.perform a).2.tree.next := hold.trans_le (w.perform_effect a).next_le
    exact ih hrest (direct_perform ha h) hnext (not_contains_perform h hold hgone)

/-- A component that is there stays until an action takes it along. -/
theorem contains_performAll_iff (hactions : ∀ a ∈ actions, a.Direct) (h : w.tree.Direct)
    (hlive : w.tree.contains k = true) :
    (w.performAll actions).tree.contains k = true ↔ ¬ w.Removed k actions := by
  induction actions generalizing w with
  | nil => simpa [performAll, Removed] using hlive
  | cons a rest ih =>
    rcases List.forall_mem_cons.1 hactions with ⟨ha, hrest⟩
    have hold : k < w.tree.next := by
      rcases Tree.contains_iff.1 hlive with ⟨c, hc⟩
      exact h.grown.lt_next hc
    have hstep : (w.perform a).2.tree.contains k = true ↔ ¬ w.Takes a k := by
      rw [(w.perform_effect a).contains_iff h.grown]
      simp [hlive, hold.ne, Takes, succeeds]
    rw [performAll_cons, Removed, not_or]
    by_cases htakes : w.Takes a k
    · have hgone : ¬ (w.perform a).2.tree.contains k = true := by rw [hstep]; exact not_not.2 htakes
      have hnext : k < (w.perform a).2.tree.next := hold.trans_le (w.perform_effect a).next_le
      simp [htakes, not_contains_performAll hrest (direct_perform ha h) hnext hgone]
    · rw [ih hrest (direct_perform ha h) (hstep.2 htakes)]
      simp [htakes]

theorem next_le_performAll (w : World σ η) (actions : List (Action σ η)) :
    w.tree.next ≤ (w.performAll actions).tree.next := by
  induction actions generalizing w with
  | nil => exact le_refl _
  | cons a rest ih => exact (w.perform_effect a).next_le.trans (ih _)

/-- What was removed stays so, whatever comes after. -/
theorem Removed.append (h : w.Removed k actions) (more : List (Action σ η)) :
    w.Removed k (actions ++ more) := by
  induction actions generalizing w with
  | nil => cases h
  | cons a rest ih => exact h.imp id ih

/-- What the actions took along was there before. -/
theorem Removed.lt_next (hactions : ∀ a ∈ actions, a.Direct) (h : w.tree.Direct)
    (hremoved : w.Removed k actions) : k < (w.performAll actions).tree.next ∧
      ¬ (w.performAll actions).tree.contains k = true := by
  induction actions generalizing w with
  | nil => cases hremoved
  | cons a rest ih =>
    rcases List.forall_mem_cons.1 hactions with ⟨ha, hrest⟩
    rcases hremoved with htakes | hlater
    · have hlive : w.tree.contains k = true := by
        rcases htakes.2 with ⟨_, _, _, _, _, _, _, hk⟩
        exact h.grown.contains_of_mem_subtree hk
      rcases Tree.contains_iff.1 hlive with ⟨c, hc⟩
      refine ⟨(h.grown.lt_next hc).trans_le (next_le_performAll w (a :: rest)), ?_⟩
      rw [contains_performAll_iff hactions h hlive]
      exact not_not.2 (Or.inl htakes)
    · exact ih hrest (direct_perform ha h) hlater

/-- A new component gets an identifier that no component had. -/
theorem createChild_eq_next {parent id : NodeId} {type name : String}
    (hid : (w.createChild parent type name).1 = .ok id) : id = w.tree.next := by
  apply (w.createChild_effect parent type name).eq_next
  rw [hid]
  rfl

theorem addChild_eq_next {parent id : NodeId} {c : Component σ η}
    (hid : (w.addChild parent c).1 = .ok id) : id = w.tree.next := by
  apply (w.addChild_effect parent c).eq_next
  rw [hid]
  rfl

end World
end SignalTree
