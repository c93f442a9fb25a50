import SignalTree.Proofs.Tree.Lifetime

/-!
# Binding — what a link leads to, and what was done to it

A link of a component is bound and unbound by name.  What following it gives is told by the last of
the actions that did so, and by what was removed since.

* `World.Silent`: no action of a list binds or unbinds a link;
* `World.LastBinding`: the last action that did;
* `LastBinding.link?_performAll`: the table of links holds what the last binding put there;
* `followLink_eq_ok_iff`, `followLink_eq_dangling_iff`, `followLink_eq_notFound_iff`: what following
  a link gives after some actions;
* `Removed.unseen`: what was removed is not seen again;
* `followLink_performAll`: both of this, for a tree that started as its root alone.
-/

namespace SignalTree

variable {σ η : Type}

/-! ## One action -/

namespace World

/-- The action is about binding a link of a component. -/
def Action.Binds (owner : NodeId) (name : String) : Action σ η → Prop
  | .link o n _ => o = owner ∧ n = name
  | .unlink o n => o = owner ∧ n = name
  | _ => False

instance (owner : NodeId) (name : String) (a : Action σ η) : Decidable (a.Binds owner name) := by
  cases a <;> unfold Action.Binds <;> infer_instance

theorem Action.binds_cases {owner : NodeId} {name : String} {a : Action σ η}
    (h : a.Binds owner name) :
    (∃ target, a = .link owner name target) ∨ a = .unlink owner name := by
  cases a with
  | link o n target =>
    rcases h with ⟨rfl, rfl⟩
    exact Or.inl ⟨target, rfl⟩
  | unlink o n =>
    rcases h with ⟨rfl, rfl⟩
    exact Or.inr rfl
  | _ => cases h

/-- What the action binds a link to, if it binds one. -/
def Action.target? : Action σ η → Option NodeId
  | .link _ _ target => some target
  | _ => none

end World

namespace Tree

variable {t t' : Tree σ η} {a : World.Action σ η} {r : Except Error (Option NodeId)}
  {owner : NodeId} {name : String} {c : Component σ η}

/-- What a link is bound to, be it there or not; none also for a component that is not there. -/
def link? (t : Tree σ η) (owner : NodeId) (name : String) : Option NodeId :=
  (t.get? owner).bind fun c => c.link? name

theorem link?_of_get? (hc : t.get? owner = some c) : t.link? owner name = c.link? name := by
  simp [link?, hc]

theorem link?_of_not_contains (h : ¬ t.contains owner = true) : t.link? owner name = none := by
  cases hget : t.get? owner with
  | none => simp [link?, hget]
  | some c => exact absurd (contains_iff.2 ⟨c, hget⟩) h

/-- A change of one component, told by what it does to the links of that component. -/
theorem link?_modify (t : Tree σ η) (id owner : NodeId) (name : String)
    (f : Component σ η → Component σ η) :
    (t.modify id f).link? owner name =
      if owner = id then (t.get? owner).bind fun c => (f c).link? name else t.link? owner name := by
  rw [link?, get?_modify]
  by_cases ho : owner = id
  · cases t.get? owner <;> simp [ho]
  · simp [ho, link?]

/-- A new component has no links, and under its identifier there were none. -/
theorem Direct.link?_attachTo (h : t.Direct) {parent : NodeId} {n : String} {c pc : Component σ η}
    (hc : c.Bare) (hpc : t.get? parent = some pc) (hn : pc.child? n = none) (path : String) :
    (t.attachTo parent n (c.placed n (some parent) path)).link? owner name =
      t.link? owner name := by
  rw [link?, h.grown.get?_attachTo_eq hpc hn]
  by_cases hnew : owner = t.next
  · have hlinks : c.links = [] := hc.2
    simp [hnew, link?, h.grown.next_free, Component.link?, Component.placed, hlinks]
  · by_cases hp : owner = parent
    · subst hp
      simp [hnew, link?, hpc, Component.link?]
    · simp [hnew, hp, link?]

/-- After an action a link of a live component is bound to what the action binds it to, or it is
bound as before. -/
theorem Effect.link?_eq (h : t.Effect a r t') (ha : a.Direct) (ht : t.Direct)
    (hlive : t'.contains owner = true) :
    t'.link? owner name =
      if r.isOk = true ∧ a.Binds owner name then a.target? else t.link? owner name := by
  cases h with
  | failed a e => simp [Except.isOk, Except.toBool]
  | created hc hpc hname _ path =>
    rw [ht.link?_attachTo (hc.bare ht.builders_bare) hpc hname]
    simp [World.Action.Binds]
  | added hpc hname _ path =>
    rw [ht.link?_attachTo ha hpc hname]
    simp [World.Action.Binds]
  | @removed parent child n pc hpc hchild =>
    have hstays := ((contains_detachFrom t parent owner n _).1 hlive).2
    rw [link?, get?_detachFrom, if_neg hstays]
    by_cases hp : owner = parent
    · subst hp
      simp [World.Action.Binds, link?, hpc, Component.link?]
    · simp [hp, World.Action.Binds, link?]
  | @linked o target n oc tc hoc htc =>
    rw [link?_modify]
    by_cases ho : owner = o
    · subst ho
      rw [if_pos rfl, hoc]
      simp only [Option.bind_some, Component.link?, Keyed.lookup_put, Except.isOk, Except.toBool,
        World.Action.Binds, World.Action.target?, true_and]
      by_cases hn : name = n
      · simp [hn]
      · simp [hn, Ne.symm hn, link?, hoc, Component.link?]
    · have hne : ¬ o = owner := Ne.symm ho
      simp [ho, hne, World.Action.Binds]
  | @unlinked o target n oc hoc hlink =>
    rw [link?_modify]
    by_cases ho : owner = o
    · subst ho
      rw [if_pos rfl, hoc]
      simp only [Option.bind_some, Component.link?, Keyed.lookup_erase (ht.links_distinct _ _ hoc),
        Except.isOk, Except.toBool, World.Action.Binds, World.Action.target?, true_and]
      by_cases hn : name = n
      · simp [hn]
      · simp [hn, Ne.symm hn, link?, hoc, Component.link?]
    · have hne : ¬ o = owner := Ne.symm ho
      simp [ho, hne, World.Action.Binds]
  | revised id options signals =>
    rw [link?_modify]
    simp [World.Action.Binds, link?, Component.link?]
  | surrounded env => simp [World.Action.Binds]
  | rebuilt r => simp [World.Action.Binds, link?, get?]

/-- A link is bound only between components that are there. -/
theorem Effect.live_of_binds (h : t.Effect a r t') (hr : r.isOk = true)
    (hbinds : a.Binds owner name) :
    t'.contains owner = true ∧ ∀ target, a.target? = some target → t'.contains target = true := by
  cases h with
  | linked hoc htc =>
    rcases hbinds with ⟨rfl, rfl⟩
    refine ⟨(contains_modify ..).trans (Tree.contains_iff.2 ⟨_, hoc⟩), ?_⟩
    intro target htarget
    rw [← Option.some.inj htarget]
    exact (contains_modify ..).trans (Tree.contains_iff.2 ⟨_, htc⟩)
  | unlinked hoc _ =>
    rcases hbinds with ⟨rfl, rfl⟩
    refine ⟨(contains_modify ..).trans (Tree.contains_iff.2 ⟨_, hoc⟩), ?_⟩
    intro target htarget
    cases htarget
  | failed a e => cases hr
  | _ => cases hbinds

/-- What following a link gives, told by what the link is bound to. -/
def linkOutcome (t : Tree σ η) (owner : NodeId) (name : String) :
    Option NodeId → Except Error NodeId
  | none => .error (.notFound (t.pathText owner ++ "#" ++ name))
  | some target =>
    if t.contains target = true then .ok target
    else .error (.dangling (t.pathText owner ++ "#" ++ name))

theorem linkTarget_eq_outcome (hlive : t.contains owner = true) :
    t.linkTarget owner name = t.linkOutcome owner name (t.link? owner name) := by
  rcases contains_iff.1 hlive with ⟨c, hc⟩
  have hcomponent : t.component owner = .ok c := component_eq_ok_iff.2 hc
  rw [link?_of_get? hc]
  cases hlink : c.link? name with
  | none =>
    simp [linkTarget, linkOutcome, hcomponent, hlink, bind, Except.bind, throw, throwThe,
      MonadExceptOf.throw]
  | some target =>
    by_cases htarget : t.contains target = true <;>
      simp [linkTarget, linkOutcome, hcomponent, hlink, htarget, bind, Except.bind, pure,
        Except.pure, throw, throwThe, MonadExceptOf.throw]

section Outcome

variable {bound : Option NodeId} {target : NodeId}

theorem linkOutcome_eq_ok_iff :
    t.linkOutcome owner name bound = .ok target ↔
      bound = some target ∧ t.contains target = true := by
  cases bound with
  | none => simp [linkOutcome]
  | some k =>
    by_cases hk : t.contains k = true
    · simp only [linkOutcome, hk, if_true, Except.ok.injEq, Option.some.injEq]
      constructor
      · rintro rfl
        exact ⟨rfl, hk⟩
      · exact And.left
    · simp only [linkOutcome, hk, Bool.false_eq_true, if_false, reduceCtorEq, Option.some.injEq,
        false_iff, not_and]
      rintro rfl
      exact hk

theorem linkOutcome_eq_dangling_iff {l : String} :
    t.linkOutcome owner name bound = .error (.dangling l) ↔
      t.pathText owner ++ "#" ++ name = l ∧
        ∃ target, bound = some target ∧ ¬ t.contains target = true := by
  cases bound with
  | none => simp [linkOutcome]
  | some k => by_cases hk : t.contains k = true <;> simp [linkOutcome, hk]

theorem linkOutcome_eq_notFound_iff {l : String} :
    t.linkOutcome owner name bound = .error (.notFound l) ↔
      t.pathText owner ++ "#" ++ name = l ∧ bound = none := by
  cases bound with
  | none => simp [linkOutcome]
  | some k => by_cases hk : t.contains k = true <;> simp [linkOutcome, hk]

end Outcome

end Tree

/-! ## Many actions -/

namespace World

variable {w : World σ η} {actions before after : List (Action σ η)} {a : Action σ η}
  {owner : NodeId} {name : String}

/-- None of the actions succeeds in binding or unbinding a link. -/
def Silent (w : World σ η) (owner : NodeId) (name : String) : List (Action σ η) → Prop
  | [] => True
  | a :: rest =>
    (a.Binds owner name → w.succeeds a = false) ∧ Silent (w.perform a).2 owner name rest

/-- Among some actions, `a` is the last one that succeeds in binding or unbinding a link. -/
structure LastBinding (w : World σ η) (actions : List (Action σ η)) (owner : NodeId) (name : String)
    (before : List (Action σ η)) (a : Action σ η) (after : List (Action σ η)) : Prop where
  split : actions = before ++ a :: after
  binds : a.Binds owner name
  success : (w.performAll before).succeeds a = true
  silent : (w.performAll (before ++ [a])).Silent owner name after

/-- A link was left alone, or one of the actions was the last to bind or unbind it. -/
theorem silent_or_lastBinding (w : World σ η) (actions : List (Action σ η)) (owner : NodeId)
    (name : String) :
    w.Silent owner name actions ∨
      ∃ before a after, w.LastBinding actions owner name before a after := by
  induction actions generalizing w with
  | nil => exact Or.inl trivial
  | cons a rest ih =>
    rcases ih (w.perform a).2 with hsilent | ⟨before, b, after, hlast⟩
    · by_cases hbinds : a.Binds owner name ∧ w.succeeds a = true
      · exact Or.inr ⟨[], a, rest, rfl, hbinds.1, hbinds.2, hsilent⟩
      · refine Or.inl ⟨?_, hsilent⟩
        intro ha
        exact Bool.eq_false_iff.2 fun hsuccess => hbinds ⟨ha, hsuccess⟩
    · refine Or.inr ⟨a :: before, b, after, ?_, hlast.binds, hlast.success, hlast.silent⟩
      rw [hlast.split, List.cons_append]

theorem performAll_append_cons (w : World σ η) (before : List (Action σ η)) (a : Action σ η)
    (after : List (Action σ η)) :
    w.performAll (before ++ a :: after) = (w.performAll (before ++ [a])).performAll after := by
  rw [← performAll_append, List.append_assoc, List.singleton_append]

/-- A link that is left alone stays bound as it is. -/
theorem Silent.link?_performAll (hsilent : w.Silent owner name actions)
    (hactions : ∀ a ∈ actions, a.Direct) (h : w.tree.Direct)
    (hlive : (w.performAll actions).tree.contains owner = true) :
    (w.performAll actions).tree.link? owner name = w.tree.link? owner name := by
  induction actions generalizing w with
  | nil => rfl
  | cons a rest ih =>
    rcases List.forall_mem_cons.1 hactions with ⟨ha, hrest⟩
    rw [performAll_cons, ih hsilent.2 hrest (direct_perform ha h) hlive]
    by_cases hnow : (w.perform a).2.tree.contains owner = true
    · rw [(w.perform_effect a).link?_eq ha h hnow, if_neg]
      rintro ⟨hsuccess, hbinds⟩
      have hfails := hsilent.1 hbinds
      rw [succeeds, hsuccess] at hfails
      cases hfails
    · -- the component is made later, so it was not there before either
      have hbefore : ¬ w.tree.contains owner = true := by
        intro hold
        rcases Tree.contains_iff.1 hold with ⟨c, hc⟩
        have hnext := (h.grown.lt_next hc).trans_le (w.perform_effect a).next_le
        exact not_contains_performAll hrest (direct_perform ha h) hnext hnow hlive
      rw [Tree.link?_of_not_contains hnow, Tree.link?_of_not_contains hbefore]

theorem performAll_last_effect (w : World σ η) (before : List (Action σ η)) (a : Action σ η) :
    (w.performAll before).tree.Effect a ((w.performAll before).perform a).1
      (w.performAll (before ++ [a])).tree := by
  rw [performAll_append]
  exact (w.performAll before).perform_effect a

namespace LastBinding

theorem performAll_eq (hlast : w.LastBinding actions owner name before a after) :
    w.performAll actions = (w.performAll (before ++ [a])).performAll after := by
  rw [hlast.split, performAll_append_cons]

/-- Right after the last binding both ends of the link are there. -/
theorem live (hlast : w.LastBinding actions owner name before a after) :
    (w.performAll (before ++ [a])).tree.contains owner = true ∧ ∀ target,
      a.target? = some target → (w.performAll (before ++ [a])).tree.contains target = true :=
  (w.performAll_last_effect before a).live_of_binds hlast.success hlast.binds

theorem direct (hlast : w.LastBinding actions owner name before a after)
    (hactions : ∀ a ∈ actions, a.Direct) (h : w.tree.Direct) :
    (w.performAll before).tree.Direct ∧ (w.performAll (before ++ [a])).tree.Direct ∧
      ∀ b ∈ after, b.Direct := by
  rw [hlast.split] at hactions
  have hbefore : ∀ b ∈ before, b.Direct := fun b hb => hactions b (List.mem_append_left _ hb)
  have ha : a.Direct := hactions a (by simp)
  have hmid : (w.performAll before).tree.Direct := direct_performAll hbefore h
  refine ⟨hmid, (w.performAll_last_effect before a).direct ha hmid, ?_⟩
  intro b hb
  exact hactions b (by simp [hb])

/-- The last binding decides what a link is bound to. -/
theorem link?_performAll (hlast : w.LastBinding actions owner name before a after)
    (hactions : ∀ a ∈ actions, a.Direct) (h : w.tree.Direct)
    (hlive : (w.performAll actions).tree.contains owner = true) :
    (w.performAll actions).tree.link? owner name = a.target? := by
  rcases hlast.direct hactions h with ⟨hbefore, hmid, hafter⟩
  have ha : a.Direct := hactions a (by simp [hlast.split])
  rw [hlast.performAll_eq] at hlive ⊢
  rw [hlast.silent.link?_performAll hafter hmid hlive,
    (w.performAll_last_effect before a).link?_eq ha hbefore hlast.live.1,
    if_pos ⟨hlast.success, hlast.binds⟩]

/-- The target is there until something removes it. -/
theorem contains_target_iff (hlast : w.LastBinding actions owner name before a after)
    (hactions : ∀ a ∈ actions, a.Direct) (h : w.tree.Direct) {target : NodeId}
    (htarget : a.target? = some target) :
    (w.performAll actions).tree.contains target = true ↔
      ¬ (w.performAll (before ++ [a])).Removed target after := by
  rcases hlast.direct hactions h with ⟨_, hmid, hafter⟩
  rw [hlast.performAll_eq]
  exact contains_performAll_iff hafter hmid (hlast.live.2 target htarget)

end LastBinding

/-! ## Following a link -/

theorem followLink_eq_outcome {w : World σ η} (hlive : w.tree.contains owner = true) :
    (w.followLink owner name).1 = w.tree.linkOutcome owner name (w.tree.link? owner name) := by
  rw [← Tree.linkTarget_eq_outcome hlive]
  unfold followLink
  split
  · rename_i l hl
    exact hl.symm
  · rfl

/-- In a new tree no link is bound. -/
theorem link?_new (rootName : String) (registry : Registry σ η) (owner : NodeId) (name : String) :
    (Tree.new rootName registry).link? owner name = none := by
  cases hget : (Tree.new rootName registry).get? owner with
  | none => simp [Tree.link?, hget]
  | some c =>
    rw [Tree.link?_of_get? hget, (Tree.get?_new hget).2]
    rfl

section History

variable (hactions : ∀ a ∈ actions, a.Direct) (h : w.tree.Direct)
  (hunbound : w.tree.link? owner name = none)
  (hlive : (w.performAll actions).tree.contains owner = true)

include hactions h hunbound hlive

/-- A link is bound to a component exactly if the last thing done to it was to bind it there. -/
theorem link?_performAll_eq_some_iff {target : NodeId} :
    (w.performAll actions).tree.link? owner name = some target ↔
      ∃ before after, w.LastBinding actions owner name before (.link owner name target) after := by
  constructor
  · intro hbound
    rcases silent_or_lastBinding w actions owner name with hsilent | ⟨before, a, after, hlast⟩
    · rw [hsilent.link?_performAll hactions h hlive, hunbound] at hbound
      cases hbound
    · rw [hlast.link?_performAll hactions h hlive] at hbound
      rcases Action.binds_cases hlast.binds with ⟨k, rfl⟩ | rfl
      · have hk : k = target := Option.some.inj hbound
        exact ⟨before, after, hk ▸ hlast⟩
      · cases hbound
  · rintro ⟨before, after, hlast⟩
    exact hlast.link?_performAll hactions h hlive

/-- A link is not bound exactly if it was left alone, or if the last thing done to it was to unbind
it. -/
theorem link?_performAll_eq_none_iff :
    (w.performAll actions).tree.link? owner name = none ↔
      w.Silent owner name actions ∨
        ∃ before after, w.LastBinding actions owner name before (.unlink owner name) after := by
  constructor
  · intro hbound
    rcases silent_or_lastBinding w actions owner name with hsilent | ⟨before, a, after, hlast⟩
    · exact Or.inl hsilent
    · rw [hlast.link?_performAll hactions h hlive] at hbound
      rcases Action.binds_cases hlast.binds with ⟨k, rfl⟩ | rfl
      · cases hbound
      · exact Or.inr ⟨before, after, hlast⟩
  · rintro (hsilent | ⟨before, after, hlast⟩)
    · rw [hsilent.link?_performAll hactions h hlive, hunbound]
    · exact hlast.link?_performAll hactions h hlive

/-- What a link is bound to has been there. -/
theorem lt_next_of_link?_performAll {target : NodeId}
    (hbound : (w.performAll actions).tree.link? owner name = some target) :
    target < (w.performAll actions).tree.next := by
  rcases (link?_performAll_eq_some_iff hactions h hunbound hlive).1 hbound with
    ⟨before, after, hlast⟩
  rcases Tree.contains_iff.1 (hlast.live.2 target rfl) with ⟨c, hc⟩
  rw [hlast.performAll_eq]
  exact ((hlast.direct hactions h).2.1.grown.lt_next hc).trans_le (next_le_performAll _ after)

/-- A link leads to a component exactly if the last thing done to it was to bind it there, and the
component is there. -/
theorem followLink_eq_ok_iff {target : NodeId} :
    ((w.performAll actions).followLink owner name).1 = .ok target ↔
      (∃ before after, w.LastBinding actions owner name before (.link owner name target) after) ∧
        (w.performAll actions).tree.contains target = true := by
  rw [followLink_eq_outcome hlive, Tree.linkOutcome_eq_ok_iff,
    link?_performAll_eq_some_iff hactions h hunbound hlive]

/-- A link dangles exactly if the last thing done to it was to bind it to a component that was
removed since. -/
theorem followLink_eq_dangling_iff :
    ((w.performAll actions).followLink owner name).1 =
        .error (.dangling ((w.performAll actions).tree.pathText owner ++ "#" ++ name)) ↔
      ∃ target before after,
        w.LastBinding actions owner name before (.link owner name target) after ∧
        (w.performAll (before ++ [.link owner name target])).Removed target after := by
  rw [followLink_eq_outcome hlive, Tree.linkOutcome_eq_dangling_iff]
  constructor
  · rintro ⟨_, target, hbound, hgone⟩
    rcases (link?_performAll_eq_some_iff hactions h hunbound hlive).1 hbound with
      ⟨before, after, hlast⟩
    refine ⟨target, before, after, hlast, ?_⟩
    by_contra hkept
    exact hgone ((hlast.contains_target_iff hactions h rfl).2 hkept)
  · rintro ⟨target, before, after, hlast, hremoved⟩
    refine ⟨rfl, target, hlast.link?_performAll hactions h hlive, ?_⟩
    intro hkept
    exact (hlast.contains_target_iff hactions h rfl).1 hkept hremoved

/-- A link is not found exactly if it was left alone, or unbound last. -/
theorem followLink_eq_notFound_iff :
    ((w.performAll actions).followLink owner name).1 =
        .error (.notFound ((w.performAll actions).tree.pathText owner ++ "#" ++ name)) ↔
      w.Silent owner name actions ∨
        ∃ before after, w.LastBinding actions owner name before (.unlink owner name) after := by
  rw [followLink_eq_outcome hlive, Tree.linkOutcome_eq_notFound_iff,
    link?_performAll_eq_none_iff hactions h hunbound hlive]
  exact and_iff_right rfl

end History

/-- A dangling link stays so until something is done to it. -/
theorem dangling_performAll (hactions : ∀ a ∈ actions, a.Direct) (h : w.tree.Direct)
    (hlive : w.tree.contains owner = true)
    (hold : ∀ target, w.tree.link? owner name = some target → target < w.tree.next) {l : String}
    (hdangling : (w.followLink owner name).1 = .error (.dangling l))
    (hsilent : w.Silent owner name actions)
    (hstays : (w.performAll actions).tree.contains owner = true) :
    ((w.performAll actions).followLink owner name).1 =
      .error (.dangling ((w.performAll actions).tree.pathText owner ++ "#" ++ name)) := by
  rw [followLink_eq_outcome hlive, Tree.linkOutcome_eq_dangling_iff] at hdangling
  rcases hdangling with ⟨_, target, hbound, hgone⟩
  rw [followLink_eq_outcome hstays, Tree.linkOutcome_eq_dangling_iff,
    hsilent.link?_performAll hactions h hstays]
  exact ⟨rfl, target, hbound, not_contains_performAll hactions h (hold target hbound) hgone⟩

/-- What was removed is not seen again: it is not there, no path and no component leads to it, and
no new component gets its identifier. -/
theorem Removed.unseen {gone : NodeId} (hremoved : w.Removed gone actions)
    (hactions : ∀ a ∈ actions, a.Direct) (h : w.tree.Direct) :
    let later := w.performAll actions
    later.tree.contains gone = false ∧
    (∀ origin path, later.tree.resolve origin path ≠ .ok gone) ∧
    (∀ u, later.tree.find u ≠ .ok gone) ∧
    (∀ id, gone ∉ later.tree.subtree id) ∧
    (∀ parent type name, (later.createChild parent type name).1 ≠ .ok gone) ∧
    (∀ parent c, (later.addChild parent c).1 ≠ .ok gone) := by
  intro later
  have hlater : later.tree.Grown := (direct_performAll hactions h).grown
  rcases hremoved.lt_next hactions h with ⟨hold, hgone⟩
  refine ⟨Bool.eq_false_iff.2 hgone, ?_, ?_, ?_, ?_, ?_⟩
  · intro origin path hresolve
    exact hgone (hlater.contains_of_resolve hresolve)
  · intro u hfind
    exact hgone (hlater.contains_of_find hfind)
  · intro id hmem
    exact hgone (hlater.contains_of_mem_subtree hmem)
  · intro parent type name hmade
    exact absurd (createChild_eq_next hmade) hold.ne
  · intro parent c hmade
    exact absurd (addChild_eq_next hmade) hold.ne

/-- What becomes of a link, told by the last action that bound or unbound it: its target as long as
that is there, a dangling link once the target is removed, and nothing if it was never bound or if
it was unbound.  A dangling link stays so whatever is done, until it is bound or unbound again; and
what was removed is not seen again, under any path and after any actions. -/
theorem followLink_performAll {rootName : String} {registry : Registry σ η} {env : Env σ}
    {actions : List (Action σ η)} (hr : registry.Bare) (hactions : ∀ a ∈ actions, a.Direct) :
    let start : World σ η := ⟨Tree.new rootName registry, env⟩
    let w := start.performAll actions
    (∀ owner name, w.tree.contains owner = true →
      (∀ target, (w.followLink owner name).1 = .ok target ↔
        (∃ before after, start.LastBinding actions owner name before
          (.link owner name target) after) ∧ w.tree.contains target = true) ∧
      ((w.followLink owner name).1 = .error (.dangling (w.tree.pathText owner ++ "#" ++ name)) ↔
        ∃ target before after,
          start.LastBinding actions owner name before (.link owner name target) after ∧
          (start.performAll (before ++ [.link owner name target])).Removed target after) ∧
      ((w.followLink owner name).1 = .error (.notFound (w.tree.pathText owner ++ "#" ++ name)) ↔
        start.Silent owner name actions ∨ ∃ before after,
          start.LastBinding actions owner name before (.unlink owner name) after) ∧
      ((∃ l, (w.followLink owner name).1 = .error (.dangling l)) →
        ∀ more, (∀ a ∈ more, a.Direct) → w.Silent owner name more →
          (w.performAll more).tree.contains owner = true →
          ((w.performAll more).followLink owner name).1 =
            .error (.dangling ((w.performAll more).tree.pathText owner ++ "#" ++ name)))) ∧
    (∀ gone, start.Removed gone actions → ∀ more, (∀ a ∈ more, a.Direct) →
      let later := w.performAll more
      later.tree.contains gone = false ∧
      (∀ origin path, later.tree.resolve origin path ≠ .ok gone) ∧
      (∀ u, later.tree.find u ≠ .ok gone) ∧
      (∀ id, gone ∉ later.tree.subtree id) ∧
      (∀ parent type name, (later.createChild parent type name).1 ≠ .ok gone) ∧
      (∀ parent c, (later.addChild parent c).1 ≠ .ok gone)) := by
  intro start w
  have hstart : start.tree.Direct := Tree.Direct.new rootName hr
  have hunbound : ∀ owner name, start.tree.link? owner name = none := link?_new rootName registry
  constructor
  · intro owner name hlive
    refine ⟨fun target => followLink_eq_ok_iff hactions hstart (hunbound owner name) hlive,
      followLink_eq_dangling_iff hactions hstart (hunbound owner name) hlive,
      followLink_eq_notFound_iff hactions hstart (hunbound owner name) hlive, ?_⟩
    rintro ⟨l, hdangling⟩ more hmore hsilent hstays
    exact dangling_performAll hmore (direct_performAll hactions hstart) hlive
      (fun _ => lt_next_of_link?_performAll hactions hstart (hunbound owner name) hlive) hdangling
      hsilent hstays
  · intro gone hremoved more hmore
    rw [← performAll_append]
    exact (hremoved.append more).unseen (List.forall_mem_append.2 ⟨hactions, hmore⟩) hstart

/-- A link is bound, its target is removed along with its parent, and both are made again. -/
def relinkedActions : List (Action Unit Unit) :=
  [.createChild 0 Builtin.groupType "Tools", .createChild 1 Builtin.groupType "mesh",
    .link 0 "grid" 2, .removeChild 0 "Tools", .createChild 0 Builtin.groupType "Tools",
    .createChild 3 Builtin.groupType "mesh"]

theorem followLink_relinkedActions :
    (Registry.standard : Registry Unit Unit).Bare ∧ (∀ a ∈ relinkedActions, a.Direct) ∧
      ((rootAlone.performAll relinkedActions).followLink 0 "grid").1 =
        .error (.dangling "cpath:/#grid") ∧
      (rootAlone.performAll relinkedActions).tree.resolve 0 "/Tools/mesh" = .ok 4 ∧
      ∀ more, (∀ a ∈ more, a.Direct) →
        ((rootAlone.performAll relinkedActions).performAll more).tree.contains 2 = false := by
  have hdirect : ∀ a ∈ relinkedActions, a.Direct := by simp [relinkedActions, Action.Direct]
  have h := @followLink_performAll Unit Unit "Root" Registry.standard ⟨[], (), []⟩ _
    Registry.bare_standard hdirect
  have hremoved : (rootAlone.performAll (relinkedActions.take 3)).Removed 2
      (relinkedActions.drop 3) :=
    Or.inl ⟨rfl, 0, "Tools", _, 1, rfl, rfl, rfl, by decide⟩
  have hlast : rootAlone.LastBinding relinkedActions 0 "grid" (relinkedActions.take 2)
      (.link 0 "grid" 2) (relinkedActions.drop 3) :=
    ⟨rfl, ⟨rfl, rfl⟩, rfl, by simp [Silent, relinkedActions, Action.Binds]⟩
  refine ⟨Registry.bare_standard, hdirect, ?_, rfl, ?_⟩
  · exact (h.1 0 "grid" rfl).2.1.2 ⟨2, _, _, hlast, hremoved⟩
  · intro more hmore
    exact (h.2 2 (Or.inr (Or.inr (Or.inr hremoved))) more hmore).1

end World
end SignalTree
