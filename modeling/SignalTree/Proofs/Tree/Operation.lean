import SignalTree.Proofs.Tree.Action

/-!
# Operation — what an operation does to the tree

Whatever an operation does besides, and whether it succeeds or fails, it changes the tree by at
most one update (`Tree.Step`).  The lemmas here say so for each operation and for the built-in
signals; from them one lemma follows for the invariant, `Step.grown`.
-/

namespace SignalTree

variable {σ η : Type}

/-- Builders that make components without children, as every component is when it is made. -/
def Registry.Plain (r : Registry σ η) : Prop :=
  ∀ type builder name env c env', r.builder type = .ok builder →
    builder name env = (.ok c, env') → c.children = []

theorem Registry.Bare.plain {r : Registry σ η} (h : r.Bare) : r.Plain := by
  intro type builder name env c env' hb hc
  exact (h type builder name env c env' hb hc).1

theorem Registry.plain_standard : (Registry.standard : Registry σ η).Plain :=
  Registry.bare_standard.plain

namespace Tree

/-- At most one update. -/
inductive Step (t : Tree σ η) : Tree σ η → Prop where
  | keep : Step t t
  | modify (id : NodeId) {f : Component σ η → Component σ η} (hf : KeepsPlace f) :
      Step t (t.modify id f)
  | attach {parent : NodeId} {name : String} {c pc : Component σ η}
      (hpc : t.get? parent = some pc) (hname : pc.child? name = none)
      (hvalid : nameFault name = none) (hcc : c.children = []) (path : String) :
      Step t (t.attachTo parent name (c.placed name (some parent) path))
  | detach {parent child : NodeId} {name : String} {pc : Component σ η}
      (hpc : t.get? parent = some pc) (hchild : pc.child? name = some child) :
      Step t (t.detachFrom parent name (t.collect (t.size + 1) child))

namespace Step

variable {t t' : Tree σ η}

theorem grown (h : t.Step t') (ht : t.Grown) : t'.Grown := by
  cases h with
  | keep => exact ht
  | modify id hf => exact ht.modify id hf
  | attach hpc hname _ hcc path => exact ht.attachTo hpc hname rfl rfl hcc
  | detach hpc hchild => exact ht.detachFrom hpc hchild

theorem registry_eq (h : t.Step t') : t'.registry = t.registry := by
  cases h <;> rfl

end Step

variable {t t' : Tree σ η} {a : World.Action σ η} {r : Except Error (Option NodeId)}

theorem Makes.plain {type : String} {c : Component σ η} (hc : t.Makes type c)
    (hr : t.registry.Plain) : c.children = [] := by
  rcases hc with ⟨builder, name, env, made, env', hbuilder, hmade, rfl⟩
  exact hr _ builder name env made env' hbuilder hmade

/-- An action that leaves the builders alone makes at most one update, if what it puts into the tree
has no children. -/
theorem Effect.step (h : t.Effect a r t')
    (hmade : ∀ parent type name c, a = .createChild parent type name → t.Makes type c →
      c.children = [])
    (hadded : ∀ parent c, a = .addChild parent c → c.children = [])
    (hbuilders : ∀ b, a ≠ .builders b) : t.Step t' := by
  cases h with
  | failed a e => exact .keep
  | created hc hpc hname hvalid path =>
    exact .attach hpc hname hvalid (hmade _ _ _ _ rfl hc) path
  | added hpc hname hvalid path => exact .attach hpc hname hvalid (hadded _ _ rfl) path
  | removed hpc hchild => exact .detach hpc hchild
  | linked _ _ =>
    exact .modify _ (f := fun c => { c with links := Keyed.put _ _ c.links })
      fun _ => ⟨rfl, rfl, rfl⟩
  | unlinked _ _ => exact .modify _ fun _ => ⟨rfl, rfl, rfl⟩
  | revised id options signals => exact .modify id fun _ => ⟨rfl, rfl, rfl⟩
  | surrounded env => exact .keep
  | rebuilt b => exact absurd rfl (hbuilders b)

end Tree

namespace World

open SignalTree.Tree (Step KeepsPlace)

variable (w : World σ η)

/-! ## Components -/

theorem createChild_step (hr : w.tree.registry.Plain) (parent : NodeId) (type name : String) :
    w.tree.Step (w.createChild parent type name).2.tree :=
  (w.createChild_effect parent type name).step (fun _ _ _ _ _ hc => hc.plain hr) nofun nofun

theorem addChild_step (parent : NodeId) {c : Component σ η} (hcc : c.children = []) :
    w.tree.Step (w.addChild parent c).2.tree := by
  refine (w.addChild_effect parent c).step nofun ?_ nofun
  rintro parent' c' heq
  cases heq
  exact hcc

theorem removeChild_step (parent : NodeId) (name : String) :
    w.tree.Step (w.removeChild parent name).2.tree :=
  (w.removeChild_effect parent name).step nofun nofun nofun

/-! ## Links and options -/

theorem link_step (owner : NodeId) (name : String) (target : NodeId) :
    w.tree.Step (w.link owner name target).2.tree :=
  (w.link_effect owner name target).step nofun nofun nofun

theorem unlink_step (owner : NodeId) (name : String) :
    w.tree.Step (w.unlink owner name).2.tree :=
  (w.unlink_effect owner name).step nofun nofun nofun

theorem followLink_tree (owner : NodeId) (name : String) :
    (w.followLink owner name).2.tree = w.tree := by
  unfold followLink
  split <;> rfl

theorem changeOptions_step (id : NodeId)
    (f : Settings σ → Env σ → Except Error Unit × Settings σ × Env σ) :
    w.tree.Step (w.changeOptions id f).2.tree := by
  unfold changeOptions
  cases w.tree.component id with
  | error e => exact Step.keep
  | ok c =>
    exact Step.modify id (f := fun d => { d with options := (f c.options w.env).2.1 })
      fun _ => ⟨rfl, rfl, rfl⟩

theorem setOption_step (id : NodeId) (option : String) (v : Value) :
    w.tree.Step (w.setOption id option v).2.tree :=
  w.changeOptions_step id _

theorem setOptionText_step (id : NodeId) (option text : String) :
    w.tree.Step (w.setOptionText id option text).2.tree :=
  w.changeOptions_step id _

theorem configure_step (id : NodeId) (f : Frame) : w.tree.Step (w.configure id f).2.tree :=
  w.changeOptions_step id _

theorem signature_step (id : NodeId) (name : String) :
    w.tree.Step (w.signature id name).2.tree := by
  unfold signature
  cases w.tree.component id with
  | error e => exact Step.keep
  | ok c =>
    cases hs : c.signals.get name with
    | error e => simpa [hs] using Step.keep
    | ok s =>
      simp only [hs]
      exact Step.modify id fun _ => ⟨rfl, rfl, rfl⟩

/-! ## Signals -/

theorem runCreate_step (hr : w.tree.registry.Plain) (call : Call) :
    w.tree.Step (w.runCreate call).2.tree := by
  unfold runCreate
  extract_lets arguments
  cases arguments with
  | error e => exact Step.keep
  | ok typeAndName =>
    have hstep := w.createChild_step hr call.receiver typeAndName.1 typeAndName.2
    rcases hcreate : w.createChild call.receiver typeAndName.1 typeAndName.2 with ⟨result, w'⟩
    rw [hcreate] at hstep
    cases result with
    | error e => simpa [hcreate] using hstep
    | ok id => simpa [hcreate] using hstep

/-- A built-in signal changes the tree by at most one update too. -/
theorem runBuiltin_step (hr : w.tree.registry.Plain) (b : Builtin) (call : Call) :
    w.tree.Step (w.runBuiltin b call).2.tree := by
  cases b with
  | configure => exact w.configure_step call.receiver call.arguments
  | listOptions => exact Step.keep
  | listSignals => exact Step.keep
  | listTree => exact Step.keep
  | createComponent => exact w.runCreate_step hr call
  | deleteComponent =>
    simp only [runBuiltin]
    cases call.arguments.getString "name" with
    | error e => exact Step.keep
    | ok name => exact w.removeChild_step call.receiver name
  | signature =>
    simp only [runBuiltin]
    cases call.arguments.getString "name" with
    | error e => exact Step.keep
    | ok name => exact w.signature_step call.receiver name

/-- The handler that a call of a signal reaches. -/
def handler? (w : World σ η) (id : NodeId) (name : String) : Option (Handler η) :=
  (w.tree.get? id).bind fun c => (c.signals.get? name).map Signal.handler

/-- The world in which the handler of a call starts. -/
def announced (w : World σ η) (id : NodeId) (name : String) (arguments : Frame) : World σ η :=
  w.emit (.signalDispatched (w.tree.pathText id) name arguments.size)

/-- A call that reaches a handler ends as the handler does. -/
theorem callSignal_eq {behaviour : Behaviour σ η} {id : NodeId} {name : String} {arguments : Frame}
    {h : Handler η} (hh : w.handler? id name = some h) :
    w.callSignal behaviour id name arguments =
      match (w.announced id name arguments).run behaviour h ⟨id, name, arguments⟩ with
      | (.ok reply, v) =>
        (.ok reply, v.emit (.signalCompleted (w.tree.pathText id) name reply.isSome))
      | (.error e, v) =>
        (.error (.inSignal name e), v.emit (.signalFailed (w.tree.pathText id) name e)) := by
  rcases Option.bind_eq_some_iff.1 hh with ⟨c, hc, hhandler⟩
  rcases Option.map_eq_some_iff.1 hhandler with ⟨s, hs, rfl⟩
  rcases hrun : (w.announced id name arguments).run behaviour s.handler ⟨id, name, arguments⟩ with
    ⟨result, v⟩
  rw [announced] at hrun
  cases result with
  | error e =>
    simp only [callSignal, Tree.component_eq_ok_iff.2 hc, Signals.get, hs, hrun]
  | ok reply =>
    simp only [callSignal, Tree.component_eq_ok_iff.2 hc, Signals.get, hs, hrun]

/-- A call changes the tree as the handler does, if it reaches one. -/
theorem callSignal_tree (behaviour : Behaviour σ η) (id : NodeId) (name : String)
    (arguments : Frame) :
    (w.callSignal behaviour id name arguments).2.tree = w.tree ∨
      ∃ h, w.handler? id name = some h ∧ (w.callSignal behaviour id name arguments).2.tree =
        ((w.announced id name arguments).run behaviour h ⟨id, name, arguments⟩).2.tree := by
  cases hh : w.handler? id name with
  | some h =>
    right
    refine ⟨h, rfl, ?_⟩
    rw [w.callSignal_eq hh]
    -- whether the handler succeeds or fails, only messages follow
    split <;> rename_i hrun <;> rw [hrun] <;> rfl
  | none =>
    left
    unfold callSignal
    cases hc : w.tree.get? id with
    | none => simp [Tree.component, hc]
    | some c =>
      have hs : c.signals.get? name = none := by simpa [handler?, hc] using hh
      simp [Tree.component, hc, Signals.get, hs]

end World
end SignalTree
