import SignalTree.Proofs.Tree.Operation
import SignalTree.Proofs.Tree.WellFormed

/-!
# Run — trees that operations lead to

A run is any sequence of operations on a tree, of any length and in any order, each of which may
succeed or fail.  A signal may be called in between; its handler is a run of its own, inside which
signals may be called again.

* `World.Run`: the runs;
* `Run.grown`: every run keeps a tree grown;
* `wellFormed_of_run`: a tree that started as its root alone is well formed after every run.
-/

namespace SignalTree
namespace World

variable {σ η : Type}

/-- `Run u v`: some operations lead from `u` to `v`. -/
inductive Run : World σ η → World σ η → Prop where
  | start (u : World σ η) : Run u u
  | createChild {u v : World σ η} (parent : NodeId) (type name : String) :
      Run u v → Run u (v.createChild parent type name).2
  /-- The component is fresh: it brings no children of its own. -/
  | addChild {u v : World σ η} (parent : NodeId) (c : Component σ η) (hcc : c.children = []) :
      Run u v → Run u (v.addChild parent c).2
  | removeChild {u v : World σ η} (parent : NodeId) (name : String) :
      Run u v → Run u (v.removeChild parent name).2
  | link {u v : World σ η} (owner : NodeId) (name : String) (target : NodeId) :
      Run u v → Run u (v.link owner name target).2
  | unlink {u v : World σ η} (owner : NodeId) (name : String) :
      Run u v → Run u (v.unlink owner name).2
  | followLink {u v : World σ η} (owner : NodeId) (name : String) :
      Run u v → Run u (v.followLink owner name).2
  | setOption {u v : World σ η} (id : NodeId) (option : String) (value : Value) :
      Run u v → Run u (v.setOption id option value).2
  | setOptionText {u v : World σ η} (id : NodeId) (option text : String) :
      Run u v → Run u (v.setOptionText id option text).2
  | configure {u v : World σ η} (id : NodeId) (f : Frame) :
      Run u v → Run u (v.configure id f).2
  | signature {u v : World σ η} (id : NodeId) (name : String) :
      Run u v → Run u (v.signature id name).2
  /-- A call of a signal.  If it reaches a handler of the embedding program, then what this handler
  does is a run. -/
  | callSignal {u v : World σ η} (behaviour : Behaviour σ η) (id : NodeId) (name : String)
      (arguments : Frame)
      (handled : ∀ h, v.handler? id name = some (.custom h) →
        Run (v.announced id name arguments)
          (behaviour h ⟨id, name, arguments⟩ (v.announced id name arguments)).2) :
      Run u v → Run u (v.callSignal behaviour id name arguments).2
  /-- The surroundings may change at any time. -/
  | surroundings {u v : World σ η} (env : Env σ) : Run u v → Run u { v with env }
  /-- So may the registry, as long as its builders make plain components. -/
  | registry {u v : World σ η} (r : Registry σ η) (hr : r.Plain) :
      Run u v → Run u { v with tree := { v.tree with registry := r } }

namespace Run

variable {u v : World σ η}

/-- What a run keeps: the tree is grown, and its registry makes plain components. -/
def Sound (w : World σ η) : Prop := w.tree.Grown ∧ w.tree.registry.Plain

theorem Sound.step {w w' : World σ η} (h : Sound w) (hstep : w.tree.Step w'.tree) : Sound w' :=
  ⟨hstep.grown h.1, hstep.registry_eq ▸ h.2⟩

theorem Sound.of_tree_eq {w w' : World σ η} (h : Sound w) (htree : w'.tree = w.tree) :
    Sound w' := by
  rw [Sound, htree]
  exact h

/-- The run lemma. -/
theorem sound (h : Run u v) (hu : Sound u) : Sound v := by
  induction h with
  | start u => exact hu
  | @createChild u v parent type name _ ih =>
    exact (ih hu).step (v.createChild_step (ih hu).2 parent type name)
  | @addChild u v parent c hcc _ ih => exact (ih hu).step (v.addChild_step parent hcc)
  | @removeChild u v parent name _ ih => exact (ih hu).step (v.removeChild_step parent name)
  | @link u v owner name target _ ih => exact (ih hu).step (v.link_step owner name target)
  | @unlink u v owner name _ ih => exact (ih hu).step (v.unlink_step owner name)
  | @followLink u v owner name _ ih => exact (ih hu).of_tree_eq (v.followLink_tree owner name)
  | @setOption u v id option value _ ih => exact (ih hu).step (v.setOption_step id option value)
  | @setOptionText u v id option text _ ih =>
    exact (ih hu).step (v.setOptionText_step id option text)
  | @configure u v id f _ ih => exact (ih hu).step (v.configure_step id f)
  | @signature u v id name _ ih => exact (ih hu).step (v.signature_step id name)
  | @callSignal u v behaviour id name arguments _ _ ihHandler ih =>
    have hv : Sound v := ih hu
    have hannounced : Sound (v.announced id name arguments) := hv.of_tree_eq rfl
    rcases v.callSignal_tree behaviour id name arguments with htree | ⟨h, hh, htree⟩
    · exact hv.of_tree_eq htree
    · -- a handler of the program makes a run of its own, which is sound by induction
      cases h with
      | builtin b =>
        refine Sound.of_tree_eq ?_ htree
        exact hannounced.step ((v.announced id name arguments).runBuiltin_step hannounced.2 b _)
      | custom h => exact (ihHandler h hh hannounced).of_tree_eq htree
  | surroundings env _ ih => exact (ih hu).of_tree_eq rfl
  | registry r hr _ ih =>
    have hgrown := (ih hu).1
    exact ⟨⟨hgrown.ids_nodup, hgrown.ids_lt_next, hgrown.root_live, hgrown.has_parent,
      hgrown.child_live, hgrown.names_distinct⟩, hr⟩

/-- Every run keeps a tree grown. -/
theorem grown (h : Run u v) (hr : u.tree.registry.Plain) (hu : u.tree.Grown) : v.tree.Grown :=
  (h.sound ⟨hu, hr⟩).1

/-- A signal that is dispatched by a path is called on the component there. -/
theorem dispatch {behaviour : Behaviour σ η} {path name : String} {arguments : Frame}
    (handled : ∀ id h, v.handler? id name = some (.custom h) →
      Run (v.announced id name arguments)
        (behaviour h ⟨id, name, arguments⟩ (v.announced id name arguments)).2)
    (h : Run u v) : Run u (v.dispatch behaviour path name arguments).2 := by
  unfold World.dispatch
  cases v.tree.resolve v.tree.root path with
  | error e => exact h
  | ok id => exact h.callSignal behaviour id name arguments (handled id)

/-- The same for a signal document, once it is read. -/
theorem dispatchDocument {behaviour : Behaviour σ η} {d : Wire.Document}
    (handled : ∀ id h, v.handler? id d.target = some (.custom h) →
      Run (v.announced id d.target d.frame)
        (behaviour h ⟨id, d.target, d.frame⟩ (v.announced id d.target d.frame)).2)
    (h : Run u v) : Run u (v.dispatchDocument behaviour d).2 := by
  unfold World.dispatchDocument
  cases v.tree.resolve v.tree.root d.receiver with
  | error e => exact h
  | ok id =>
    have hcall := h.callSignal behaviour id d.target d.frame (handled id)
    rcases hresult : v.callSignal behaviour id d.target d.frame with ⟨result, w⟩
    rw [hresult] at hcall
    cases result with
    | error e => simpa [hresult] using hcall
    | ok reply => simpa [hresult] using hcall

end Run

/-- Whatever the order of operations, and whichever of them fail, a tree that started as its root
alone is well formed. -/
theorem wellFormed_of_run {rootName : String} {registry : Registry σ η} {env : Env σ}
    {w : World σ η} (hr : registry.Plain) (h : Run ⟨Tree.new rootName registry, env⟩ w) :
    w.tree.WellFormed :=
  (h.grown hr (Tree.Grown.new rootName registry)).wellFormed

/-- A handler that makes a child of the component it is called on. -/
def makeChild : Behaviour Unit Unit := fun _ call w =>
  withoutReply
    ((w.createChild call.receiver Builtin.groupType "made").1.map fun _ => (),
      (w.createChild call.receiver Builtin.groupType "made").2)

/-- A component that answers a signal with `makeChild`. -/
def maker : Component Unit Unit :=
  { (Component.new "maker" "Maker" : Component Unit Unit) with
    signals := ⟨"maker", [("make", .new "make" (.custom ()))]⟩ }

/-- A tree after a call of a handler, the removal of a subtree and an operation that fails. -/
def sampleRun : World Unit Unit :=
  let w : World Unit Unit := ⟨Tree.new "Root" Registry.standard, ⟨[], (), []⟩⟩
  let w := (w.createChild 0 Builtin.groupType "tools").2
  let w := (w.addChild 1 maker).2
  let w := (w.callSignal makeChild 2 "make" Frame.empty).2
  let w := (w.link 0 "favourite" 3).2
  let w := (w.removeChild 1 "maker").2
  let w := (w.createChild 1 Builtin.groupType "a/b").2
  (w.createChild 1 Builtin.groupType "mesh").2

theorem wellFormed_sampleRun :
    (Registry.standard : Registry Unit Unit).Plain ∧
      Run ⟨Tree.new "Root" Registry.standard, ⟨[], (), []⟩⟩ sampleRun ∧
      sampleRun.tree.ids = [0, 1, 4] ∧ sampleRun.tree.WellFormed := by
  have hrun : Run ⟨Tree.new "Root" Registry.standard, ⟨[], (), []⟩⟩ sampleRun := by
    refine .createChild 1 _ "mesh" (.createChild 1 _ "a/b" (.removeChild 1 "maker"
      (.link 0 "favourite" 3 (.callSignal makeChild 2 "make" Frame.empty ?_
        (.addChild 1 maker rfl (.createChild 0 _ "tools" (.start _)))))))
    intro h _
    exact .createChild 2 _ "made" (.start _)
  exact ⟨Registry.plain_standard, hrun, rfl, wellFormed_of_run Registry.plain_standard hrun⟩

end World
end SignalTree
