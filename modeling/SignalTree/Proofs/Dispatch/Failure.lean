import SignalTree.Proofs.Dispatch.Handler
import SignalTree.Proofs.Plan.Mirror

/-!
# Failure — a call that fails leaves the tree as it was

A call is lost on its way if the path or the signal leads nowhere, and then its error stands by
itself.  If the handler fails, its error is put under the name of the signal, once.  Either way the
tree is as before, except that options may have been set.

* `World.Failed`: how a dispatch fails, and the tree that it leaves;
* `callSignal_eq_error`: the error of a handler is marked once;
* `dispatch_failed`: every failure of a dispatch to a built-in handler is of this form;
* `dispatch_intact_of_run`: so it is after every run.
-/

namespace SignalTree
namespace World

variable {σ η : Type}

/-- How a dispatch fails: the error, and the tree that is left. -/
inductive Failed (w : World σ η) (path name : String) (arguments : Frame) :
    Error → Tree σ η → Prop where
  | nowhere (hpath : w.tree.resolve w.tree.root path = .error (.notFound path)) :
      Failed w path name arguments (.notFound path) w.tree
  | unanswered {id : NodeId} {c : Component σ η} (hid : w.tree.resolve w.tree.root path = .ok id)
      (hc : w.tree.get? id = some c) (hs : c.signals.get? name = none) :
      Failed w path name arguments (.unknownSignal c.signals.owner name) w.tree
  | aborted {id : NodeId} {b : Builtin} {e : Error} {v : World σ η}
      (hid : w.tree.resolve w.tree.root path = .ok id)
      (hh : w.handler? id name = some (.builtin b))
      (hrun : (w.announced id name arguments).runBuiltin b ⟨id, name, arguments⟩ = (.error e, v))
      (h : w.tree.Aborted b ⟨id, name, arguments⟩ e v.tree) :
      Failed w path name arguments (.inSignal name e) v.tree

variable {w w' : World σ η} {behaviour : Behaviour σ η} {id : NodeId} {path name : String}
  {arguments : Frame} {e : Error} {c : Component σ η}

theorem handler?_eq (hc : w.tree.get? id = some c) :
    w.handler? id name = (c.signals.get? name).map Signal.handler := by
  rw [handler?, hc]
  rfl

/-- A call that fails in its handler fails with the error of the handler, put under the signal. -/
theorem callSignal_eq_error {h : Handler η} (hh : w.handler? id name = some h)
    (hcall : w.callSignal behaviour id name arguments = (.error e, w')) :
    ∃ e' v, (w.announced id name arguments).run behaviour h ⟨id, name, arguments⟩ =
      (.error e', v) ∧ e = .inSignal name e' ∧ w'.tree = v.tree := by
  rw [w.callSignal_eq hh] at hcall
  rcases hrun : (w.announced id name arguments).run behaviour h ⟨id, name, arguments⟩ with
    ⟨result, v⟩
  cases result with
  | ok reply => simp [hrun] at hcall
  | error e' =>
    simp only [hrun, Prod.mk.injEq, Except.error.injEq] at hcall
    rcases hcall with ⟨rfl, rfl⟩
    exact ⟨e', v, rfl, rfl, rfl⟩

/-! ## Dispatch -/

/-- Every failure of a dispatch that reaches no handler but the built-in ones. -/
theorem dispatch_failed (hgrown : w.tree.Grown) (hrooted : w.tree.Rooted)
    (hbuiltin : ∀ id h, w.tree.resolve w.tree.root path = .ok id → w.handler? id name = some h →
      ∃ b, h = .builtin b)
    (h : w.dispatch behaviour path name arguments = (.error e, w')) :
    w.Failed path name arguments e w'.tree := by
  unfold dispatch at h
  cases hid : w.tree.resolve w.tree.root path with
  | error e' =>
    simp only [hid, Prod.mk.injEq, Except.error.injEq] at h
    rcases h with ⟨rfl, rfl⟩
    obtain rfl := hgrown.resolve_eq_error hgrown.contains_root hid
    exact .nowhere hid
  | ok id =>
    simp only [hid] at h
    -- a path leads to live components only
    rcases Tree.contains_iff.1 (hgrown.contains_of_resolve hid) with ⟨c, hc⟩
    cases hs : c.signals.get? name with
    | none =>
      have hget : c.signals.get name = .error (.unknownSignal c.signals.owner name) := by
        rw [Signals.get, hs]
      simp only [callSignal, Tree.component_eq_ok_iff.2 hc, hget, Prod.mk.injEq,
        Except.error.injEq] at h
      rcases h with ⟨rfl, rfl⟩
      exact .unanswered hid hc hs
    | some s =>
      have hh : w.handler? id name = some s.handler := by
        rw [handler?_eq hc, hs]
        rfl
      rcases hbuiltin id s.handler hid hh with ⟨b, hb⟩
      rw [hb] at hh
      rcases callSignal_eq_error hh h with ⟨e', v, hrun, rfl, htree⟩
      rw [htree]
      exact .aborted hid hh hrun
        (runBuiltin_aborted (w := w.announced id name arguments) hgrown hrooted hc hrun)

/-- A dispatch to a handler that only tells something. -/
theorem dispatch_forget (hgrown : w.tree.Grown) {b : Builtin}
    (hid : w.tree.resolve w.tree.root path = .ok id)
    (hh : w.handler? id name = some (.builtin b)) (hb : b.IsQuery) :
    (w.dispatch behaviour path name arguments).2.tree.forget = w.tree.forget ∧
      (b ≠ .signature → (w.dispatch behaviour path name arguments).2.tree = w.tree) := by
  simp only [dispatch, hid]
  rcases w.callSignal_tree behaviour id name arguments with htree | ⟨h, hh', htree⟩
  · rw [htree]
    exact ⟨rfl, fun _ => rfl⟩
  · obtain rfl : Handler.builtin b = h := Option.some.inj (hh.symm.trans hh')
    rw [htree]
    exact runBuiltin_forget (w := w.announced id name arguments) hgrown hb _

/-- After every run, a dispatch that reaches no handler but the built-in ones does no harm: one that
fails leaves the components, their places, links and signals as they were, and their options too but
for those that it was asked to set; and one that asks for a description changes nothing at all but
for the descriptions that signals keep. -/
theorem dispatch_intact_of_run {rootName : String} {registry : Registry σ η} {env : Env σ}
    (hr : registry.Plain) (hrun : Run ⟨Tree.new rootName registry, env⟩ w)
    (behaviour : Behaviour σ η) (path name : String) (arguments : Frame)
    (hbuiltin : ∀ id h, w.tree.resolve w.tree.root path = .ok id → w.handler? id name = some h →
      ∃ b, h = .builtin b) :
    (∀ e w', w.dispatch behaviour path name arguments = (.error e, w') →
      w.Failed path name arguments e w'.tree) ∧
    ∀ id b, w.tree.resolve w.tree.root path = .ok id → w.handler? id name = some (.builtin b) →
      b.IsQuery → (w.dispatch behaviour path name arguments).2.tree.forget = w.tree.forget ∧
        (b ≠ .signature → (w.dispatch behaviour path name arguments).2.tree = w.tree) := by
  have hgrown : w.tree.Grown := hrun.grown hr (Tree.Grown.new rootName registry)
  refine ⟨?_, fun id b hid hh hb => dispatch_forget hgrown hid hh hb⟩
  intro e w' h
  exact dispatch_failed hgrown (rooted_of_run hrun) hbuiltin h

/-- A component with two options, one of which has a trigger that stops it at its third level. -/
def gauge : Component Unit Unit :=
  { (Component.new "gauge" "Gauge" : Component Unit Unit) with
    options := ⟨"gauge", [
      ("title", ⟨"title", "", "", .ofString "", .ofString "", [], .basic, [], []⟩),
      ("level", ⟨"level", "", "", Setting.level 1, Setting.level 1, [], .basic,
        [Setting.refuseThree], []⟩)]⟩ }

def gaugeWorld : World Unit Unit := (rootAlone.addChild 0 gauge).2

/-- A title, the level at which the trigger fails, and an option that is not there. -/
def gaugeFrame : Frame :=
  ((Frame.empty.set "title" (.ofString "north")).set "level" (Setting.level 3)).set
    "colour" (.ofString "red")

theorem dispatch_intact_gaugeWorld :
    (Registry.standard : Registry Unit Unit).Plain ∧ Run rootAlone gaugeWorld ∧
      ∃ w', gaugeWorld.dispatch makeChild "cpath:/gauge" "configure" gaugeFrame =
          (.error (.inSignal "configure" (.notAllowed "level" "3")), w') ∧
        gaugeWorld.Failed "cpath:/gauge" "configure" gaugeFrame
          (.inSignal "configure" (.notAllowed "level" "3")) w'.tree ∧
        (w'.tree.get? 1).map (fun c => c.options.all.map Setting.value) =
          some [.ofString "north", Setting.level 3] := by
  have hrun : Run rootAlone gaugeWorld := .addChild 0 gauge rfl (.start _)
  have hbuiltin : ∀ id h, gaugeWorld.tree.resolve gaugeWorld.tree.root "cpath:/gauge" = .ok id →
      gaugeWorld.handler? id "configure" = some h → ∃ b, h = .builtin b := by
    intro id h hid hh
    have hgauge : 1 = id := Except.ok.inj hid
    subst hgauge
    exact ⟨.configure, (Option.some.inj hh).symm⟩
  refine ⟨Registry.plain_standard, hrun, _, rfl, ?_, rfl⟩
  have hintact := dispatch_intact_of_run Registry.plain_standard hrun makeChild "cpath:/gauge"
    "configure" gaugeFrame hbuiltin
  exact hintact.1 _ _ rfl

end World
end SignalTree
