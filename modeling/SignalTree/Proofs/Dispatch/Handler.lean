import SignalTree.Proofs.Settings.Configure
import SignalTree.Proofs.Tree.Address
import SignalTree.Proofs.Tree.Lifetime

/-!
# Handler — how the built-in handlers fail

A built-in handler reads its arguments and looks for what it acts on before it writes anything, so
one that fails has written nothing.  The handler that sets options is the exception: it writes them
one after the other.

* `Error.IsMarked`: the errors that name a signal;
* `Tree.Foreign`: the errors that the embedding program hands over;
* `Tree.Fault`, `runBuiltin_fault`: what the error of a built-in handler may be;
* `Tree.Aborted`: how a built-in handler fails, and what it leaves;
* `runBuiltin_aborted`: every failure of a built-in handler is of this form;
* `Tree.forget`: a tree without the descriptions that its signals have kept;
* `runBuiltin_forget`: a handler that only tells something changes nothing else.
-/

namespace SignalTree

/-- The failure of a handler, as it is reported under the name of the signal. -/
def Error.IsMarked : Error → Prop
  | .inSignal _ _ => True
  | _ => False

/-- A failure that names neither a signal nor an option that is not there. -/
def Error.IsPlain : Error → Prop
  | .inSignal _ _ | .unknownOption _ _ | .unknownSignal _ _ => False
  | _ => True

variable {σ η : Type} {e : Error}

/-! ## Arguments -/

theorem View.plain_of_extract {view : View} {name : String} {v : Value}
    (h : view.extract name v = .error e) : e.IsPlain := by
  unfold extract at h
  split at h
  · cases h
  · cases h
    trivial

namespace Frame

variable {f : Frame} {key : String}

theorem plain_of_get {view : View} (h : f.get view key = .error e) : e.IsPlain := by
  unfold get at h
  split at h
  · exact View.plain_of_extract h
  · cases h
    trivial

theorem plain_of_getString (h : f.getString key = .error e) : e.IsPlain := by
  unfold getString at h
  split at h
  · cases h
  · cases h
    trivial
  · rename_i e' hget
    rw [← Except.error.inj h]
    exact plain_of_get hget

theorem plain_of_getStringD {default : String} (h : f.getStringD key default = .error e) :
    e.IsPlain := by
  unfold getStringD at h
  split at h
  · exact plain_of_getString h
  · cases h

end Frame

/-! ## Components that are not there -/

namespace Tree

variable {t : Tree σ η} {id : NodeId}

theorem component_eq_error (h : t.component id = .error e) : e = removed := by
  unfold component at h
  split at h
  · cases h
  · exact (Except.error.inj h).symm

theorem ancestry_eq_error {fuel : Nat} (h : t.ancestry fuel id = .error e) : e = removed := by
  induction fuel generalizing id with
  | zero => exact (Except.error.inj h).symm
  | succ fuel ih =>
    rcases bind_eq_error h with hc | ⟨c, _, h⟩
    · exact component_eq_error hc
    · cases hp : c.parent with
      | none =>
        rw [hp] at h
        cases h
      | some p =>
        rw [hp] at h
        rcases bind_eq_error h with hup | ⟨_, _, h⟩
        · exact ih hup
        · cases h

theorem pathOf_eq_error (h : t.pathOf id = .error e) : e = removed := by
  rcases bind_eq_error h with hup | ⟨_, _, h⟩
  · exact ancestry_eq_error hup
  · cases h

theorem frameFrom_eq_error {fuel : Nat} (h : t.frameFrom fuel id = .error e) : e = removed := by
  induction fuel generalizing id with
  | zero => exact (Except.error.inj h).symm
  | succ fuel ih =>
    rcases bind_eq_error h with hc | ⟨c, _, h⟩
    · exact component_eq_error hc
    · rcases bind_eq_error h with hpath | ⟨_, _, h⟩
      · exact pathOf_eq_error hpath
      · rcases bind_eq_error h with hchildren | ⟨_, _, h⟩
        · -- the child that fails does so one level down
          rcases exists_of_mapM_eq_error hchildren with ⟨p, _, hchild⟩
          rcases bind_eq_error hchild with hframe | ⟨_, _, hchild⟩
          · exact ih hframe
          · cases hchild
        · cases h

theorem plain_of_checkNewChild {name : String} (h : t.checkNewChild id name = .error e) :
    e.IsPlain := by
  unfold checkNewChild at h
  split at h
  · cases h
    trivial
  · rcases bind_eq_error h with hc | ⟨c, _, h⟩
    · rw [component_eq_error hc]
      trivial
    · split at h
      · cases h
        trivial
      · cases h

end Tree

theorem Registry.plain_of_builder {r : Registry σ η} {type : String}
    (h : r.builder type = .error e) : e.IsPlain := by
  unfold builder at h
  split at h
  · cases h
  · cases h
    trivial

/-! ## What the embedding program hands over -/

namespace Setting

theorem plain_of_check {s : Setting σ} {v : Value} (h : s.check v = .error e) : e.IsPlain := by
  unfold check at h
  split at h
  · cases h
    trivial
  · split at h
    · cases h
      trivial
    · split at h
      · cases h
        trivial
      · cases h

end Setting

namespace Tree

/-- An error that a part of the embedding program gives: a trigger of the component, a builder, or
what describes the arguments of a signal of the component. -/
inductive Foreign (t : Tree σ η) (id : NodeId) (e : Error) : Prop where
  | trigger {c : Component σ η} {name : String} {s : Setting σ} {trigger : Trigger σ} {v : Value}
      {cells : List Value} {host host' : σ} (hc : t.get? id = some c)
      (hs : c.options.get? name = some s) (htrigger : trigger ∈ s.triggers)
      (he : trigger v cells host = (.error e, host'))
  | builder {type name : String} {b : Builder σ η} {env env' : Env σ}
      (hb : t.registry.builder type = .ok b) (he : b name env = (.error e, env'))
  | describer {c : Component σ η} {name : String} {s : Signal σ η} {b : SignatureBuilder σ}
      {o : Settings σ} {env env' : Env σ} (hc : t.get? id = some c)
      (hs : c.signals.get? name = some s) (hb : s.signature = some b)
      (he : b o env = (.error e, env'))

/-- What the error of a built-in handler on a component may be. -/
inductive Fault (t : Tree σ η) (id : NodeId) : Error → Prop where
  | plain {e : Error} (h : e.IsPlain) : Fault t id e
  | option {c : Component σ η} {name : String} (hc : t.get? id = some c)
      (hs : c.options.get? name = none) : Fault t id (.unknownOption c.options.label name)
  | signal {c : Component σ η} {name : String} (hc : t.get? id = some c)
      (hs : c.signals.get? name = none) : Fault t id (.unknownSignal c.signals.owner name)
  | foreign {e : Error} (h : t.Foreign id e) : Fault t id e

/-- The library itself marks no error inside a handler. -/
theorem Fault.own {t : Tree σ η} {id : NodeId} (h : t.Fault id e) (hm : e.IsMarked) :
    t.Foreign id e := by
  cases h with
  | plain h => cases e <;> simp_all [Error.IsMarked, Error.IsPlain]
  | option _ _ => exact hm.elim
  | signal _ _ => exact hm.elim
  | foreign h => exact h

/-- How a built-in handler fails with an error, and the tree that it leaves. -/
structure Aborted (t : Tree σ η) (b : Builtin) (call : Call) (e : Error) (t' : Tree σ η) :
    Prop where
  own : e.IsMarked → t.Foreign call.receiver e
  intact : b ≠ .configure → t' = t
  /-- The options have taken over what the frame says up to the entry that failed. -/
  configured : b = .configure → ∃ c o, t.get? call.receiver = some c ∧
    c.options.Interrupted call.arguments.entries e o ∧
    t' = t.modify call.receiver fun c => { c with options := o }

theorem Fault.of_refuses {t : Tree σ η} {id : NodeId} {c : Component σ η} {name : String}
    {v : Value} (hc : t.get? id = some c) (h : c.options.Refuses name v e) : t.Fault id e := by
  cases h with
  | unknown hs => exact .option hc hs
  | checked _ hcheck => exact .plain (Setting.plain_of_check hcheck)

theorem Fault.of_stops {t : Tree σ η} {id : NodeId} {c : Component σ η} {name : String}
    {s : Setting σ} {v : Value} {host : σ} (hc : t.get? id = some c)
    (hs : c.options.get? name = some s) (h : Setting.Stops v e s.triggers host) :
    t.Fault id e := by
  rcases h.exists_trigger with ⟨trigger, htrigger, cells, host, host', hfails⟩
  exact .foreign (.trigger hc hs htrigger hfails)

theorem Fault.of_interrupted {t : Tree σ η} {id : NodeId} {c : Component σ η}
    (hc : t.get? id = some c) {entries : List (String × Entry)} {o : Settings σ}
    (h : c.options.Interrupted entries e o) : t.Fault id e := by
  cases h with
  | refused front _ hrefuses =>
    cases hrefuses with
    | @unknown hs =>
      rw [Settings.get?_assignAll, Option.map_eq_none_iff] at hs
      rw [Settings.label_assignAll]
      exact .option hc hs
    | checked _ hcheck => exact .plain (Setting.plain_of_check hcheck)
  | stopped _ _ hs _ hstops =>
    -- a trigger of the option with a new value is one of the option as it was
    rw [Settings.get?_assignAll] at hs
    rcases Option.map_eq_some_iff.1 hs with ⟨s₀, hs₀, rfl⟩
    exact .of_stops hc hs₀ hstops

end Tree

/-! ## Failing handlers -/

namespace World

variable {w w' : World σ η} {id : NodeId} {c : Component σ η} {name : String} {call : Call}

theorem configure_aborted (hc : w.tree.get? id = some c) {f : Frame}
    (h : w.configure id f = (.error e, w')) :
    w.tree.Fault id e ∧ ∃ o, c.options.Interrupted f.entries e o ∧
      w'.tree = w.tree.modify id fun c => { c with options := o } := by
  simp only [configure, changeOptions, Tree.component_eq_ok_iff.2 hc, Prod.mk.injEq] at h
  rcases h with ⟨he, rfl⟩
  have hinterrupted := Settings.setEntries_interrupted he
  exact ⟨.of_interrupted hc hinterrupted, _, hinterrupted, rfl⟩

theorem createChild_aborted {type : String} (h : w.createChild id type name = (.error e, w')) :
    w.tree.Fault id e ∧ w'.tree = w.tree := by
  unfold createChild at h
  cases hb : w.tree.registry.builder type with
  | error e' =>
    simp only [hb, Prod.mk.injEq, Except.error.injEq] at h
    rcases h with ⟨rfl, rfl⟩
    exact ⟨.plain (Registry.plain_of_builder hb), rfl⟩
  | ok builder =>
    cases hcheck : w.tree.checkNewChild id name with
    | error e' =>
      simp only [hb, hcheck, Prod.mk.injEq, Except.error.injEq] at h
      rcases h with ⟨rfl, rfl⟩
      exact ⟨.plain (Tree.plain_of_checkNewChild hcheck), rfl⟩
    | ok u =>
      -- the builder acts on the surroundings only, and what it made is attached after it
      rcases hbuild : builder name w.env with ⟨result, env⟩
      cases result with
      | error e' =>
        simp only [hb, hcheck, hbuild, Prod.mk.injEq, Except.error.injEq] at h
        rcases h with ⟨rfl, rfl⟩
        exact ⟨.foreign (.builder hb hbuild), rfl⟩
      | ok c => simp [hb, hcheck, hbuild] at h

/-- The path in the reply is that of a component which is there, so it can be told. -/
theorem exists_pathOf_createChild (hrooted : w.tree.Rooted) {parent : NodeId} {type : String}
    (h : w.createChild parent type name = (.ok id, w')) : ∃ u, w'.tree.pathOf id = .ok u := by
  have heffect := w.createChild_effect parent type name
  have hafter : (w.createChild parent type name).2.tree.Rooted :=
    rooted_perform (.createChild parent type name) hrooted
  rw [h] at heffect hafter
  rcases hafter.resolve_pathOf (heffect.contains_new hrooted rfl) with ⟨u, hu, _⟩
  exact ⟨u, hu⟩

theorem runCreate_aborted (hrooted : w.tree.Rooted) (h : w.runCreate call = (.error e, w')) :
    w.tree.Fault call.receiver e ∧ w'.tree = w.tree := by
  unfold runCreate at h
  extract_lets arguments at h
  cases harguments : arguments with
  | error e' =>
    simp only [harguments, Prod.mk.injEq, Except.error.injEq] at h
    rcases h with ⟨rfl, rfl⟩
    refine ⟨.plain ?_, rfl⟩
    rcases bind_eq_error harguments with hname | ⟨_, _, hrest⟩
    · exact Frame.plain_of_getString hname
    · rcases bind_eq_error hrest with htype | ⟨_, _, hrest⟩
      · exact Frame.plain_of_getStringD htype
      · cases hrest
  | ok typeAndName =>
    rcases typeAndName with ⟨type, name⟩
    rcases hcreate : w.createChild call.receiver type name with ⟨result, w₁⟩
    cases result with
    | error e' =>
      simp only [harguments, hcreate, Prod.mk.injEq, Except.error.injEq] at h
      rcases h with ⟨rfl, rfl⟩
      exact createChild_aborted hcreate
    | ok id =>
      -- once the component is there, nothing can fail
      rcases exists_pathOf_createChild hrooted hcreate with ⟨u, hu⟩
      simp [harguments, hcreate, hu, Except.map] at h

theorem removeChild_aborted (h : w.removeChild id name = (.error e, w')) :
    w.tree.Fault id e ∧ w'.tree = w.tree := by
  unfold removeChild at h
  cases hp : w.tree.component id with
  | error e' =>
    simp only [hp, Prod.mk.injEq, Except.error.injEq] at h
    rcases h with ⟨rfl, rfl⟩
    rw [Tree.component_eq_error hp]
    exact ⟨.plain trivial, rfl⟩
  | ok p =>
    cases hchild : p.child? name with
    | none =>
      simp only [hp, hchild, Prod.mk.injEq, Except.error.injEq] at h
      rcases h with ⟨rfl, rfl⟩
      exact ⟨.plain trivial, rfl⟩
    | some child => simp [hp, hchild] at h

end World

/-! ## Descriptions that are kept -/

namespace Signal

variable {s : Signal σ η} {owner : String} {env : Env σ}

/-- The signal without the description that it has kept. -/
def forget (s : Signal σ η) : Signal σ η := { s with built := none }

theorem forget_buildSignature (s : Signal σ η) (owner : String) (env : Env σ) :
    (s.buildSignature owner env).2.1.forget = s.forget := by
  unfold buildSignature
  split
  · rfl
  · split
    · rfl
    · split <;> rfl

/-- A failure is one of the builder, and is not kept. -/
theorem buildSignature_eq_error (h : (s.buildSignature owner env).1 = .error e) :
    (s.buildSignature owner env).2.1 = s ∧
      ∃ b env', s.signature = some b ∧ b (.empty owner) env = (.error e, env') := by
  unfold buildSignature at h ⊢
  split at h
  · cases h
  · split at h
    · cases h
    · rename_i b hb
      rcases hbuild : b (.empty owner) env with ⟨result, env'⟩
      cases result with
      | ok o => simp [hbuild] at h
      | error e' =>
        simp only [hbuild, Except.error.injEq] at h ⊢
        subst h
        exact ⟨trivial, b, env', hb, hbuild⟩

end Signal

/-- The signals without the descriptions that they have kept. -/
def Signals.forget (l : Signals σ η) : Signals σ η :=
  { l with items := l.items.map fun p => (p.1, p.2.forget) }

theorem Signals.forget_replace {l : Signals σ η} {name : String} {s s' : Signal σ η}
    (hs : l.get? name = some s) (hsame : s'.forget = s.forget) :
    (l.replace name s').forget = l.forget := by
  rw [forget, forget, replace, Keyed.map_modify Signal.forget hs hsame]

theorem Signals.get_eq_ok_iff {l : Signals σ η} {name : String} {s : Signal σ η} :
    l.get name = .ok s ↔ l.get? name = some s := by
  cases h : l.get? name with
  | none => simp [get, h]
  | some t => simp [get, h]

theorem Signals.get_eq_error_iff {l : Signals σ η} {name : String} :
    l.get name = .error e ↔ l.get? name = none ∧ e = .unknownSignal l.owner name := by
  cases h : l.get? name with
  | none => simp [get, h, eq_comm]
  | some t => simp [get, h]

/-- The component without them. -/
def Component.forget (c : Component σ η) : Component σ η := { c with signals := c.signals.forget }

/-- The tree without the descriptions that the signals of its components have kept. -/
def Tree.forget (t : Tree σ η) : Tree σ η :=
  { t with nodes := t.nodes.map fun p => (p.1, p.2.forget) }

namespace World

variable {w w' : World σ η} {id : NodeId} {c : Component σ η} {name : String} {b : Builtin}
  {call : Call}

theorem signature_aborted (hc : w.tree.get? id = some c)
    (h : w.signature id name = (.error e, w')) :
    w.tree.Fault id e ∧ (w.tree.ids.Nodup → w'.tree = w.tree) := by
  unfold signature at h
  rw [Tree.component_eq_ok_iff.2 hc] at h
  cases hs : c.signals.get name with
  | error e' =>
    simp only [hs, Prod.mk.injEq, Except.error.injEq] at h
    rcases h with ⟨rfl, rfl⟩
    rcases Signals.get_eq_error_iff.1 hs with ⟨hnone, rfl⟩
    exact ⟨.signal hc hnone, fun _ => rfl⟩
  | ok s =>
    have hget : c.signals.get? name = some s := Signals.get_eq_ok_iff.1 hs
    simp only [hs, Prod.mk.injEq] at h
    rcases h with ⟨he, rfl⟩
    -- the signal is put back, and it is the one that was there
    rcases Signal.buildSignature_eq_error he with ⟨hkept, b, env', hb, hbuild⟩
    have hsignals : c.signals.replace name s = c.signals := by
      rw [Signals.replace, Keyed.modify_eq_self (f := fun _ => s) hget rfl]
    refine ⟨.foreign (.describer hc hget hb hbuild), fun hnodup => ?_⟩
    rw [hkept]
    exact Tree.modify_eq_self hnodup hc
      (f := fun c => { c with signals := c.signals.replace name s }) (by rw [hsignals])

theorem signature_forget (hgrown : w.tree.Grown) (id : NodeId) (name : String) :
    (w.signature id name).2.tree.forget = w.tree.forget := by
  unfold signature
  cases hc : w.tree.component id with
  | error e => rfl
  | ok c =>
    cases hs : c.signals.get name with
    | error e => simp [hs]
    | ok s =>
      have hget : c.signals.get? name = some s := Signals.get_eq_ok_iff.1 hs
      have hsame : ∀ s' : Signal σ η, s'.forget = s.forget →
          ({ c with signals := c.signals.replace name s' } : Component σ η).forget = c.forget := by
        intro s' hs'
        rw [Component.forget, Component.forget, Signals.forget_replace hget hs']
      simp only [hs, Tree.forget]
      rw [Tree.map_nodes_modify hgrown.ids_nodup Component.forget (Tree.component_eq_ok_iff.1 hc)
        (hsame _ (s.forget_buildSignature _ _))]
      rfl

/-! ## All handlers -/

theorem withoutReply_eq_error {r : Except Error Unit × World σ η}
    (h : withoutReply r = (.error e, w')) : r = (.error e, w') := by
  rcases r with ⟨result, w₁⟩
  cases result with
  | ok u => cases h
  | error e' =>
    cases h
    rfl

/-- The error of a built-in handler, and whether it has done anything. -/
theorem runBuiltin_fault (hrooted : w.tree.Rooted) (hc : w.tree.get? call.receiver = some c)
    (h : w.runBuiltin b call = (.error e, w')) :
    w.tree.Fault call.receiver e ∧
      (b ≠ .configure → w.tree.ids.Nodup → w'.tree = w.tree) := by
  have hcomponent : w.tree.component call.receiver = .ok c := Tree.component_eq_ok_iff.2 hc
  cases b with
  | configure =>
    exact ⟨(configure_aborted hc (withoutReply_eq_error h)).1, fun hb => absurd rfl hb⟩
  | listOptions => simp [runBuiltin, hcomponent, Except.map] at h
  | listSignals => simp [runBuiltin, hcomponent, Except.map] at h
  | listTree =>
    cases hframe : w.tree.toFrame call.receiver with
    | ok f => simp [runBuiltin, hframe, Except.map] at h
    | error e' =>
      simp only [runBuiltin, hframe, Except.map, Prod.mk.injEq, Except.error.injEq] at h
      rcases h with ⟨rfl, rfl⟩
      rw [Tree.frameFrom_eq_error hframe]
      exact ⟨.plain trivial, fun _ _ => rfl⟩
  | createComponent => exact (runCreate_aborted hrooted h).imp_right fun htree _ _ => htree
  | deleteComponent =>
    simp only [runBuiltin] at h
    cases hname : call.arguments.getString "name" with
    | error e' =>
      simp only [hname, Prod.mk.injEq, Except.error.injEq] at h
      rcases h with ⟨rfl, rfl⟩
      exact ⟨.plain (Frame.plain_of_getString hname), fun _ _ => rfl⟩
    | ok name =>
      rw [hname] at h
      exact (removeChild_aborted (withoutReply_eq_error h)).imp_right fun htree _ _ => htree
  | signature =>
    simp only [runBuiltin] at h
    cases hname : call.arguments.getString "name" with
    | error e' =>
      simp only [hname, Prod.mk.injEq, Except.error.injEq] at h
      rcases h with ⟨rfl, rfl⟩
      exact ⟨.plain (Frame.plain_of_getString hname), fun _ _ => rfl⟩
    | ok name =>
      rcases hsignature : w.signature call.receiver name with ⟨result, w₁⟩
      cases result with
      | ok o => simp [hname, hsignature, Except.map] at h
      | error e' =>
        simp only [hname, hsignature, Except.map, Prod.mk.injEq, Except.error.injEq] at h
        rcases h with ⟨rfl, rfl⟩
        exact (signature_aborted hc hsignature).imp_right fun htree _ => htree

/-- Every failure of a built-in handler on a component that is there. -/
theorem runBuiltin_aborted (hgrown : w.tree.Grown) (hrooted : w.tree.Rooted)
    (hc : w.tree.get? call.receiver = some c) (h : w.runBuiltin b call = (.error e, w')) :
    w.tree.Aborted b call e w'.tree := by
  rcases runBuiltin_fault hrooted hc h with ⟨hfault, hintact⟩
  refine ⟨hfault.own, fun hb => hintact hb hgrown.ids_nodup, ?_⟩
  rintro rfl
  rcases configure_aborted hc (withoutReply_eq_error h) with ⟨_, o, ho, htree⟩
  exact ⟨c, o, hc, ho, htree⟩

end World

/-- The signals that tell something about a component. -/
def Builtin.IsQuery : Builtin → Prop
  | .listOptions | .listSignals | .listTree | .signature => True
  | .configure | .createComponent | .deleteComponent => False

/-- Whether it succeeds or fails, a handler that tells something writes nothing but the description
that a signal keeps. -/
theorem World.runBuiltin_forget {w : World σ η} {b : Builtin} (hgrown : w.tree.Grown)
    (hb : b.IsQuery) (call : Call) :
    (w.runBuiltin b call).2.tree.forget = w.tree.forget ∧
      (b ≠ .signature → (w.runBuiltin b call).2.tree = w.tree) := by
  cases b with
  | listOptions => exact ⟨rfl, fun _ => rfl⟩
  | listSignals => exact ⟨rfl, fun _ => rfl⟩
  | listTree => exact ⟨rfl, fun _ => rfl⟩
  | signature =>
    refine ⟨?_, fun hne => absurd rfl hne⟩
    simp only [runBuiltin]
    cases call.arguments.getString "name" with
    | error e => rfl
    | ok name => exact signature_forget hgrown call.receiver name
  | configure => exact hb.elim
  | createComponent => exact hb.elim
  | deleteComponent => exact hb.elim

end SignalTree
