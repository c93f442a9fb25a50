import SignalTree.Dispatch
import SignalTree.Proofs.Tree.Upkeep

/-!
# Action — operations on a tree as data

What a program does to a tree, one operation after the other, is a list of actions.  An action may
succeed or fail, and what it does to the tree is told by its result (`Tree.Effect`).

* `World.perform`, `World.performAll`: the actions, carried out;
* `perform_effect`: what an action does to the tree, for every action;
* `World.Attempts`, `runBuiltin_tree`: the one action that a built-in signal attempts.
-/

namespace SignalTree

variable {σ η : Type}

/-! ## Components that are made directly -/

/-- A component as it is when it is made: without children and without links. -/
def Component.Bare (c : Component σ η) : Prop := c.children = [] ∧ c.links = []

/-- Builders that make bare components. -/
def Registry.Bare (r : Registry σ η) : Prop :=
  ∀ type builder name env c env', r.builder type = .ok builder →
    builder name env = (.ok c, env') → c.Bare

theorem Component.bare_new (name type : String) : (Component.new name type : Component σ η).Bare :=
  ⟨rfl, rfl⟩

theorem Registry.builder_standard {type : String} {builder : Builder σ η}
    (h : (Registry.standard : Registry σ η).builder type = .ok builder) :
    builder = groupBuilder := by
  by_cases htype : type = Builtin.groupType
  · subst htype
    exact (Except.ok.inj h).symm
  · have hbeq : (type == Builtin.groupType) = false := by simpa using htype
    simp [Registry.builder, standard, List.lookup_cons, hbeq] at h

theorem Registry.bare_standard : (Registry.standard : Registry σ η).Bare := by
  intro type builder name env c env' hb hc
  rw [builder_standard hb] at hc
  have hnew : Component.new name Builtin.groupType = c := by
    simpa [groupBuilder] using (Prod.mk.inj hc).1
  exact hnew ▸ Component.bare_new name Builtin.groupType

/-! ## Actions -/

namespace World

/-- An operation on a tree, with its arguments. -/
inductive Action (σ η : Type) where
  | createChild (parent : NodeId) (type name : String)
  | addChild (parent : NodeId) (c : Component σ η)
  | removeChild (parent : NodeId) (name : String)
  | link (owner : NodeId) (name : String) (target : NodeId)
  | unlink (owner : NodeId) (name : String)
  /-- The options and the signals of a component change in some way. -/
  | revise (id : NodeId) (options : Settings σ → Settings σ) (signals : Signals σ η → Signals σ η)
  /-- The surroundings change in some way. -/
  | surroundings (env : Env σ)
  /-- The tree gets other builders. -/
  | builders (r : Registry σ η)

/-- What an action adds is made directly. -/
def Action.Direct : Action σ η → Prop
  | .addChild _ c => c.Bare
  | .builders r => r.Bare
  | _ => True

/-- Carries out an action.  The result names the component that was made, if one was. -/
def perform (w : World σ η) : Action σ η → Except Error (Option NodeId) × World σ η
  | .createChild parent type name =>
    ((w.createChild parent type name).1.map some, (w.createChild parent type name).2)
  | .addChild parent c => ((w.addChild parent c).1.map some, (w.addChild parent c).2)
  | .removeChild parent name =>
    ((w.removeChild parent name).1.map fun _ => none, (w.removeChild parent name).2)
  | .link owner name target =>
    ((w.link owner name target).1.map fun _ => none, (w.link owner name target).2)
  | .unlink owner name => ((w.unlink owner name).1.map fun _ => none, (w.unlink owner name).2)
  | .revise id options signals =>
    (.ok none, { w with tree := w.tree.modify id fun c =>
      { c with options := options c.options, signals := signals c.signals } })
  | .surroundings env => (.ok none, { w with env })
  | .builders r => (.ok none, { w with tree := { w.tree with registry := r } })

/-- Whether an action succeeds. -/
def succeeds (w : World σ η) (a : Action σ η) : Bool := (w.perform a).1.isOk

/-- Carries out actions one after the other, whether they succeed or fail. -/
def performAll (w : World σ η) (actions : List (Action σ η)) : World σ η :=
  actions.foldl (fun w a => (w.perform a).2) w

theorem performAll_cons (w : World σ η) (a : Action σ η) (rest : List (Action σ η)) :
    w.performAll (a :: rest) = (w.perform a).2.performAll rest := rfl

theorem performAll_append (w : World σ η) (front back : List (Action σ η)) :
    w.performAll (front ++ back) = (w.performAll front).performAll back :=
  List.foldl_append

/-- A root alone, of a program without slots and handlers. -/
def rootAlone : World Unit Unit := ⟨Tree.new "Root" Registry.standard, ⟨[], (), []⟩⟩

end World

/-! ## Effects -/

namespace Tree

/-- The check of a new child looks at the table once the name and the parent are known. -/
theorem checkNewChild_eq {t : Tree σ η} {parent : NodeId} {name : String} {pc : Component σ η}
    (hvalid : nameFault name = none) (hpc : t.get? parent = some pc) :
    t.checkNewChild parent name =
      if (pc.child? name).isSome then .error (.nameTaken (t.pathText parent) name) else .ok () := by
  rw [checkNewChild, hvalid, component_eq_ok_iff.2 hpc]
  rfl

/-- What is known when a component may get a child of a name. -/
theorem checkNewChild_ok {t : Tree σ η} {parent : NodeId} {name : String}
    (h : t.checkNewChild parent name = .ok ()) :
    nameFault name = none ∧ ∃ pc, t.get? parent = some pc ∧ pc.child? name = none := by
  cases hfault : nameFault name with
  | some reason => simp [checkNewChild, hfault] at h
  | none =>
    refine ⟨rfl, ?_⟩
    cases hget : t.get? parent with
    | none => simp [checkNewChild, hfault, component, hget, bind, Except.bind] at h
    | some pc =>
      refine ⟨pc, rfl, ?_⟩
      rw [checkNewChild_eq hfault hget] at h
      cases hchild : pc.child? name with
      | none => rfl
      | some k => simp [hchild] at h

/-- A component that the builder of a type may make. -/
def Makes (t : Tree σ η) (type : String) (c : Component σ η) : Prop :=
  ∃ builder name env made env', t.registry.builder type = .ok builder ∧
    builder name env = (.ok made, env') ∧ c = { made with type }

/-- What an action does to a tree, and its result. -/
inductive Effect (t : Tree σ η) :
    World.Action σ η → Except Error (Option NodeId) → Tree σ η → Prop where
  | failed (a : World.Action σ η) (e : Error) : Effect t a (.error e) t
  | created {parent : NodeId} {type name : String} {c pc : Component σ η}
      (hc : t.Makes type c) (hpc : t.get? parent = some pc) (hname : pc.child? name = none)
      (hvalid : nameFault name = none) (path : String) (hpath : path = t.childPath parent name) :
      Effect t (.createChild parent type name) (.ok (some t.next))
        (t.attachTo parent name (c.placed name (some parent) path))
  | added {parent : NodeId} {c pc : Component σ η} (hpc : t.get? parent = some pc)
      (hname : pc.child? c.name = none) (hvalid : nameFault c.name = none) (path : String)
      (hpath : path = t.childPath parent c.name) :
      Effect t (.addChild parent c) (.ok (some t.next))
        (t.attachTo parent c.name (c.placed c.name (some parent) path))
  | removed {parent child : NodeId} {name : String} {pc : Component σ η}
      (hpc : t.get? parent = some pc) (hchild : pc.child? name = some child) :
      Effect t (.removeChild parent name) (.ok none)
        (t.detachFrom parent name (t.collect (t.size + 1) child))
  | linked {owner target : NodeId} {name : String} {oc tc : Component σ η}
      (hoc : t.get? owner = some oc) (htc : t.get? target = some tc) :
      Effect t (.link owner name target) (.ok none)
        (t.modify owner fun c => { c with links := Keyed.put name target c.links })
  | unlinked {owner target : NodeId} {name : String} {oc : Component σ η}
      (hoc : t.get? owner = some oc) (hlink : oc.link? name = some target) :
      Effect t (.unlink owner name) (.ok none)
        (t.modify owner fun c => { c with links := Keyed.erase name c.links })
  | revised (id : NodeId) (options : Settings σ → Settings σ)
      (signals : Signals σ η → Signals σ η) :
      Effect t (.revise id options signals) (.ok none) (t.modify id fun c =>
        { c with options := options c.options, signals := signals c.signals })
  | surrounded (env : Env σ) : Effect t (.surroundings env) (.ok none) t
  | rebuilt (r : Registry σ η) : Effect t (.builders r) (.ok none) { t with registry := r }

end Tree

namespace World

open SignalTree.Tree (Effect)

variable (w : World σ η)

theorem createChild_effect (parent : NodeId) (type name : String) :
    Effect w.tree (.createChild parent type name) ((w.createChild parent type name).1.map some)
      (w.createChild parent type name).2.tree := by
  unfold createChild
  cases hb : w.tree.registry.builder type with
  | error e => exact .failed _ e
  | ok builder =>
    cases hcheck : w.tree.checkNewChild parent name with
    | error e => exact .failed _ e
    | ok u =>
      rcases hbuild : builder name w.env with ⟨result, env⟩
      cases result with
      | error e =>
        simp only [hbuild]
        exact .failed _ e
      | ok c =>
        rcases Tree.checkNewChild_ok hcheck with ⟨hvalid, pc, hpc, hname⟩
        simp only [hbuild]
        exact .created ⟨builder, name, w.env, c, env, hb, hbuild, rfl⟩ hpc hname hvalid _ rfl

theorem addChild_effect (parent : NodeId) (c : Component σ η) :
    Effect w.tree (.addChild parent c) ((w.addChild parent c).1.map some)
      (w.addChild parent c).2.tree := by
  unfold addChild
  cases hcheck : w.tree.checkNewChild parent c.name with
  | error e => exact .failed _ e
  | ok u =>
    rcases Tree.checkNewChild_ok hcheck with ⟨hvalid, pc, hpc, hname⟩
    exact .added hpc hname hvalid _ rfl

theorem removeChild_effect (parent : NodeId) (name : String) :
    Effect w.tree (.removeChild parent name) ((w.removeChild parent name).1.map fun _ => none)
      (w.removeChild parent name).2.tree := by
  unfold removeChild
  cases hp : w.tree.component parent with
  | error e => exact .failed _ e
  | ok pc =>
    cases hchild : pc.child? name with
    | none =>
      simp only [hchild]
      exact .failed _ _
    | some child =>
      simp only [hchild]
      exact .removed (Tree.component_eq_ok_iff.1 hp) hchild

theorem link_effect (owner : NodeId) (name : String) (target : NodeId) :
    Effect w.tree (.link owner name target) ((w.link owner name target).1.map fun _ => none)
      (w.link owner name target).2.tree := by
  unfold link
  cases ht : w.tree.component target with
  | error e => exact .failed _ e
  | ok tc =>
    cases ho : w.tree.component owner with
    | error e => exact .failed _ e
    | ok oc => exact .linked (Tree.component_eq_ok_iff.1 ho) (Tree.component_eq_ok_iff.1 ht)

theorem unlink_effect (owner : NodeId) (name : String) :
    Effect w.tree (.unlink owner name) ((w.unlink owner name).1.map fun _ => none)
      (w.unlink owner name).2.tree := by
  unfold unlink
  cases ho : w.tree.component owner with
  | error e => exact .failed _ e
  | ok oc =>
    cases hlink : oc.link? name with
    | none =>
      simp only [hlink]
      exact .failed _ _
    | some target =>
      simp only [hlink]
      exact .unlinked (Tree.component_eq_ok_iff.1 ho) hlink

/-- What an action does to the tree, for every action. -/
theorem perform_effect (a : Action σ η) :
    Effect w.tree a (w.perform a).1 (w.perform a).2.tree := by
  cases a with
  | createChild parent type name => exact w.createChild_effect parent type name
  | addChild parent c => exact w.addChild_effect parent c
  | removeChild parent name => exact w.removeChild_effect parent name
  | link owner name target => exact w.link_effect owner name target
  | unlink owner name => exact w.unlink_effect owner name
  | revise id options signals => exact .revised id options signals
  | surroundings env => exact .surrounded env
  | builders r => exact .rebuilt r

/-! ## Built-in signals -/

theorem changeOptions_tree (id : NodeId)
    (f : Settings σ → Env σ → Except Error Unit × Settings σ × Env σ) :
    (w.changeOptions id f).2.tree = w.tree ∨ ∃ c, w.tree.get? id = some c ∧
      (w.changeOptions id f).2.tree =
        (w.perform (.revise id (fun _ => (f c.options w.env).2.1) fun l => l)).2.tree := by
  unfold changeOptions
  cases hc : w.tree.component id with
  | error e => exact Or.inl rfl
  | ok c => exact Or.inr ⟨c, Tree.component_eq_ok_iff.1 hc, rfl⟩

theorem signature_tree (id : NodeId) (name : String) :
    (w.signature id name).2.tree = w.tree ∨ ∃ c s owner, w.tree.get? id = some c ∧
      c.signals.get? name = some s ∧ (w.signature id name).2.tree =
        (w.perform (.revise id (fun o => o) fun l =>
          l.replace name (s.buildSignature owner w.env).2.1)).2.tree := by
  unfold signature
  cases hc : w.tree.component id with
  | error e => exact Or.inl rfl
  | ok c =>
    cases hs : c.signals.get? name with
    | none => simp [Signals.get, hs]
    | some s =>
      right
      refine ⟨c, s, w.tree.pathText id ++ "#" ++ name, Tree.component_eq_ok_iff.1 hc, hs, ?_⟩
      simp [Signals.get, hs, perform]

/-- The one action that a built-in signal attempts. -/
inductive Attempts (w : World σ η) (call : Call) : Builtin → Action σ η → Prop where
  | configure {c : Component σ η} (hc : w.tree.get? call.receiver = some c) :
      Attempts w call .configure (.revise call.receiver
        (fun _ => (c.options.configure call.arguments w.env).2.1) fun l => l)
  | create (type name : String) :
      Attempts w call .createComponent (.createChild call.receiver type name)
  | delete (name : String) : Attempts w call .deleteComponent (.removeChild call.receiver name)
  | describe {c : Component σ η} {s : Signal σ η} {name : String} (owner : String)
      (hc : w.tree.get? call.receiver = some c) (hs : c.signals.get? name = some s) :
      Attempts w call .signature (.revise call.receiver (fun o => o) fun l =>
        l.replace name (s.buildSignature owner w.env).2.1)

theorem runCreate_tree (call : Call) :
    (w.runCreate call).2.tree = w.tree ∨ ∃ type name,
      (w.runCreate call).2.tree = (w.perform (.createChild call.receiver type name)).2.tree := by
  unfold runCreate
  extract_lets arguments
  cases arguments with
  | error e => exact Or.inl rfl
  | ok typeAndName =>
    refine Or.inr ⟨typeAndName.1, typeAndName.2, ?_⟩
    simp only [perform]
    rcases hcreate : w.createChild call.receiver typeAndName.1 typeAndName.2 with ⟨result, w'⟩
    cases result with
    | error e => rfl
    | ok id => rfl

/-- A built-in signal leaves the tree as it is, or changes it by the action that it attempts. -/
theorem runBuiltin_tree (b : Builtin) (call : Call) :
    (w.runBuiltin b call).2.tree = w.tree ∨ ∃ a, w.Attempts call b a ∧
      (w.runBuiltin b call).2.tree = (w.perform a).2.tree := by
  cases b with
  | configure =>
    rcases w.changeOptions_tree call.receiver fun o env => o.configure call.arguments env with
      htree | ⟨c, hc, htree⟩
    · exact Or.inl htree
    · exact Or.inr ⟨_, .configure hc, htree⟩
  | listOptions => exact Or.inl rfl
  | listSignals => exact Or.inl rfl
  | listTree => exact Or.inl rfl
  | createComponent =>
    rcases w.runCreate_tree call with htree | ⟨type, name, htree⟩
    · exact Or.inl htree
    · exact Or.inr ⟨_, .create type name, htree⟩
  | deleteComponent =>
    simp only [runBuiltin]
    cases call.arguments.getString "name" with
    | error e => exact Or.inl rfl
    | ok name => exact Or.inr ⟨_, .delete name, rfl⟩
  | signature =>
    simp only [runBuiltin]
    cases call.arguments.getString "name" with
    | error e => exact Or.inl rfl
    | ok name =>
      rcases w.signature_tree call.receiver name with htree | ⟨c, s, owner, hc, hs, htree⟩
      · exact Or.inl htree
      · exact Or.inr ⟨_, .describe owner hc hs, htree⟩

end World
end SignalTree
