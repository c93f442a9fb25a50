import SignalTree.Proofs.Plan.Mirror
import SignalTree.Proofs.Plan.Options
import SignalTree.Proofs.Settings.Configure
import SignalTree.Proofs.Tree.Operation

/-!
# Step — what a step of the building does

A step that succeeds attaches one component to the tree, which has all its options by then, or
makes one link.  Everything that is known about a plan that was built follows from these two.

* `Plan.Adds`: the component that a part of a plan stands for;
* `Plan.adds_of_addPart`: the tree after a part;
* `Plan.link_of_addLink`: the tree after a link;
* `Tree.Grown.resolve_of_le`, `Tree.resolve_modify`: paths lead where they led before.
-/

namespace SignalTree

variable {σ η : Type}

/-! ## Changes of a new component -/

section
variable {t : Tree σ η} {parent : NodeId} {name : String} {c pc : Component σ η}

/-- A component that was just attached is changed as if before. -/
theorem Tree.Grown.modify_attachTo (h : t.Grown) (hpc : t.get? parent = some pc)
    (f : Component σ η → Component σ η) :
    (t.attachTo parent name c).modify t.next f = t.attachTo parent name (f c) := by
  have hparent : t.next ≠ parent := (h.lt_next hpc).ne'
  have hold : ∀ p ∈ t.nodes, p.1 ≠ t.next := fun p hp =>
    (h.ids_lt_next p.1 (List.mem_map_of_mem hp)).ne
  simp only [Tree.attachTo, Tree.modify, Tree.add, List.map_append, List.map_map, List.map_cons,
    List.map_nil, hparent, if_false, if_true]
  congr 2
  apply List.map_congr_left
  intro p hp
  by_cases hpp : p.1 = parent
  · simp [hpp, hparent.symm]
  · simp [hpp, hold p hp]

theorem World.changeOptions_attachTo (h : t.Grown) (hpc : t.get? parent = some pc)
    (hname : pc.child? name = none) (env : Env σ)
    (f : Settings σ → Env σ → Except Error Unit × Settings σ × Env σ) :
    World.changeOptions ⟨t.attachTo parent name c, env⟩ t.next f
      = ((f c.options env).1,
          ⟨t.attachTo parent name { c with options := (f c.options env).2.1 },
            (f c.options env).2.2⟩) := by
  have hget : (t.attachTo parent name c).component t.next = .ok c := by
    rw [Tree.component_eq_ok_iff, h.get?_attachTo_eq hpc hname, if_pos rfl]
  simp only [changeOptions, hget, h.modify_attachTo hpc]

end

/-- What a builder was called with and made, if its component is in the tree. -/
theorem World.createChild_eq_ok {w w' : World σ η} {parent id : NodeId} {type name : String}
    (h : w.createChild parent type name = (.ok id, w')) :
    ∃ builder made env, w.tree.registry.builder type = .ok builder ∧
      builder name w.env = (.ok made, env) ∧ w.tree.checkNewChild parent name = .ok () ∧
      id = w.tree.next ∧
      w' = World.emit ⟨w.tree.attachTo parent name (Component.placed { made with type } name
          (some parent) (w.tree.childPath parent name)), env⟩
        (.componentCreated (w.tree.childPath parent name) type) := by
  unfold createChild at h
  cases hbuilder : w.tree.registry.builder type with
  | error e => simp [hbuilder] at h
  | ok builder =>
    cases hcheck : w.tree.checkNewChild parent name with
    | error e => simp [hbuilder, hcheck] at h
    | ok u =>
      rcases hmade : builder name w.env with ⟨result, env⟩
      cases result with
      | error e => simp [hbuilder, hcheck, hmade] at h
      | ok made =>
        simp only [hbuilder, hcheck, hmade] at h
        rcases Prod.mk.inj h with ⟨hid, hw'⟩
        exact ⟨builder, made, env, rfl, hmade, rfl, (Except.ok.inj hid).symm, hw'.symm⟩

theorem Settings.set_eq_ok {o : Settings σ} {name : String} {s : Setting σ} {v : Value}
    {env : Env σ} (hs : o.get name = .ok s) (h : (o.set name v env).1 = .ok ()) :
    s.check v = .ok () ∧ (o.set name v env).2.1 = o.replace name { s with value := v } := by
  have hsets := o.set_sets name v env
  rw [h] at hsets
  generalize (o.set name v env).2.1 = o' at hsets ⊢
  cases hsets with
  | done hs' hcheck =>
    obtain rfl := Option.some.inj ((Settings.get_eq_ok_iff.1 hs).symm.trans hs')
    exact ⟨hcheck, (Settings.replace_with_value hs v).symm⟩

namespace Plan

/-! ## A part -/

/-- The component that a part of a plan stands for, under a component of the tree. -/
structure Adds (t : Tree σ η) (p : Part) (parent : NodeId) (c : Component σ η) : Prop where
  parent_found : t.resolve t.root p.parent = .ok parent
  name_valid : Tree.nameFault p.name = none
  name_free : ∃ pc, t.get? parent = some pc ∧ pc.child? p.name = none
  name_eq : c.name = p.name
  type_eq : c.type = p.type
  parent_eq : c.parent = some parent
  /-- The builder made it; its options were declared and set after that. -/
  made : ∃ builder env made env' path o, t.registry.builder p.type = .ok builder ∧
    builder p.name env = (.ok made, env') ∧ c.children = made.children ∧
    Settings.Declares p.declared ⟨path, made.options.items⟩ o ∧
    Settings.Assigns p.options o c.options

/-- Builders that make components without children make all of it. -/
theorem Adds.children_eq_nil {t : Tree σ η} {p : Part} {parent : NodeId} {c : Component σ η}
    (h : Adds t p parent c) (hr : t.registry.Plain) : c.children = [] := by
  rcases h.made with ⟨builder, env, made, env', _, _, hbuilder, hmade, hchildren, _⟩
  rw [hchildren]
  exact hr _ builder p.name env made env' hbuilder hmade

section
variable {t : Tree σ η} {parent : NodeId} {name : String} {c pc : Component σ η} {env : Env σ}
  {w w' : World σ η}

theorem declares_of_forEach (h : t.Grown) (hpc : t.get? parent = some pc)
    (hname : pc.child? name = none) {declared : List (String × Declaration)}
    (hrun : forEach (addDeclared t.next) declared ⟨t.attachTo parent name c, env⟩ = (.ok (), w')) :
    ∃ o, Settings.Declares declared c.options o ∧
      w' = ⟨t.attachTo parent name { c with options := o }, env⟩ := by
  induction declared generalizing c with
  | nil => exact ⟨c.options, .none _, (Prod.mk.inj hrun).2.symm⟩
  | cons d rest ih =>
    cases hs : (d.2.setting d.1 : Except Error (Setting σ)) with
    | error e => simp [forEach, addDeclared, hs] at hrun
    | ok s =>
      cases ho : c.options.insert s with
      | error e =>
        simp [forEach, addDeclared, hs, ho, World.changeOptions_attachTo h hpc hname] at hrun
      | ok o =>
        simp only [forEach, addDeclared, hs, ho, World.changeOptions_attachTo h hpc hname] at hrun
        rcases ih hrun with ⟨o', hrest, hw'⟩
        exact ⟨o', .next hs ho hrest, hw'⟩

theorem assigns_of_forEach (h : t.Grown) (hpc : t.get? parent = some pc)
    (hname : pc.child? name = none) {options : List (String × Yaml)}
    (hrun : forEach (setOption t.next) options ⟨t.attachTo parent name c, env⟩ = (.ok (), w')) :
    ∃ o, Settings.Assigns options c.options o ∧
      w'.tree = t.attachTo parent name { c with options := o } := by
  induction options generalizing c env with
  | nil =>
    rw [← (Prod.mk.inj hrun).2]
    exact ⟨c.options, .none _, rfl⟩
  | cons e rest ih =>
    rcases e with ⟨key, y⟩
    cases hv : optionValue ⟨t.attachTo parent name c, env⟩ t.next key y with
    | error e => simp [forEach, setOption, hv] at hrun
    | ok v =>
      rcases optionValue_eq_ok_iff.1 hv with ⟨c', s, hc', hs, hv'⟩
      rw [h.get?_attachTo_eq hpc hname, if_pos rfl] at hc'
      obtain rfl := Option.some.inj hc'
      replace hs : c.options.get key = .ok s := Settings.get_eq_ok_iff.2 hs
      simp only [forEach, setOption, hv, World.setOption,
        World.changeOptions_attachTo h hpc hname] at hrun
      cases hresult : (c.options.set key v env).1 with
      | error e => simp [hresult] at hrun
      | ok u =>
        rcases Settings.set_eq_ok hs hresult with ⟨hcheck, hafter⟩
        rw [hresult, hafter] at hrun
        rcases ih hrun with ⟨o', hrest, hw'⟩
        exact ⟨o', .next hs hv' hcheck hrest, hw'⟩

/-- A part that succeeds attaches its component. -/
theorem adds_of_addPart (h : w.tree.Grown) {p : Part} (hrun : addPart p w = (.ok (), w')) :
    ∃ parent c, Adds w.tree p parent c ∧ w'.tree = w.tree.attachTo parent p.name c := by
  cases hparent : w.tree.resolve w.tree.root p.parent with
  | error e => simp [addPart, hparent] at hrun
  | ok parent =>
    rcases hcreate : w.createChild parent p.type p.name with ⟨result, w₀⟩
    cases result with
    | error e => simp [addPart, hparent, hcreate] at hrun
    | ok id =>
      rcases World.createChild_eq_ok hcreate with
        ⟨builder, made, env, hbuilder, hmade, hcheck, rfl, rfl⟩
      rcases Tree.checkNewChild_ok hcheck with ⟨hvalid, pc, hpc, hname⟩
      let c := Component.placed { made with type := p.type } p.name (some parent)
        (w.tree.childPath parent p.name)
      simp only [addPart, hparent, hcreate, World.emit] at hrun
      -- all options are declared before the first one is set
      rcases hdeclared : forEach (addDeclared w.tree.next) p.declared _ with ⟨result, w₁⟩
      rw [hdeclared] at hrun
      cases result with
      | error e => cases hrun
      | ok u =>
        rcases declares_of_forEach h hpc hname hdeclared with ⟨o, ho, rfl⟩
        rcases assigns_of_forEach h hpc hname hrun with ⟨o', ho', hw'⟩
        exact ⟨parent, { c with options := o' }, ⟨hparent, hvalid, ⟨pc, hpc, hname⟩, rfl, rfl, rfl,
          builder, w.env, made, env, _, o, hbuilder, hmade, rfl, ho, ho'⟩, hw'⟩

/-! ## A link -/

theorem link_of_addLink {l : Link} (hrun : addLink l w = (.ok (), w')) :
    ∃ owner target, w.tree.resolve w.tree.root l.owner = .ok owner ∧
      w.tree.resolve w.tree.root l.target = .ok target ∧ w.tree.contains owner = true ∧
      w.tree.contains target = true ∧
      w'.tree = w.tree.modify owner fun c =>
        { c with links := Keyed.put l.name target c.links } := by
  cases howner : w.tree.resolve w.tree.root l.owner with
  | error e => simp [addLink, howner] at hrun
  | ok owner =>
    cases htarget : w.tree.resolve w.tree.root l.target with
    | error e => simp [addLink, howner, htarget] at hrun
    | ok target =>
      cases htc : w.tree.component target with
      | error e => simp [addLink, howner, htarget, World.link, htc] at hrun
      | ok tc =>
        cases hoc : w.tree.component owner with
        | error e => simp [addLink, howner, htarget, World.link, htc, hoc] at hrun
        | ok oc =>
          simp only [addLink, howner, htarget, World.link, htc, hoc] at hrun
          rw [← (Prod.mk.inj hrun).2]
          exact ⟨owner, target, rfl, rfl, Tree.contains_iff.2 ⟨oc, Tree.component_eq_ok_iff.1 hoc⟩,
            Tree.contains_iff.2 ⟨tc, Tree.component_eq_ok_iff.1 htc⟩, rfl⟩

end

end Plan

/-! ## Paths -/

namespace Tree

variable {t t' : Tree σ η} {path : String} {k parent : NodeId}

namespace Grown

theorem descend_of_resolve (h : t.Grown) (hk : t.resolve t.root path = .ok k) :
    ∃ names, t.descend names = some k := by
  rcases h.resolve_eq_ok_iff.1 hk with ⟨body, _, hlands, _⟩
  rcases Option.bind_eq_some_iff.1 hlands with ⟨stack, _, hdescend⟩
  exact ⟨_, hdescend⟩

/-- In a tree in which all names lead where they led, paths do so, too. -/
theorem resolve_of_le (h : t.Grown) (h' : t'.Grown)
    (hle : ∀ names k, t.descend names = some k → t'.descend names = some k)
    (hk : t.resolve t.root path = .ok k) : t'.resolve t'.root path = .ok k := by
  have hlands : ∀ front k, t.lands [] front = some k → t'.lands [] front = some k := by
    intro front k hfront
    rcases Option.bind_eq_some_iff.1 hfront with ⟨stack, hreduce, hdescend⟩
    exact Option.bind_eq_some_iff.2 ⟨stack, hreduce, hle _ _ hdescend⟩
  rcases h.resolve_eq_ok_iff.1 hk with ⟨body, hbody, hend, hfronts⟩
  refine h'.resolve_eq_ok_iff.2 ⟨body, hbody, hlands _ _ hend, ?_⟩
  intro front hfront
  rcases hfronts front hfront with ⟨j, hj⟩
  exact ⟨j, hlands _ _ hj⟩

theorem resolve_modify (h : t.Grown) (id : NodeId) {f : Component σ η → Component σ η}
    (hf : KeepsPlace f) (path : String) :
    (t.modify id f).resolve t.root path = t.resolve t.root path := by
  have h' := h.modify id hf
  cases hk : t.resolve t.root path with
  | ok k => exact h.resolve_of_le h' (fun names k hn => (descend_modify hf id names).trans hn) hk
  | error e =>
    cases hk' : (t.modify id f).resolve t.root path with
    | ok k =>
      have hback : t.resolve t.root path = .ok k := h'.resolve_of_le h
        (fun names k hn => (descend_modify hf id names).symm.trans hn) hk'
      rw [hk] at hback
      cases hback
    | error e' =>
      have he' : e' = .notFound path := h'.resolve_eq_error h'.contains_root hk'
      rw [h.resolve_eq_error h.contains_root hk, he']

theorem resolve_attachTo (h : t.Grown) {p : Plan.Part} {c : Component σ η}
    (hadds : Plan.Adds t p parent c) (hcc : c.children = [])
    (hk : t.resolve t.root path = .ok k) :
    (t.attachTo parent p.name c).resolve t.root path = .ok k := by
  rcases hadds.name_free with ⟨pc, hpc, hname⟩
  rcases h.descend_of_resolve hadds.parent_found with ⟨names, hnames⟩
  have h' := h.attachTo hpc hname hadds.name_eq hadds.parent_eq hcc
  refine h.resolve_of_le h' ?_ hk
  intro others k hothers
  rw [h.descend_attachTo hnames hpc hname hcc]
  split
  · rename_i hnew
    rw [hnew, descend_cons hnames hpc, hname] at hothers
    cases hothers
  · exact hothers

end Grown
end Tree
end SignalTree
