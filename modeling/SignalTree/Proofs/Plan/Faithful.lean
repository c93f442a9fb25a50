import SignalTree.Proofs.Plan.Build
import SignalTree.Proofs.Plan.Step
import SignalTree.Proofs.Tree.Binding

/-!
# Faithful — what a plan that was built has become

The parts of a plan become components one after the other, and what a later part or a link does
leaves alone what an earlier one did: paths lead where they led, a component keeps its options, and
a table of children only grows at its end.

* `Plan.Realizes`: a component is what its part says;
* `Plan.Built`: a tree is what some parts say, with every component in its place;
* `Built.attachTo`, `Built.modify_links`: each step keeps this;
* `Plan.built_of_build`: the tree of a whole plan, and where its links lead.
-/

namespace SignalTree
namespace Plan

variable {σ η : Type}

/-! ## Components and parts -/

/-- The component is what the part says, with its options after those that the builder made. -/
structure Realizes (r : Registry σ η) (t : Tree σ η) (p : Part) (c : Component σ η) : Prop where
  name_eq : c.name = p.name
  type_eq : c.type = p.type
  parent_eq : ∃ parent, t.resolve t.root p.parent = .ok parent ∧ c.parent = some parent
  options_names : ∃ builder env made env', r.builder p.type = .ok builder ∧
    builder p.name env = (.ok made, env') ∧
    c.options.names = made.options.names ++ Keyed.keys p.declared
  declared : ∀ name d, (name, d) ∈ p.declared → ∃ s, c.options.get? name = some s ∧
    d.Describes name s ∧ (name ∉ Keyed.keys p.options → s.value = s.default)
  assigned : ∀ name y, (name, y) ∈ p.options → ∃ s, c.options.get? name = some s ∧
    y.toValue s.kind = .ok s.value

/-- The children that parts of a plan make under one component, in the order of the plan.  The first
part makes the component 1. -/
def childrenOf (t : Tree σ η) (parts : List Part) (id : NodeId) : List (String × NodeId) :=
  (parts.zipIdx 1).filterMap fun p =>
    if (t.resolve t.root p.1.parent).toOption = some id then some (p.1.name, p.2) else none

/-- The tree consists of the root and one component for each part, in the order of the parts. -/
structure Built (r : Registry σ η) (parts : List Part) (t : Tree σ η) : Prop where
  grown : t.Grown
  registry_eq : t.registry = r
  size_eq : t.size = parts.length + 1
  next_eq : t.next = parts.length + 1
  realized : ∀ (i : Nat) p, parts[i]? = some p → ∃ c, t.get? (i + 1) = some c ∧ Realizes r t p c
  children_eq : ∀ id c, t.get? id = some c → c.children = childrenOf t parts id

variable {r : Registry σ η} {t t' : Tree σ η} {parts : List Part} {p : Part} {parent id : NodeId}
  {c c' : Component σ η} {w w' : World σ η}

/-- What a component is does not depend on its children and links, as long as the path of its parent
leads where it led. -/
theorem Realizes.mono (h : Realizes r t p c)
    (hle : ∀ k, t.resolve t.root p.parent = .ok k → t'.resolve t'.root p.parent = .ok k)
    (hname : c'.name = c.name) (htype : c'.type = c.type) (hparent : c'.parent = c.parent)
    (hoptions : c'.options = c.options) : Realizes r t' p c' where
  name_eq := hname.trans h.name_eq
  type_eq := htype.trans h.type_eq
  parent_eq := by
    rcases h.parent_eq with ⟨parent, hk, hc⟩
    exact ⟨parent, hle parent hk, hparent.trans hc⟩
  options_names := by
    rw [hoptions]
    exact h.options_names
  declared := by
    rw [hoptions]
    exact h.declared
  assigned := by
    rw [hoptions]
    exact h.assigned

theorem Adds.realizes (h : Adds t p parent c) (hregistry : t.registry = r)
    (hdistinct : Keyed.Distinct p.options)
    (hparent : t'.resolve t'.root p.parent = .ok parent) : Realizes r t' p c := by
  rcases h.made with ⟨builder, env, made, env', path, o, hbuilder, hmade, _, hdeclared, hassigned⟩
  refine ⟨h.name_eq, h.type_eq, ⟨parent, hparent, h.parent_eq⟩, ?_, ?_, ?_⟩
  · refine ⟨builder, env, made, env', hregistry ▸ hbuilder, hmade, ?_⟩
    rw [hassigned.names_eq, hdeclared.names_eq]
    rfl
  · intro name d hd
    rcases hdeclared.lookup_of_mem hd with ⟨s, hs, hlookup⟩
    rcases Declaration.describes_of_setting hs with ⟨hdescribes, hvalue⟩
    by_cases hset : name ∈ Keyed.keys p.options
    · rcases List.mem_map.1 hset with ⟨⟨_, y⟩, hy, rfl⟩
      rcases hassigned.lookup_of_mem hdistinct hy with ⟨s', v, hs', _, hafter⟩
      obtain rfl : s = s' := Option.some.inj (hlookup.symm.trans hs')
      exact ⟨_, hafter, hdescribes.with_value v, fun hnot => absurd hset hnot⟩
    · refine ⟨s, ?_, hdescribes, fun _ => hvalue⟩
      rw [Settings.get?, hassigned.lookup_of_notMem hset, hlookup]
  · intro name y hy
    rcases hassigned.lookup_of_mem hdistinct hy with ⟨s, v, _, hv, hafter⟩
    exact ⟨_, hafter, hv⟩

/-! ## Tables of children -/

theorem childrenOf_congr (hsame : ∀ p ∈ parts,
    t'.resolve t'.root p.parent = t.resolve t.root p.parent) (id : NodeId) :
    childrenOf t' parts id = childrenOf t parts id := by
  apply List.filterMap_congr
  intro p hp
  rw [hsame p.1 (List.fst_mem_of_mem_zipIdx hp)]

theorem childrenOf_append (t : Tree σ η) (parts : List Part) (p : Part) (id : NodeId) :
    childrenOf t (parts ++ [p]) id = childrenOf t parts id ++
      if (t.resolve t.root p.parent).toOption = some id then [(p.name, parts.length + 1)]
      else [] := by
  rw [childrenOf, List.zipIdx_append, List.filterMap_append, ← childrenOf, Nat.add_comm]
  congr 1
  by_cases hid : (t.resolve t.root p.parent).toOption = some id
  · simp [hid]
  · simp [hid]

/-- No part has a parent that is not there. -/
theorem childrenOf_eq_nil (h : ∀ p ∈ parts, ∃ k, t.resolve t.root p.parent = .ok k ∧ k ≠ id) :
    childrenOf t parts id = [] := by
  rw [childrenOf, List.filterMap_eq_nil_iff]
  intro p hp
  rcases h p.1 (List.fst_mem_of_mem_zipIdx hp) with ⟨k, hk, hne⟩
  rw [hk, if_neg]
  simpa [Except.toOption] using hne

/-! ## Steps -/

namespace Built

theorem new (rootName : String) (r : Registry σ η) : Built r [] (Tree.new rootName r) where
  grown := Tree.Grown.new rootName r
  registry_eq := rfl
  size_eq := rfl
  next_eq := rfl
  realized := by simp
  children_eq := by
    intro id c hc
    rw [(Tree.get?_new hc).2]
    rfl

/-- Every part has a parent in the tree. -/
theorem parent_found (h : Built r parts t) (hp : p ∈ parts) :
    ∃ k, t.resolve t.root p.parent = .ok k := by
  rcases List.getElem?_of_mem hp with ⟨i, hi⟩
  rcases h.realized i p hi with ⟨c, _, hrealizes⟩
  rcases hrealizes.parent_eq with ⟨k, hk, _⟩
  exact ⟨k, hk⟩

theorem resolve_attachTo (h : Built r parts t) (hr : r.Plain) (hadds : Adds t p parent c)
    {path : String} {k : NodeId} (hk : t.resolve t.root path = .ok k) :
    (t.attachTo parent p.name c).resolve (t.attachTo parent p.name c).root path = .ok k :=
  h.grown.resolve_attachTo hadds (hadds.children_eq_nil (h.registry_eq ▸ hr)) hk

/-- With one part more, each part has its component. -/
theorem realized_attachTo (h : Built r parts t) (hr : r.Plain) (hadds : Adds t p parent c)
    (hdistinct : Keyed.Distinct p.options) {i : Nat} {q : Part}
    (hq : (parts ++ [p])[i]? = some q) :
    ∃ d, (t.attachTo parent p.name c).get? (i + 1) = some d ∧
      Realizes r (t.attachTo parent p.name c) q d := by
  rcases hadds.name_free with ⟨pc, hpc, hfree⟩
  rw [h.grown.get?_attachTo_eq hpc hfree]
  rw [List.getElem?_append] at hq
  split at hq
  · -- an earlier part: its component is the same, but for a new child
    rename_i hi
    rcases h.realized i q hq with ⟨d, hd, hrealizes⟩
    have hne : i + 1 ≠ t.next := by
      rw [h.next_eq]
      exact (Nat.succ_lt_succ hi).ne
    have hstays : ∀ k, t.resolve t.root q.parent = .ok k → _ := fun k hk =>
      h.resolve_attachTo hr hadds hk
    rw [if_neg hne]
    by_cases hparent : i + 1 = parent
    · rw [if_pos hparent]
      obtain rfl : pc = d := Option.some.inj (hpc.symm.trans (hparent ▸ hd))
      exact ⟨_, rfl, hrealizes.mono hstays rfl rfl rfl rfl⟩
    · rw [if_neg hparent]
      exact ⟨d, hd, hrealizes.mono hstays rfl rfl rfl rfl⟩
  · -- the new part
    rename_i hi
    rw [List.getElem?_singleton] at hq
    split at hq
    · rename_i hzero
      obtain rfl : i = parts.length := by omega
      have hnext : parts.length + 1 = t.next := h.next_eq.symm
      rw [← Option.some.inj hq, if_pos hnext]
      exact ⟨c, rfl, hadds.realizes h.registry_eq hdistinct
        (h.resolve_attachTo hr hadds hadds.parent_found)⟩
    · cases hq

/-- With one part more, the new component stands at the end of the table of its parent. -/
theorem children_attachTo (h : Built r parts t) (hr : r.Plain) (hadds : Adds t p parent c)
    {d : Component σ η} (hd : (t.attachTo parent p.name c).get? id = some d) :
    d.children = childrenOf (t.attachTo parent p.name c) (parts ++ [p]) id := by
  rcases hadds.name_free with ⟨pc, hpc, hfree⟩
  have hsame : ∀ q ∈ parts, (t.attachTo parent p.name c).resolve
      (t.attachTo parent p.name c).root q.parent = t.resolve t.root q.parent := by
    intro q hq
    rcases h.parent_found hq with ⟨k, hk⟩
    rw [h.resolve_attachTo hr hadds hk, hk]
  rw [childrenOf_append, childrenOf_congr hsame, h.resolve_attachTo hr hadds hadds.parent_found]
  change d.children = childrenOf t parts id ++ if some parent = some id then _ else []
  rw [h.grown.get?_attachTo_eq hpc hfree] at hd
  by_cases hnew : id = t.next
  · -- the new component has no children yet
    have hlt : parent ≠ t.next := (h.grown.lt_next hpc).ne
    rw [if_pos hnew] at hd
    rw [← Option.some.inj hd, hadds.children_eq_nil (h.registry_eq ▸ hr), hnew,
      if_neg (by simpa using hlt), childrenOf_eq_nil]
    · rfl
    · intro q hq
      rcases h.parent_found hq with ⟨k, hk⟩
      rcases Tree.contains_iff.1 (h.grown.contains_of_resolve hk) with ⟨kc, hkc⟩
      exact ⟨k, hk, (h.grown.lt_next hkc).ne⟩
  · rw [if_neg hnew] at hd
    by_cases hparent : id = parent
    · rw [if_pos hparent] at hd
      rw [← Option.some.inj hd, if_pos (by rw [hparent]), hparent, ← h.children_eq parent pc hpc,
        h.next_eq]
    · rw [if_neg hparent] at hd
      rw [h.children_eq id d hd, if_neg (by simpa using Ne.symm hparent), List.append_nil]

theorem attachTo (h : Built r parts t) (hr : r.Plain) (hadds : Adds t p parent c)
    (hdistinct : Keyed.Distinct p.options) :
    Built r (parts ++ [p]) (t.attachTo parent p.name c) where
  grown := by
    rcases hadds.name_free with ⟨pc, hpc, hfree⟩
    exact h.grown.attachTo hpc hfree hadds.name_eq hadds.parent_eq
      (hadds.children_eq_nil (h.registry_eq ▸ hr))
  registry_eq := h.registry_eq
  size_eq := by
    have hsize := h.size_eq
    rw [Tree.size] at hsize ⊢
    simp [Tree.attachTo, Tree.modify, Tree.add, hsize]
  next_eq := by
    change t.next + 1 = _
    rw [h.next_eq, List.length_append]
    rfl
  realized := fun _ _ hq => h.realized_attachTo hr hadds hdistinct hq
  children_eq := fun _ _ hd => h.children_attachTo hr hadds hd

/-- A change of links leaves alone what the parts made. -/
theorem modify_links (h : Built r parts t) (id : NodeId)
    (f : List (String × NodeId) → List (String × NodeId)) :
    Built r parts (t.modify id fun c => { c with links := f c.links }) := by
  let g : Component σ η → Component σ η := fun c => { c with links := f c.links }
  have hplace : Tree.KeepsPlace g := fun _ => ⟨rfl, rfl, rfl⟩
  have hresolve : ∀ path, (t.modify id g).resolve t.root path = t.resolve t.root path :=
    h.grown.resolve_modify id hplace
  constructor
  · exact h.grown.modify id hplace
  · exact h.registry_eq
  · rw [← h.size_eq]
    simp [Tree.size, Tree.modify]
  · exact h.next_eq
  · intro i p hp
    rcases h.realized i p hp with ⟨c, hc, hrealizes⟩
    have hafter : (t.modify id g).get? (i + 1) = some (if i + 1 = id then g c else c) :=
      Tree.get?_modify_eq_some_iff.2 ⟨c, hc, rfl⟩
    refine ⟨_, hafter, hrealizes.mono (fun k hk => (hresolve _).trans hk) ?_ ?_ ?_ ?_⟩
    · split <;> rfl
    · split <;> rfl
    · split <;> rfl
    · split <;> rfl
  · intro k d hd
    rcases Tree.get?_modify_eq_some_iff.1 hd with ⟨c, hc, rfl⟩
    have hchildren : childrenOf (t.modify id g) parts k = childrenOf t parts k :=
      childrenOf_congr (fun p _ => hresolve p.parent) k
    rw [hchildren, ← h.children_eq k c hc]
    split <;> rfl

/-! ## Runs -/

theorem addParts (h : Built r parts w.tree) (hr : r.Plain) {more : List Part}
    (hdistinct : ∀ p ∈ more, Keyed.Distinct p.options)
    (hrun : forEach addPart more w = (.ok (), w')) : Built r (parts ++ more) w'.tree := by
  induction more generalizing parts w with
  | nil =>
    rw [List.append_nil]
    exact (Prod.mk.inj hrun).2 ▸ h
  | cons p rest ih =>
    rcases hp : Plan.addPart p w with ⟨result, w₁⟩
    cases result with
    | error e => simp [forEach, hp] at hrun
    | ok u =>
      simp only [forEach, hp] at hrun
      rw [List.forall_mem_cons] at hdistinct
      rcases adds_of_addPart h.grown hp with ⟨parent, c, hadds, hw₁⟩
      have hnext := h.attachTo hr hadds hdistinct.1
      rw [← hw₁] at hnext
      have hrest := ih hnext hdistinct.2 hrun
      rwa [List.append_assoc] at hrest

/-- Links that are made leave the parts alone, and paths lead where they led. -/
theorem addLinks (h : Built r parts w.tree) {links : List Link}
    (hrun : forEach addLink links w = (.ok (), w')) :
    Built r parts w'.tree ∧
      (∀ path, w'.tree.resolve w'.tree.root path = w.tree.resolve w.tree.root path) ∧
      ∀ id, w'.tree.contains id = w.tree.contains id := by
  induction links generalizing w with
  | nil =>
    rw [← (Prod.mk.inj hrun).2]
    exact ⟨h, fun _ => rfl, fun _ => rfl⟩
  | cons l rest ih =>
    rcases hl : addLink l w with ⟨result, w₁⟩
    cases result with
    | error e => simp [forEach, hl] at hrun
    | ok u =>
      simp only [forEach, hl] at hrun
      rcases link_of_addLink hl with ⟨owner, target, _, _, _, _, hw₁⟩
      have hnext : Built r parts w₁.tree := by
        rw [hw₁]
        exact h.modify_links owner (Keyed.put l.name target)
      rcases ih hnext hrun with ⟨hlast, hpaths, hlive⟩
      refine ⟨hlast, fun path => (hpaths path).trans ?_, fun id => (hlive id).trans ?_⟩
      · rw [hw₁]
        exact h.grown.resolve_modify owner
          (f := fun c => { c with links := Keyed.put l.name target c.links })
          (fun _ => ⟨rfl, rfl, rfl⟩) path
      · rw [hw₁, Tree.contains_modify]

end Built

/-! ## Links -/

/-- The link is the last one of a name from one component. -/
def IsLast (t : Tree σ η) (links : List Link) (owner : NodeId) (name : String) (last : Link) :
    Prop :=
  ∃ front back, links = front ++ last :: back ∧ last.name = name ∧
    t.resolve t.root last.owner = .ok owner ∧
    ∀ l ∈ back, l.name = name → t.resolve t.root l.owner ≠ .ok owner

variable {links : List Link} {owner target : NodeId} {name : String} {last : Link}

theorem exists_isLast {l : Link} (hl : l ∈ links) (howner : t.resolve t.root l.owner = .ok owner) :
    ∃ last, IsLast t links owner l.name last := by
  induction links generalizing l with
  | nil => cases hl
  | cons first rest ih =>
    by_cases hlater : ∃ m ∈ rest, m.name = l.name ∧ t.resolve t.root m.owner = .ok owner
    · rcases hlater with ⟨m, hm, hname, hm'⟩
      rcases ih hm hm' with ⟨last, front, back, hsplit, hlast⟩
      exact ⟨last, first :: front, back, by rw [hsplit, List.cons_append], hname ▸ hlast⟩
    · obtain rfl : l = first := by
        rcases List.mem_cons.1 hl with hfirst | hrest
        · exact hfirst
        · exact absurd ⟨l, hrest, rfl, howner⟩ hlater
      exact ⟨l, [], rest, rfl, rfl, howner, fun m hm hname hm' => hlater ⟨m, hm, hname, hm'⟩⟩

theorem forEach_append_eq_ok {α : Type} {f : α → World σ η → Except Error Unit × World σ η}
    {front back : List α} (h : forEach f (front ++ back) w = (.ok (), w')) :
    ∃ w₁, forEach f front w = (.ok (), w₁) ∧ forEach f back w₁ = (.ok (), w') := by
  induction front generalizing w with
  | nil => exact ⟨w, rfl, h⟩
  | cons a rest ih =>
    rcases ha : f a w with ⟨result, w₁⟩
    cases result with
    | error e => simp [forEach, ha] at h
    | ok u =>
      simp only [List.cons_append, forEach, ha] at h ⊢
      exact ih h

theorem linkTarget_of_link? (hbound : t.link? owner name = some target)
    (htarget : t.contains target = true) : t.linkTarget owner name = .ok target := by
  have hlive : t.contains owner = true := by
    by_contra hgone
    rw [Tree.link?_of_not_contains hgone] at hbound
    cases hbound
  rw [Tree.linkTarget_eq_outcome hlive, Tree.linkOutcome_eq_ok_iff]
  exact ⟨hbound, htarget⟩

theorem link?_of_addLink {l : Link} (hrun : addLink l w = (.ok (), w'))
    (howner : w.tree.resolve w.tree.root l.owner = .ok owner)
    (htarget : w.tree.resolve w.tree.root l.target = .ok target) :
    w'.tree.link? owner l.name = some target := by
  rcases link_of_addLink hrun with ⟨owner', target', howner', htarget', hlive, _, hw'⟩
  obtain rfl : owner = owner' := Except.ok.inj (howner.symm.trans howner')
  obtain rfl : target = target' := Except.ok.inj (htarget.symm.trans htarget')
  rcases Tree.contains_iff.1 hlive with ⟨c, hc⟩
  rw [hw', Tree.link?_modify, if_pos rfl, hc]
  simp [Component.link?, Keyed.lookup_put]

/-- A link that is not spoken of is as it was. -/
theorem link?_of_links (h : Built r parts w.tree) (hrun : forEach addLink links w = (.ok (), w'))
    (hsilent : ∀ l ∈ links, l.name = name → w.tree.resolve w.tree.root l.owner ≠ .ok owner) :
    w'.tree.link? owner name = w.tree.link? owner name := by
  induction links generalizing w with
  | nil => rw [(Prod.mk.inj hrun).2]
  | cons l rest ih =>
    rcases hl : addLink l w with ⟨result, w₁⟩
    cases result with
    | error e => simp [forEach, hl] at hrun
    | ok u =>
      have hfirst : forEach addLink [l] w = (.ok (), w₁) := by simp [forEach, hl]
      rcases h.addLinks hfirst with ⟨hnext, hpaths, _⟩
      simp only [forEach, hl] at hrun
      rw [List.forall_mem_cons] at hsilent
      rw [ih hnext hrun fun m hm hname => (hpaths m.owner) ▸ hsilent.2 m hm hname]
      rcases link_of_addLink hl with ⟨owner', target, howner', _, _, _, hw₁⟩
      rw [hw₁, Tree.link?_modify]
      split
      · rename_i heq
        have hne : name ≠ l.name := by
          intro hname
          exact hsilent.1 hname.symm (heq ▸ howner')
        simp [Tree.link?, Component.link?, Keyed.lookup_put, hne]
      · rfl

/-- The world in which one of the links has just been made. -/
theorem exists_after_link (h : Built r parts w.tree) {front back : List Link} {l : Link}
    (hrun : forEach addLink (front ++ l :: back) w = (.ok (), w')) :
    ∃ owner target w₁, w.tree.resolve w.tree.root l.owner = .ok owner ∧
      w.tree.resolve w.tree.root l.target = .ok target ∧ w.tree.contains target = true ∧
      Built r parts w₁.tree ∧
      (∀ path, w₁.tree.resolve w₁.tree.root path = w.tree.resolve w.tree.root path) ∧
      w₁.tree.link? owner l.name = some target ∧ forEach addLink back w₁ = (.ok (), w') := by
  rcases forEach_append_eq_ok hrun with ⟨w₀, hfront, hrun⟩
  rcases h.addLinks hfront with ⟨hstage, hpaths, hlive⟩
  rcases hl : addLink l w₀ with ⟨result, w₁⟩
  cases result with
  | error e => simp [forEach, hl] at hrun
  | ok u =>
    have hfirst : forEach addLink [l] w₀ = (.ok (), w₁) := by simp [forEach, hl]
    rcases hstage.addLinks hfirst with ⟨hnext, hpaths', _⟩
    rcases link_of_addLink hl with ⟨owner, target, howner, htarget, _, htc, _⟩
    have hbound := link?_of_addLink hl howner htarget
    simp only [forEach, hl] at hrun
    rw [hpaths] at howner htarget
    rw [hlive] at htc
    exact ⟨owner, target, w₁, howner, htarget, htc, hnext,
      fun path => (hpaths' path).trans (hpaths path), hbound, hrun⟩

/-- The last link of a name leads to its target. -/
theorem link?_of_isLast (h : Built r parts w.tree) (hrun : forEach addLink links w = (.ok (), w'))
    (hlast : IsLast w.tree links owner name last) :
    ∃ target, w.tree.resolve w.tree.root last.target = .ok target ∧
      w.tree.contains target = true ∧ w'.tree.link? owner name = some target := by
  rcases hlast with ⟨front, back, rfl, rfl, howner, hback⟩
  rcases exists_after_link h hrun with
    ⟨owner', target, w₁, howner', htarget, htc, hstage, hpaths, hbound, hrun⟩
  obtain rfl : owner = owner' := Except.ok.inj (howner.symm.trans howner')
  refine ⟨target, htarget, htc, ?_⟩
  rw [link?_of_links hstage hrun, hbound]
  intro l hl hname
  rw [hpaths]
  exact hback l hl hname

/-! ## Whole plans -/

/-- A plan that was built has become the tree that it describes: each part is a component in its
place, with its options, and each link leads where the last link of its name from its owner says. -/
theorem built_of_build (p : Plan) (r : Registry σ η) (env : Env σ) (hr : r.Plain)
    (hoptions : ∀ part ∈ p.parts, Keyed.Distinct part.options) {w : World σ η}
    (hbuild : p.build r env = (.ok (), w)) :
    Built r p.parts w.tree ∧
      ∀ l ∈ p.links, ∃ owner last target, w.tree.resolve w.tree.root l.owner = .ok owner ∧
        IsLast w.tree p.links owner l.name last ∧
        w.tree.resolve w.tree.root last.target = .ok target ∧
        w.followLink owner l.name = (.ok target, w) := by
  unfold build at hbuild
  rcases hparts : forEach addPart p.parts ⟨Tree.new p.root r, env⟩ with ⟨result, w₁⟩
  rw [hparts] at hbuild
  cases result with
  | error e => cases hbuild
  | ok u =>
    have hmade : Built r ([] ++ p.parts) w₁.tree :=
      (Built.new p.root r).addParts hr hoptions hparts
    rw [List.nil_append] at hmade
    rcases hmade.addLinks hbuild with ⟨hbuilt, hpaths, hlive⟩
    refine ⟨hbuilt, ?_⟩
    intro l hl
    rcases List.append_of_mem hl with ⟨front, back, hsplit⟩
    rcases exists_after_link hmade (hsplit ▸ hbuild) with ⟨owner, _, _, howner, _⟩
    rcases exists_isLast hl howner with ⟨last, hlast⟩
    rcases link?_of_isLast hmade hbuild hlast with ⟨target, htarget, htc, hbound⟩
    refine ⟨owner, last, target, (hpaths _).trans howner, ?_, (hpaths _).trans htarget, ?_⟩
    · simp only [IsLast, hpaths]
      exact hlast
    · rw [World.followLink, linkTarget_of_link? hbound ((hlive target).trans htc)]

/-- A plan with a forward link, a link that is made twice, and options that are declared and set. -/
def workshopPlan : Plan where
  root := "Root"
  parts := [⟨"", "tools", "Group", [], []⟩,
    ⟨"cpath:/tools/", "mesh", "Group",
      [("size", ⟨"integer", some (.text "3"), "cells", none, [.text "1", .text "2"], true⟩),
        ("label", ⟨"string", none, "", some "Label", [], false⟩)],
      [("size", .text "2")]⟩,
    ⟨" /tools/mesh/../..", "fields", "Group", [], []⟩,
    ⟨"/tools", "grid", "Group", [], []⟩]
  links := [⟨"cpath:/tools", "mesh", "cpath:/fields"⟩, ⟨"/fields/../tools", "mesh", "/tools/mesh"⟩]

theorem built_workshopPlan :
    let w := (workshopPlan.build (Registry.standard : Registry Unit Unit) ⟨[], (), []⟩).2
    (Registry.standard : Registry Unit Unit).Plain ∧
      (∀ part ∈ workshopPlan.parts, Keyed.Distinct part.options) ∧
      workshopPlan.build (Registry.standard : Registry Unit Unit) ⟨[], (), []⟩ = (.ok (), w) ∧
      Built (Registry.standard : Registry Unit Unit) workshopPlan.parts w.tree ∧
      ∀ l ∈ workshopPlan.links, ∃ owner last target,
        w.tree.resolve w.tree.root l.owner = .ok owner ∧
          IsLast w.tree workshopPlan.links owner l.name last ∧
          w.tree.resolve w.tree.root last.target = .ok target ∧
          w.followLink owner l.name = (.ok target, w) := by
  have hoptions : ∀ part ∈ workshopPlan.parts, Keyed.Distinct part.options := by decide
  have hbuild : workshopPlan.build (Registry.standard : Registry Unit Unit) ⟨[], (), []⟩
      = (.ok (), (workshopPlan.build (Registry.standard : Registry Unit Unit) ⟨[], (), []⟩).2) :=
    rfl
  exact ⟨Registry.plain_standard, hoptions, hbuild,
    built_of_build workshopPlan _ ⟨[], (), []⟩ Registry.plain_standard hoptions hbuild⟩

end Plan
end SignalTree
