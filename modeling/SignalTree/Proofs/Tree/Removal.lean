import SignalTree.Proofs.Tree.NewChild

/-!
# Removal — a child goes with everything below it, and nothing else does

A removal walks down the tables of children, takes what it meets out of the tree, and then takes
the name of the child out of the table of the parent.  What is left has lost nothing but this one
entry, so it stands where it stood.

* `Tree.Loses`: what is left of a tree after a removal;
* `Grown.loses_detachFrom`: a removal leaves just that;
* `Grown.detachFrom_attachTo`: attaching a child and removing it again undo each other;
* `World.removeChild_of_course`: the removal after every course.
-/

namespace SignalTree

variable {σ η : Type}

namespace Tree

variable {t t' : Tree σ η} {k child parent : NodeId} {name : String} {c pc : Component σ η}

/-! ## What is left -/

/-- A tree loses a child of a component: what stands below the child goes with it, the parent loses
the entry, and all else stays where it is and as it is. -/
structure Loses (t t' : Tree σ η) (child parent : NodeId) (name : String) : Prop where
  live_iff : ∀ k, t'.contains k = true ↔ t.contains k = true ∧ k ∉ t.subtree child
  /-- What goes are the components from which there is a way up to the child. -/
  below_iff : ∀ k, k ∈ t.subtree child ↔ t.contains k = true ∧ ∃ n, t.climb n k = some child
  others : ∀ k, t'.contains k = true → k ≠ parent → t'.get? k = t.get? k
  table : ∃ pc, t.get? parent = some pc ∧
    t'.get? parent = some { pc with children := pc.children.filter fun e => e.1 ≠ name }
  paths : ∀ k, t'.contains k = true → t'.pathOf k = t.pathOf k
  next : t'.next = t.next
  root : t'.root = t.root
  registry : t'.registry = t.registry

theorem subtree_eq (h : t.contains child = true) :
    t.subtree child = t.collect (t.size + 1) child := by
  rw [subtree, if_pos h]

/-- A child that stands in a table is there, and its parent is not below it. -/
theorem Grown.live_of_child? (h : t.Grown) (hpc : t.get? parent = some pc)
    (hchild : pc.child? name = some child) :
    t.contains child = true ∧ parent ∉ t.collect (t.size + 1) child := by
  have hup : t.parent? child = some parent :=
    h.parent?_eq_some_iff_child.2 ⟨pc, name, hpc, Keyed.mem_of_lookup_eq_some hchild⟩
  rcases h.parent?_spec hup with ⟨c, _, hc, hlt, _⟩
  refine ⟨contains_iff.2 ⟨c, hc⟩, ?_⟩
  intro hbelow
  rcases (h.mem_doomed_iff (contains_iff.2 ⟨c, hc⟩)).1 hbelow with ⟨_, n, hclimb⟩
  exact absurd (h.climb_le hclimb) (not_le.2 hlt)

/-- What is left after a removal keeps its name and its parent. -/
theorem kept_detachFrom {doomed : List NodeId} (j : NodeId) (c d : Component σ η)
    (hc : t.get? j = some c) (hd : (t.detachFrom parent name doomed).get? j = some d) :
    d.name = c.name ∧ d.parent = c.parent := by
  rcases get?_detachFrom_eq_some_iff.1 hd with ⟨_, c', hc', rfl⟩
  obtain rfl := Option.some.inj (hc.symm.trans hc')
  split <;> exact ⟨rfl, rfl⟩

/-- A removal leaves all but the child, what is below it and its entry. -/
theorem Grown.loses_detachFrom (h : t.Grown) (hr : t.Rooted) (hpc : t.get? parent = some pc)
    (hchild : pc.child? name = some child) :
    t.Loses (t.detachFrom parent name (t.collect (t.size + 1) child)) child parent name := by
  rcases h.live_of_child? hpc hchild with ⟨hlive, hstays⟩
  have hafter := hr.detachFrom hpc hchild
  have hcontains := fun k => contains_detachFrom t parent k name (t.collect (t.size + 1) child)
  refine ⟨?_, ?_, ?_, ?_, ?_, rfl, rfl, rfl⟩
  · intro k
    rw [hcontains, subtree_eq hlive]
  · intro k
    rw [h.mem_subtree_iff, contains_iff, mem_ids_iff]
  · intro k hk hne
    rw [get?_detachFrom, if_neg ((hcontains k).1 hk).2, if_neg hne]
  · refine ⟨pc, hpc, ?_⟩
    rw [get?_detachFrom, if_neg hstays, if_pos rfl, hpc, Option.map_some,
      Keyed.erase_eq_filter (h.names_distinct parent pc hpc)]
  · intro k hk
    exact hr.pathOf_eq_of_kept hafter rfl kept_detachFrom ((hcontains k).1 hk).1 hk

/-! ## There and back -/

/-- A component that is added and removed again leaves the next identifier used up. -/
theorem Grown.remove_add (h : t.Grown) (c : Component σ η) :
    (t.add c).2.remove [t.next] = { t with next := t.next + 1 } := by
  have hold : ∀ k d, (k, d) ∈ t.nodes → k ≠ t.next := fun k d hd =>
    (h.ids_lt_next k (List.mem_map_of_mem hd)).ne
  simpa [add, remove, List.filter_append] using hold

/-- Nothing is below a component that was just attached without children. -/
theorem Grown.collect_attachTo (h : t.Grown) (hpc : t.get? parent = some pc)
    (hname : pc.child? name = none) (hc : c.children = []) (fuel : Nat) :
    (t.attachTo parent name c).collect (fuel + 1) t.next = [t.next] := by
  have hnew : (t.attachTo parent name c).get? t.next = some c := by
    rw [h.get?_attachTo_eq hpc hname, if_pos rfl]
  rw [collect_succ]
  simp [childIds, hnew, hc]

/-- Removing what was just attached brings back all components and their order. -/
theorem Grown.detachFrom_attachTo (h : t.Grown) (hpc : t.get? parent = some pc)
    (hname : pc.child? name = none) :
    (t.attachTo parent name c).detachFrom parent name [t.next] =
      { t with next := t.next + 1 } := by
  have hrestored := Keyed.erase_put (a := t.next) (h.names_distinct parent pc hpc) hname
  rw [Tree.detachFrom, Tree.attachTo, remove_modify, h.remove_add, modify_modify]
  refine modify_eq_self (t := { t with next := t.next + 1 }) h.ids_nodup hpc ?_
  simp only [hrestored]

end Tree

/-! ## Removals -/

namespace World

variable {w w' : World σ η} {parent child id : NodeId} {type name : String}
  {pc : Component σ η}

/-- A removal of a child that is there. -/
theorem removeChild_eq_ok (hpc : w.tree.get? parent = some pc)
    (hchild : pc.child? name = some child) :
    w.removeChild parent name = (.ok (),
      { tree := w.tree.detachFrom parent name (w.tree.collect (w.tree.size + 1) child)
        env := w.env.emit (.componentRemoved (w.tree.pathText child)
          (w.tree.collect (w.tree.size + 1) child).length) }) := by
  simp only [removeChild, Tree.component_eq_ok_iff.2 hpc, hchild]
  rfl

theorem removeChild_of_no_child (hpc : w.tree.get? parent = some pc)
    (hnone : ∀ child, (name, child) ∉ pc.children) :
    w.removeChild parent name = (.error (.notFound (w.tree.childPath parent name)), w) := by
  simp only [removeChild, Tree.component_eq_ok_iff.2 hpc, Component.child?_eq_none_of_forall hnone]

theorem removeChild_of_no_parent (hgone : w.tree.contains parent = false) :
    w.removeChild parent name = (.error Tree.removed, w) := by
  simp only [removeChild, Tree.component_of_not_contains hgone]

/-- What a creation has attached, the removal of the same child takes away again. -/
theorem removeChild_createChild (hw : w.tree.Direct)
    (h : w.createChild parent type name = (.ok id, w')) :
    ∃ w'', w'.removeChild parent name = (.ok (), w'') ∧
      w''.tree = { w.tree with next := w.tree.next + 1 } := by
  have heffect := w.createChild_effect parent type name
  rw [h] at heffect
  generalize htree : w'.tree = t at heffect
  cases heffect with
  | @created _ _ _ c pc hmakes hpc hname hvalid path _ =>
    have hbare : c.Bare := hmakes.bare hw.builders_bare
    have hget := hw.grown.get?_attachTo_eq (c := c.placed name (some parent) path) hpc hname parent
    rw [if_neg (hw.grown.lt_next hpc).ne, if_pos rfl, ← htree] at hget
    have hchild : ({ pc with children := pc.children ++ [(name, w.tree.next)] } :
        Component σ η).child? name = some w.tree.next := by
      have hfree : pc.children.lookup name = none := hname
      simp [Component.child?, List.lookup_append, hfree]
    have hcollect := hw.grown.collect_attachTo (c := c.placed name (some parent) path) hpc hname
      hbare.1 w'.tree.size
    refine ⟨_, removeChild_eq_ok hget hchild, ?_⟩
    rw [htree] at hcollect ⊢
    rw [hcollect]
    exact hw.grown.detachFrom_attachTo hpc hname

/-- What a removal takes away and what it leaves, and that it fails without a trace if there is
nothing to remove.  A child that was just created goes without a trace too. -/
theorem removeChild_of_course {rootName : String} {registry : Registry σ η} {env : Env σ}
    (hregistry : registry.Bare) (h : Course AddsBare ⟨Tree.new rootName registry, env⟩ w)
    (parent : NodeId) (name : String) :
    (∀ pc child, w.tree.get? parent = some pc → (name, child) ∈ pc.children →
      ∃ u w', w.tree.pathOf child = .ok u ∧ w.removeChild parent name = (.ok (), w') ∧
        w.tree.Loses w'.tree child parent name ∧
        w'.env = w.env.emit (.componentRemoved u.text (w.tree.subtree child).length)) ∧
    (∀ pc, w.tree.get? parent = some pc → (∀ child, (name, child) ∉ pc.children) →
      w.removeChild parent name = (.error (.notFound (w.tree.childPath parent name)), w)) ∧
    (w.tree.contains parent = false → w.removeChild parent name = (.error Tree.removed, w)) ∧
    (∀ type id w', w.createChild parent type name = (.ok id, w') →
      ∃ w'', w'.removeChild parent name = (.ok (), w'') ∧
        w''.tree = { w.tree with next := w.tree.next + 1 }) := by
  have hdirect : w.tree.Direct := h.direct (.new rootName hregistry)
  have hrooted : w.tree.Rooted := h.rooted (.new rootName registry)
  refine ⟨?_, fun pc hpc => removeChild_of_no_child hpc, removeChild_of_no_parent,
    fun type id w' => removeChild_createChild hdirect⟩
  intro pc child hpc hmem
  have hchild : pc.child? name = some child :=
    Keyed.lookup_eq_some_of_mem (hdirect.grown.names_distinct parent pc hpc) hmem
  have hlive := (hdirect.grown.live_of_child? hpc hchild).1
  rcases hrooted.resolve_pathOf hlive with ⟨u, hu, _⟩
  refine ⟨u, _, hu, removeChild_eq_ok hpc hchild, ?_, ?_⟩
  · exact hdirect.grown.loses_detachFrom hrooted hpc hchild
  · rw [Tree.pathText_of_pathOf hu, Tree.subtree_eq hlive]

/-- A root with a branch of two components, and a third component that links to its end. -/
def branchActions : List (Action Unit Unit) :=
  [.createChild 0 "Group" "a", .createChild 1 "Group" "b", .createChild 0 "Group" "c",
    .link 3 "end" 2]

def branchWorld : World Unit Unit := rootAlone.performAll branchActions

theorem removeChild_of_course_branch :
    (Registry.standard : Registry Unit Unit).Bare ∧ Course AddsBare rootAlone branchWorld ∧
    (∃ w', branchWorld.removeChild 0 "a" = (.ok (), w') ∧ w'.tree.contains 2 = false ∧
      w'.tree.get? 3 = branchWorld.tree.get? 3 ∧ w'.tree.pathOf 3 = .ok (.component "/c")) ∧
    branchWorld.removeChild 3 "a" = (.error (.notFound "cpath:/c/a"), branchWorld) ∧
    branchWorld.removeChild 7 "a" = (.error Tree.removed, branchWorld) := by
  have hcourse : Course AddsBare rootAlone branchWorld :=
    ((((Course.start rootAlone).act (.createChild 0 "Group" "a") trivial).act
      (.createChild 1 "Group" "b") trivial).act (.createChild 0 "Group" "c") trivial).act
      (.link 3 "end" 2) trivial
  have hremoval := removeChild_of_course Registry.bare_standard hcourse
  rcases (hremoval 0 "a").1 _ 1 rfl List.mem_cons_self with ⟨u, w', _, heq, hloses, _⟩
  have hpath : branchWorld.tree.pathOf 3 = .ok (.component "/c") := rfl
  have hstays : w'.tree.contains 3 = true := (hloses.live_iff 3).2 ⟨rfl, by decide⟩
  have hgone : w'.tree.contains 2 = false := by
    rw [Bool.eq_false_iff, ne_eq, hloses.live_iff]
    exact fun h => h.2 (by decide)
  refine ⟨Registry.bare_standard, hcourse, ?_, ?_, (hremoval 7 "a").2.2.1 rfl⟩
  · exact ⟨w', heq, hgone, hloses.others 3 hstays (by decide), (hloses.paths 3 hstays).trans hpath⟩
  · exact (hremoval 3 "a").2.1 _ rfl fun _ => List.not_mem_nil

end World
end SignalTree
