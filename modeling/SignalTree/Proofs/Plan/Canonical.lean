import SignalTree.Proofs.Plan.Mirror
import SignalTree.Proofs.Tree.Removal

/-!
# Canonical — the canonical form of a path and the path of a component

A canonical form is made from a path alone, with a stack of names; the tree follows the path from
component to component.  While it does, the stack holds the names on the way from the root to the
component that it has come to.  So at the end the canonical form is the path of this component,
whatever spelling of it was followed.

* `Grown.names_of_descend`: the names that lead down to a component are those of its path;
* `Plan.canonical_eq_pathText`: a path that can be followed from the root has the path of the
  component as its canonical form;
* `World.canonical_of_course`: so it is after every course.
-/

namespace SignalTree

variable {σ η : Type}

namespace Tree

variable {t : Tree σ η} {k : NodeId} {names : List String}

/-- The names that lead down to a component are those of its path, the last one first. -/
theorem Grown.names_of_descend (h : t.Grown) (hrooted : t.Rooted)
    (hk : t.descend names = some k) : t.Names k names.reverse := by
  induction names generalizing k with
  | nil =>
    rcases h.root_live with ⟨r, hr, horphan⟩
    obtain rfl : t.root = k := Option.some.inj hk
    exact .root hr horphan
  | cons name names ih =>
    rcases h.parent_of_descend hk with ⟨c, parent, hc, rfl, hparent, hbefore⟩
    have hne : k ≠ t.root := h.ne_root_of_parent? (parent?_eq_some_iff.2 ⟨c, hc, hparent⟩)
    -- the owner that the tree has for the component is the one that the names lead through
    rcases hrooted.owned k c hc hne with ⟨hvalid, p, pc, hp, hlt, hpc, hchild⟩
    obtain rfl : parent = p := Option.some.inj (hparent.symm.trans hp)
    rw [List.reverse_cons]
    exact .child (ih hbefore) hpc hchild hc hne hparent hlt hvalid

end Tree

namespace Plan

/-- A path that can be followed from the root has the component's path as its canonical form. -/
theorem canonical_eq_pathText {t : Tree σ η} {path : String} {k : NodeId} (h : t.Grown)
    (hrooted : t.Rooted) (hk : t.resolve t.root path = .ok k) :
    canonical path = some (t.pathText k) := by
  rcases canonical_of_resolve h hk with ⟨names, _, hdescend, hcanonical⟩
  have hnames : t.Names k names.reverse := h.names_of_descend hrooted hdescend
  rw [hcanonical, hnames.pathText_eq]

end Plan

namespace World

variable {w : World σ η}

/-- After every course, a path that is resolved from the root has a canonical form, which is the
path of the component; so two paths that lead to the same component have the same form. -/
theorem canonical_of_course {rootName : String} {registry : Registry σ η} {env : Env σ}
    (hregistry : registry.Bare) (h : Course AddsBare ⟨Tree.new rootName registry, env⟩ w) :
    (∀ path id, w.tree.resolve w.tree.root path = .ok id →
      ∃ u, w.tree.pathOf id = .ok u ∧ Plan.canonical path = some u.text ∧
        Plan.normal path = u.text) ∧
    ∀ path other id, w.tree.resolve w.tree.root path = .ok id →
      w.tree.resolve w.tree.root other = .ok id → Plan.normal path = Plan.normal other := by
  have hgrown : w.tree.Grown := (h.direct (.new rootName hregistry)).grown
  have hrooted : w.tree.Rooted := h.rooted (.new rootName registry)
  have hnormal : ∀ path id, w.tree.resolve w.tree.root path = .ok id →
      Plan.normal path = w.tree.pathText id := by
    intro path id hid
    rw [Plan.normal, Plan.canonical_eq_pathText hgrown hrooted hid, Option.getD_some]
  constructor
  · intro path id hid
    rcases hrooted.resolve_pathOf (hgrown.contains_of_resolve hid) with ⟨u, hu, _⟩
    have htext : w.tree.pathText id = u.text := Tree.pathText_of_pathOf hu
    refine ⟨u, hu, ?_, (hnormal path id hid).trans htext⟩
    rw [← htext]
    exact Plan.canonical_eq_pathText hgrown hrooted hid
  · intro path other id hpath hother
    rw [hnormal path id hpath, hnormal other id hother]

/-- Two spellings of the path of a component, with blanks, a detour and the scheme. -/
theorem canonical_branchWorld :
    (Registry.standard : Registry Unit Unit).Bare ∧ Course AddsBare rootAlone branchWorld ∧
      branchWorld.tree.resolve 0 " cpath:a//../c/.././a/b/ " = .ok 2 ∧
      branchWorld.tree.resolve 0 "/a/b" = .ok 2 ∧
      Plan.canonical " cpath:a//../c/.././a/b/ " = some "cpath:/a/b" ∧
      Plan.normal "/a/b" = Plan.normal " cpath:a//../c/.././a/b/ " := by
  have hcourse : Course AddsBare rootAlone branchWorld :=
    Course.performAll (by simp [branchActions, Action.Direct])
  have hlong : branchWorld.tree.resolve 0 " cpath:a//../c/.././a/b/ " = .ok 2 := rfl
  have hshort : branchWorld.tree.resolve 0 "/a/b" = .ok 2 := rfl
  rcases canonical_of_course Registry.bare_standard hcourse with ⟨hcanonical, hsame⟩
  rcases hcanonical _ 2 hlong with ⟨u, hu, hform, _⟩
  obtain rfl : Uri.component "/a/b" = u := Except.ok.inj hu
  exact ⟨Registry.bare_standard, hcourse, hlong, hshort, hform, hsame _ _ 2 hshort hlong⟩

end World
end SignalTree
