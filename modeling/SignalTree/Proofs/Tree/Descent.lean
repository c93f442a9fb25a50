import SignalTree.Proofs.Tree.Upkeep

/-!
# Descent — the component that names lead to

`Tree.descend` goes down from the root along names, without a path around them.  The names stand
with the last one first, as on a stack, so a step to a child is one name more.

* `Grown.descend_injective`: only one row of names leads to a component;
* `Grown.parent_of_descend`: the parent is where the names before the last one lead to;
* `descend_new`, `Grown.descend_attachTo`, `descend_modify`: where names lead to in a new tree, and
  after an update.
-/

namespace SignalTree
namespace Tree

variable {σ η : Type} {t : Tree σ η} {names others : List String} {name : String} {id k : NodeId}

/-- The component that names lead to from the root; the last name stands first. -/
def descend (t : Tree σ η) : List String → Option NodeId
  | [] => some t.root
  | name :: names =>
    (descend t names).bind fun id => (t.get? id).bind fun c => c.child? name

theorem descend_cons_eq_some_iff :
    t.descend (name :: names) = some k ↔
      ∃ id c, t.descend names = some id ∧ t.get? id = some c ∧ c.child? name = some k := by
  simp [descend, Option.bind_eq_some_iff]

theorem descend_cons (h : t.descend names = some id) {c : Component σ η}
    (hc : t.get? id = some c) (name : String) : t.descend (name :: names) = c.child? name := by
  simp [descend, h, hc]

/-- On the way to a component are components. -/
theorem descend_of_append {more : List String}
    (h : t.descend (more ++ names) = some k) : ∃ j, t.descend names = some j := by
  induction more generalizing k with
  | nil => exact ⟨k, h⟩
  | cons name more ih =>
    rcases descend_cons_eq_some_iff.1 h with ⟨j, _, hj, _, _⟩
    exact ih hj

namespace Grown

theorem descend_live (h : t.Grown) (hk : t.descend names = some k) : ∃ c, t.get? k = some c := by
  cases names with
  | nil =>
    have hroot : t.root = k := Option.some.inj hk
    rcases h.root_live with ⟨r, hr, _⟩
    exact ⟨r, hroot ▸ hr⟩
  | cons name names =>
    rcases descend_cons_eq_some_iff.1 hk with ⟨id, c, _, hc, hchild⟩
    rcases h.child_live id c name k hc (Keyed.mem_of_lookup_eq_some hchild) with ⟨kc, hkc, _, _⟩
    exact ⟨kc, hkc⟩

/-- The last name is the name of the component, and the names before it lead to its parent. -/
theorem parent_of_descend (h : t.Grown) (hk : t.descend (name :: names) = some k) :
    ∃ c id, t.get? k = some c ∧ c.name = name ∧ c.parent = some id ∧
      t.descend names = some id := by
  rcases descend_cons_eq_some_iff.1 hk with ⟨id, c, hid, hc, hchild⟩
  rcases h.child_live id c name k hc (Keyed.mem_of_lookup_eq_some hchild) with
    ⟨kc, hkc, hparent, hname⟩
  exact ⟨kc, id, hkc, hname, hparent, hid⟩

theorem descend_cons_ne_root (h : t.Grown) : t.descend (name :: names) ≠ some t.root := by
  intro hroot
  rcases h.parent_of_descend hroot with ⟨c, id, hc, _, hparent, _⟩
  exact h.ne_root_of_parent? (parent?_eq_some_iff.2 ⟨c, hc, hparent⟩) rfl

/-- Only one row of names leads to a component. -/
theorem descend_injective (h : t.Grown) (hnames : t.descend names = some k)
    (hothers : t.descend others = some k) : names = others := by
  induction names generalizing others k with
  | nil =>
    have hroot : t.root = k := Option.some.inj hnames
    cases others with
    | nil => rfl
    | cons other others => exact absurd (hroot ▸ hothers) h.descend_cons_ne_root
  | cons name names ih =>
    cases others with
    | nil =>
      have hroot : t.root = k := Option.some.inj hothers
      exact absurd (hroot ▸ hnames) h.descend_cons_ne_root
    | cons other others =>
      rcases h.parent_of_descend hnames with ⟨c, id, hc, hname, hparent, hid⟩
      rcases h.parent_of_descend hothers with ⟨d, jd, hd, hother, hparent', hjd⟩
      have hsame : c = d := Option.some.inj (hc.symm.trans hd)
      subst hsame
      have hids : id = jd := Option.some.inj (hparent.symm.trans hparent')
      subst hids
      rw [← hname, ← hother, ih hid hjd]

end Grown

/-! ## New trees and updates -/

theorem descend_new (rootName : String) (registry : Registry σ η) (names : List String) :
    (Tree.new rootName registry).descend names = if names = [] then some 0 else none := by
  induction names with
  | nil => rfl
  | cons name names ih =>
    rw [descend, ih]
    by_cases hnames : names = []
    · subst hnames
      rfl
    · simp [hnames]

/-- A change in place leaves the names alone. -/
theorem descend_modify {f : Component σ η → Component σ η} (hf : KeepsPlace f) (id : NodeId)
    (names : List String) : (t.modify id f).descend names = t.descend names := by
  induction names with
  | nil => rfl
  | cons name names ih =>
    rw [descend, descend, ih]
    apply Option.bind_congr
    intro k _
    rw [get?_modify]
    by_cases hk : k = id
    · rw [if_pos hk]
      cases hget : t.get? k with
      | none => rfl
      | some c =>
        rcases hf c with ⟨_, _, hchildren⟩
        simp [Component.child?, hchildren]
    · rw [if_neg hk]

/-- Attaching a component makes one row of names longer, and leaves all others alone. -/
theorem Grown.descend_attachTo (h : t.Grown) {parent : NodeId} {c pc : Component σ η}
    (hnames : t.descend names = some parent) (hpc : t.get? parent = some pc)
    (hname : pc.child? name = none) (hcc : c.children = []) (others : List String) :
    (t.attachTo parent name c).descend others =
      if others = name :: names then some t.next else t.descend others := by
  have hget := fun k => h.get?_attachTo_eq (c := c) hpc hname k
  -- the row of names is followed from its far end, so the last step comes first
  induction others with
  | nil => rfl
  | cons other others ih =>
    rw [descend, ih]
    by_cases hnew : others = name :: names
    · -- below the new component there is nothing, and there was nothing before
      have hne : other :: others ≠ name :: names := by
        intro heq
        have hlength : others.length = names.length := by simpa using congrArg List.length heq
        rw [hnew] at hlength
        exact absurd hlength (Nat.succ_ne_self _)
      have hbefore : t.descend others = none := by
        rw [hnew, descend_cons hnames hpc, hname]
      rw [if_pos hnew, if_neg hne, descend, hbefore]
      simp [hget, Component.child?, hcc]
    · rw [if_neg hnew]
      cases hothers : t.descend others with
      | none =>
        have hne : other :: others ≠ name :: names := by
          intro heq
          rw [(List.cons.inj heq).2, hnames] at hothers
          cases hothers
        rw [if_neg hne, descend, hothers]
        rfl
      | some id =>
        rcases h.descend_live hothers with ⟨d, hd⟩
        have hold : id ≠ t.next := (h.lt_next hd).ne
        by_cases hparent : id = parent
        · -- the table of the parent ends with the new name
          subst hparent
          have heq : others = names := h.descend_injective hothers hnames
          subst heq
          rw [descend_cons hnames hpc]
          have htable : (pc.children ++ [(name, t.next)]).lookup other =
              if other = name then some t.next else pc.child? other := by
            rw [List.lookup_append, List.lookup_cons]
            by_cases hother : other = name
            · subst hother
              have hnone : pc.children.lookup other = none := hname
              simp [hnone]
            · have hbeq : (other == name) = false := by simpa using hother
              simp [hbeq, hother, Component.child?]
          simp only [Option.bind_some, hget, if_neg hold, if_pos, List.cons.injEq, and_true]
          exact htable
        · have hne : other :: others ≠ name :: names := by
            intro heq
            rw [(List.cons.inj heq).2, hnames] at hothers
            exact hparent (Option.some.inj hothers).symm
          rw [if_neg hne, descend_cons hothers hd]
          simp [hget, hold, hparent, hd]

end Tree
end SignalTree
