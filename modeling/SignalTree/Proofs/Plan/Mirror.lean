import SignalTree.Proofs.Plan.Path
import SignalTree.Proofs.Tree.Descent
import SignalTree.Proofs.Tree.Route

/-!
# Mirror — the declared paths and the components of a tree

The check of a plan follows a path over texts, and the tree follows it over components.  They agree
as long as the declared paths are those of the components: then a path leads to a component exactly
if each front part of it comes to a declared path.

* `Tree.lands`: the component that a row of pieces comes to, read as the check reads it;
* `Grown.resolve_eq_ok_iff`: the tree follows a path as far as each front part comes somewhere;
* `Plan.Mirrors`: the declared paths are those of the components;
* `Plan.canonical_of_resolve`: the canonical form of a path that the tree follows;
* `Mirrors.walkable_iff`, `Mirrors.normal_of_resolve`: what this says about one path;
* `Mirrors.walkable_of_direct`: a declared path that does not go up can be followed.
-/

namespace SignalTree

variable {σ η : Type}

namespace Tree

variable {t : Tree σ η} {path : String} {id k : NodeId} {stack l : List (List Char)}

/-- What a path leads to, or its failure. -/
def foundAt (path : String) : Option NodeId → Except Error NodeId
  | some id => .ok id
  | none => .error (.notFound path)

/-- The component that the pieces `l` come to after those in `stack`. -/
def lands (t : Tree σ η) (stack l : List (List Char)) : Option NodeId :=
  (Plan.reduce stack l).bind fun s => t.descend (s.map String.ofList)

theorem lands_cons (segment : List Char) (rest : List (List Char)) :
    t.lands stack (segment :: rest) = (Plan.reduce stack [segment]).bind (t.lands · rest) := by
  rw [lands, Plan.reduce_cons, Option.bind_assoc]
  rfl

namespace Grown

/-- One step over components is one step over texts. -/
theorem step_eq (h : t.Grown) (hid : t.descend (stack.map String.ofList) = some id)
    (path : String) (segment : List Char) :
    t.step path id segment = foundAt path (t.lands stack [segment]) := by
  rcases h.descend_live hid with ⟨c, hc⟩
  have hcomponent : t.component id = .ok c := component_eq_ok_iff.2 hc
  by_cases hstay : segment = [] ∨ segment = ['.']
  · have hlands : t.lands stack [segment] = some id := by simp [lands, Plan.reduce, hstay, hid]
    rw [hlands]
    simp [step, foundAt, hstay]
  · by_cases hup : segment = ['.', '.']
    · -- the parent is where the names before the last one lead to, and the root has none
      have hparent : c.parent = t.lands stack [segment] := by
        cases stack with
        | nil =>
          have hroot : t.root = id := Option.some.inj hid
          rcases h.root_live with ⟨r, hr, hnone⟩
          have hsame : r = c := Option.some.inj (hr.symm.trans (hroot ▸ hc))
          simp [lands, Plan.reduce, hup, ← hsame, hnone]
        | cons last stack =>
          rcases h.parent_of_descend hid with ⟨d, p, hd, _, hp, hbefore⟩
          have hsame : d = c := Option.some.inj (hd.symm.trans hc)
          simp [lands, Plan.reduce, hup, ← hsame, hp, hbefore]
      rw [← hparent]
      cases hp : c.parent <;> simp [step, foundAt, hup, hcomponent, hp, bind, Except.bind]
    · -- any other piece is one name more
      have hchild : c.child? (String.ofList segment) = t.lands stack [segment] := by
        have hbelow := descend_cons hid hc (String.ofList segment)
        simpa [lands, Plan.reduce, hstay, hup] using hbelow.symm
      rw [← hchild]
      cases hk : c.child? (String.ofList segment) <;>
        simp [step, foundAt, hstay, hup, hcomponent, hk, bind, Except.bind]

/-- The tree follows a row of pieces as far as each front part comes somewhere. -/
theorem foldlM_step_eq_ok_iff (h : t.Grown)
    (hid : t.descend (stack.map String.ofList) = some id) :
    l.foldlM (t.step path) id = .ok k ↔
      t.lands stack l = some k ∧ ∀ front, front <+: l → ∃ j, t.lands stack front = some j := by
  induction l generalizing stack id with
  | nil =>
    have hstart : t.lands stack [] = some id := by simpa [lands, Plan.reduce] using hid
    rw [hstart]
    constructor
    · intro hok
      refine ⟨congrArg some (Except.ok.inj hok), ?_⟩
      intro front hfront
      rw [List.prefix_nil.1 hfront]
      exact ⟨id, hstart⟩
    · rintro ⟨hk, _⟩
      exact congrArg Except.ok (Option.some.inj hk)
  | cons segment rest ih =>
    rw [List.foldlM_cons, h.step_eq hid]
    cases hreduce : Plan.reduce stack [segment] with
    | none =>
      have hnone : t.lands stack [segment] = none := by simp [lands, hreduce]
      simp [hnone, foundAt, lands_cons, hreduce, bind, Except.bind]
    | some s =>
      have hcons : ∀ more, t.lands stack (segment :: more) = t.lands s more := by
        intro more
        simp [lands_cons, hreduce]
      cases hs : t.descend (s.map String.ofList) with
      | none =>
        -- the first piece alone comes nowhere
        have hnone : t.lands stack [segment] = none := by simp [lands, hreduce, hs]
        constructor
        · intro hok
          simp [hnone, foundAt, bind, Except.bind] at hok
        · rintro ⟨_, hfronts⟩
          rcases hfronts [segment] (by simp) with ⟨j, hj⟩
          rw [hnone] at hj
          cases hj
      | some j =>
        have hsome : t.lands stack [segment] = some j := by simp [lands, hreduce, hs]
        have hnext : (foundAt path (some j) >>= fun i => rest.foldlM (t.step path) i)
            = rest.foldlM (t.step path) j := rfl
        rw [hsome, hnext, ih hs, hcons]
        apply and_congr_right
        intro _
        constructor
        · intro hfronts front hfront
          rcases List.prefix_cons_iff.1 hfront with rfl | ⟨more, rfl, hmore⟩
          · exact ⟨id, by simpa [lands, Plan.reduce] using hid⟩
          · rw [hcons]
            exact hfronts more hmore
        · intro hfronts front hfront
          have hlonger : segment :: front <+: segment :: rest :=
            List.cons_prefix_cons.2 ⟨rfl, hfront⟩
          rw [← hcons]
          exact hfronts (segment :: front) hlonger

/-- Every path starts at the root. -/
theorem start_root (h : t.Grown) (body : List Char) : t.start t.root body = .ok t.root := by
  rcases h.root_live with ⟨r, hr, _⟩
  have hroot : t.component t.root = .ok r := component_eq_ok_iff.2 hr
  unfold start
  split
  · rfl
  · rw [hroot]
    rfl

theorem walk_root (h : t.Grown) (path : String) (body : List Char) :
    t.walk t.root path body = (segments body).foldlM (t.step path) t.root := by
  rw [walk, h.start_root]
  rfl

theorem resolve_eq_ok_iff (h : t.Grown) :
    t.resolve t.root path = .ok k ↔
      ∃ body, pathBody path = some body ∧ t.lands [] (segments body) = some k ∧
        ∀ front, front <+: segments body → ∃ j, t.lands [] front = some j := by
  have hroot : t.descend (([] : List (List Char)).map String.ofList) = some t.root := rfl
  unfold resolve
  cases hbody : pathBody path with
  | none => simp
  | some body => simp [h.walk_root, h.foldlM_step_eq_ok_iff hroot]

end Grown
end Tree

namespace Plan

/-! ## Declared paths and components -/

/-- The declared paths are the paths of the components. -/
structure Mirrors (declared : List String) (t : Tree σ η) : Prop where
  grown : t.Grown
  declared_iff : ∀ names, (∀ n ∈ names, IsSegment n) →
    (pathOfNames names.reverse ∈ declared ↔ ∃ k, t.descend names = some k)

/-- What stays on the stack are the pieces of the path. -/
theorem mem_of_mem_reduce {stack l stack' : List (List Char)} {s : List Char}
    (h : reduce stack l = some stack') (hs : s ∈ stack') : s ∈ stack ∨ s ∈ l ∧ s ≠ [] := by
  induction l generalizing stack with
  | nil =>
    have hsame : stack = stack' := by simpa [reduce] using h
    exact Or.inl (hsame ▸ hs)
  | cons segment rest ih =>
    -- what the rest of the path leaves is on it, or was there after the first piece
    have hrest : ∀ st, reduce st rest = some stack' → (∀ x ∈ st, x ∈ stack ∨ x = segment ∧ x ≠ []) →
        s ∈ stack ∨ s ∈ segment :: rest ∧ s ≠ [] := by
      intro st hst hfrom
      rcases ih hst with hmem | ⟨hmem, hne⟩
      · rcases hfrom s hmem with hold | ⟨rfl, hne⟩
        · exact Or.inl hold
        · exact Or.inr ⟨List.mem_cons_self .., hne⟩
      · exact Or.inr ⟨List.mem_cons_of_mem _ hmem, hne⟩
    by_cases hstay : segment = [] ∨ segment = ['.']
    · have hreduce : reduce stack rest = some stack' := by
        cases stack <;> simpa [reduce, hstay] using h
      exact hrest stack hreduce fun x hx => Or.inl hx
    · by_cases hup : segment = ['.', '.']
      · cases stack with
        | nil => simp [reduce, hup] at h
        | cons last stack =>
          have hreduce : reduce stack rest = some stack' := by simpa [reduce, hup] using h
          exact hrest stack hreduce fun x hx => Or.inl (List.mem_cons_of_mem _ hx)
      · have hreduce : reduce (segment :: stack) rest = some stack' := by
          cases stack <;> simpa [reduce, hstay, hup] using h
        rw [not_or] at hstay
        apply hrest (segment :: stack) hreduce
        intro x hx
        rcases List.mem_cons.1 hx with rfl | hx
        · exact Or.inr ⟨rfl, hstay.1⟩
        · exact Or.inl hx

theorem isSegment_of_reduce {body : List Char} {front stack : List (List Char)}
    (hfront : front <+: Tree.segments body) (h : reduce [] front = some stack) :
    ∀ n ∈ stack.map String.ofList, IsSegment n := by
  intro n hn
  rcases List.mem_map.1 hn with ⟨s, hs, rfl⟩
  rcases mem_of_mem_reduce h hs with hnil | ⟨hmem, hne⟩
  · cases hnil
  · refine ⟨?_, ?_⟩
    · intro hempty
      exact hne (by simpa using congrArg String.toList hempty)
    · rw [String.toList_ofList]
      exact Tree.notMem_of_mem_segments (hfront.subset hmem)

/-- Where the tree can follow a path from the root, it has a canonical form, and that has the names
of the component. -/
theorem canonical_of_resolve {t : Tree σ η} {path : String} {k : NodeId} (h : t.Grown)
    (hk : t.resolve t.root path = .ok k) :
    ∃ names, (∀ n ∈ names, IsSegment n) ∧ t.descend names = some k ∧
      canonical path = some (pathOfNames names.reverse) := by
  rcases h.resolve_eq_ok_iff.1 hk with ⟨body, hbody, hlands, _⟩
  rcases Option.bind_eq_some_iff.1 hlands with ⟨stack, hreduce, hdescend⟩
  refine ⟨stack.map String.ofList, isSegment_of_reduce (List.prefix_refl _) hreduce, hdescend, ?_⟩
  rw [canonical, pathBody_of_tree hbody, hreduce]
  simp

namespace Mirrors

variable {declared : List String} {t : Tree σ η} {path : String} {k : NodeId}

/-- Before anything is built only the root is declared. -/
theorem new (rootName : String) (registry : Registry σ η) :
    Mirrors [normal ""] (Tree.new rootName registry) where
  grown := Tree.Grown.new rootName registry
  declared_iff := by
    intro names hnames
    have hroot : normal "" = pathOfNames [] := by decide
    rw [hroot, List.mem_singleton, Tree.descend_new]
    constructor
    · intro hpath
      have hreverse : names.reverse = [] := by
        apply pathOfNames_injective ?_ ?_ hpath
        · intro n hn
          exact hnames n (List.mem_reverse.1 hn)
        · intro n hn
          cases hn
      have hnil : names = [] := List.reverse_eq_nil_iff.1 hreverse
      exact ⟨0, if_pos hnil⟩
    · rintro ⟨k, hk⟩
      by_cases hnil : names = []
      · subst hnil
        rfl
      · simp [hnil] at hk

/-- A change in place leaves the paths alone. -/
theorem modify (h : Mirrors declared t) (id : NodeId) {f : Component σ η → Component σ η}
    (hf : Tree.KeepsPlace f) : Mirrors declared (t.modify id f) where
  grown := h.grown.modify id hf
  declared_iff := by
    intro names hnames
    rw [Tree.descend_modify hf]
    exact h.declared_iff names hnames

/-- A new component adds its path. -/
theorem attachTo (h : Mirrors declared t) {names : List String} {name : String} {parent : NodeId}
    {c pc : Component σ η} (hparent : t.descend names = some parent)
    (hsegments : ∀ n ∈ name :: names, IsSegment n) (hpc : t.get? parent = some pc)
    (hname : pc.child? name = none) (hcn : c.name = name) (hcp : c.parent = some parent)
    (hcc : c.children = []) :
    Mirrors (pathOfNames (name :: names).reverse :: declared) (t.attachTo parent name c) where
  grown := h.grown.attachTo hpc hname hcn hcp hcc
  declared_iff := by
    intro others hothers
    rw [h.grown.descend_attachTo hparent hpc hname hcc, List.mem_cons,
      h.declared_iff others hothers]
    by_cases hnew : others = name :: names
    · simp [hnew]
    · have hpath : pathOfNames others.reverse ≠ pathOfNames (name :: names).reverse := by
        intro hpath
        apply hnew
        apply List.reverse_injective
        apply pathOfNames_injective ?_ ?_ hpath
        · intro n hn
          exact hothers n (List.mem_reverse.1 hn)
        · intro n hn
          exact hsegments n (List.mem_reverse.1 hn)
      simp only [hpath, hnew, if_false, false_or]

theorem lands_iff (h : Mirrors declared t) {body : List Char} {front : List (List Char)}
    (hfront : front <+: Tree.segments body) :
    (∃ j, t.lands [] front = some j) ↔ ∃ stack, reduce [] front = some stack ∧
      pathOfNames (stack.reverse.map String.ofList) ∈ declared := by
  cases hreduce : reduce [] front with
  | none => simp [Tree.lands, hreduce]
  | some stack =>
    have hnames := h.declared_iff _ (isSegment_of_reduce hfront hreduce)
    simpa [Tree.lands, hreduce] using hnames.symm

/-- The tree can follow a path exactly if the declared paths allow it. -/
theorem walkable_iff (h : Mirrors declared t) :
    Walkable declared path ↔ ∃ k, t.resolve t.root path = .ok k := by
  constructor
  · rintro ⟨body, hbody, hfronts⟩
    have hlands : ∀ front, front <+: Tree.segments body → ∃ j, t.lands [] front = some j := by
      intro front hfront
      exact (h.lands_iff hfront).2 (hfronts front hfront)
    rcases hlands _ (List.prefix_refl _) with ⟨k, hk⟩
    exact ⟨k, h.grown.resolve_eq_ok_iff.2 ⟨body, hbody, hk, hlands⟩⟩
  · rintro ⟨k, hk⟩
    rcases h.grown.resolve_eq_ok_iff.1 hk with ⟨body, hbody, _, hlands⟩
    refine ⟨body, hbody, ?_⟩
    intro front hfront
    exact (h.lands_iff hfront).1 (hlands front hfront)

/-- Where the tree can follow a path, its canonical form has the names of the component. -/
theorem normal_of_resolve (h : Mirrors declared t) (hk : t.resolve t.root path = .ok k) :
    ∃ names, (∀ n ∈ names, IsSegment n) ∧ t.descend names = some k ∧
      normal path = pathOfNames names.reverse := by
  rcases canonical_of_resolve h.grown hk with ⟨names, hnames, hdescend, hcanonical⟩
  exact ⟨names, hnames, hdescend, by rw [normal, hcanonical, Option.getD_some]⟩

/-- A direct path can be followed if its canonical form is declared. -/
theorem walkable_of_direct (h : Mirrors declared t) (hdirect : IsDirect path)
    (hnormal : normal path ∈ declared) : Walkable declared path := by
  rcases hdirect with ⟨body, hbody, hup⟩
  rcases reduce_direct hup [] with ⟨stack, hstack⟩
  rw [List.append_nil] at hstack
  have hpath : normal path = pathOfNames (stack.map String.ofList).reverse := by
    rw [normal, canonical, pathBody_of_tree hbody, hstack]
    simp
  have hsegments := isSegment_of_reduce (List.prefix_refl _) hstack
  rw [hpath, h.declared_iff _ hsegments] at hnormal
  rcases hnormal with ⟨k, hk⟩
  refine ⟨body, hbody, ?_⟩
  intro front hfront
  apply (h.lands_iff hfront).1
  rcases hfront with ⟨back, hback⟩
  rw [← hback, List.mem_append, not_or] at hup
  rcases reduce_direct hup.1 [] with ⟨before, hbefore⟩
  rw [List.append_nil] at hbefore
  rcases reduce_direct hup.2 before with ⟨after, hafter⟩
  rw [← hback, reduce_append, hbefore, Option.bind_some, hafter] at hstack
  rw [← Option.some.inj hstack, List.map_append] at hk
  rcases Tree.descend_of_append hk with ⟨j, hj⟩
  exact ⟨j, by simp [Tree.lands, hbefore, hj]⟩

end Mirrors
end Plan
end SignalTree
