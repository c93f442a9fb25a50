import SignalTree.Proofs.Result
import SignalTree.Proofs.Tree.Growth
import SignalTree.Tree.Resolve

/-!
# Route — where a path leads

A path is followed piece by piece.  Here this is said as a relation, without failures and without
the texts that failures carry, and for every tree.  In a grown tree a path leads from a component to
a component, and there is only one way to fail.

* `Tree.Goes`: what one piece leads to;
* `Tree.Leads`: what a row of pieces leads to;
* `Tree.Route`: what a path leads to, whose scheme is gone already;
* `resolve_eq_ok_iff_route`: the component that a path is resolved to;
* `Grown.contains_of_resolve`, `Grown.resolve_eq_error`: it is there, or the path is not found.
-/

namespace SignalTree
namespace Tree

variable {σ η : Type} {t : Tree σ η} {id j k origin : NodeId} {piece : List Char}
  {pieces front back : List (List Char)} {path : String} {body : List Char}

/-! ## Pieces -/

/-- From `id`, one piece of a path leads to `j`. -/
def Goes (t : Tree σ η) (id : NodeId) (piece : List Char) (j : NodeId) : Prop :=
  if piece = [] ∨ piece = ['.'] then id = j
  else ∃ c, t.get? id = some c ∧
    if piece = ['.', '.'] then c.parent = some j else c.child? (String.ofList piece) = some j

/-- From the one component, the pieces of a path lead to the other. -/
inductive Leads (t : Tree σ η) : NodeId → List (List Char) → NodeId → Prop where
  | arrive (id : NodeId) : Leads t id [] id
  | go {id j k : NodeId} {piece : List Char} {rest : List (List Char)}
      (hstep : t.Goes id piece j) (hrest : Leads t j rest k) : Leads t id (piece :: rest) k

theorem step_eq_ok_iff_goes : t.step path id piece = .ok j ↔ t.Goes id piece j := by
  by_cases hstay : piece = [] ∨ piece = ['.']
  · simp [step, Goes, hstay]
  · cases hget : t.get? id with
    | none => simp [step, Goes, hstay, component, hget, bind, Except.bind]
    | some c =>
      have hcomponent : t.component id = .ok c := component_eq_ok_iff.2 hget
      by_cases hup : piece = ['.', '.']
      · cases hp : c.parent <;>
          simp [step, Goes, hup, hcomponent, hget, hp, bind, Except.bind]
      · cases hc : c.child? (String.ofList piece) <;>
          simp [step, Goes, hstay, hup, hcomponent, hget, hc, bind, Except.bind]

theorem foldlM_step_eq_ok_iff_leads (path : String) :
    pieces.foldlM (t.step path) id = .ok k ↔ t.Leads id pieces k := by
  induction pieces generalizing id with
  | nil =>
    constructor
    · intro h
      have hid : id = k := Except.ok.inj h
      exact hid ▸ .arrive id
    · intro h
      cases h
      rfl
  | cons piece rest ih =>
    rw [List.foldlM_cons]
    constructor
    · intro h
      cases hstep : t.step path id piece with
      | error e =>
        rw [hstep] at h
        cases h
      | ok j =>
        rw [hstep] at h
        exact .go (step_eq_ok_iff_goes.1 hstep) (ih.1 h)
    · intro h
      cases h with
      | go hstep hrest =>
        rw [step_eq_ok_iff_goes.2 hstep]
        exact ih.2 hrest

theorem Leads.append (hfront : t.Leads id front j) (hback : t.Leads j back k) :
    t.Leads id (front ++ back) k := by
  induction hfront with
  | arrive id => exact hback
  | go hstep _ ih => exact .go hstep (ih hback)

/-- A row of pieces is followed in two parts. -/
theorem leads_append_iff :
    t.Leads id (front ++ back) k ↔ ∃ j, t.Leads id front j ∧ t.Leads j back k := by
  constructor
  · intro h
    induction front generalizing id with
    | nil => exact ⟨id, .arrive id, h⟩
    | cons piece front ih =>
      cases h with
      | go hstep hrest =>
        rcases ih hrest with ⟨j, hfront, hback⟩
        exact ⟨j, .go hstep hfront, hback⟩
  · rintro ⟨j, hfront, hback⟩
    exact hfront.append hback

/-! ## Paths -/

/-- A path leads to `k`: from the root if it starts with a slash, else from a live origin. -/
def Route (t : Tree σ η) (origin : NodeId) (body : List Char) (k : NodeId) : Prop :=
  if body.head? = some '/' then t.Leads t.root (segments body) k
  else t.contains origin = true ∧ t.Leads origin (segments body) k

theorem walk_eq_ok_iff_route : t.walk origin path body = .ok k ↔ t.Route origin body k := by
  by_cases hslash : body.head? = some '/'
  · rw [Route, if_pos hslash, ← foldlM_step_eq_ok_iff_leads path]
    simp [walk, start, hslash, bind, Except.bind]
  · rw [Route, if_neg hslash, ← foldlM_step_eq_ok_iff_leads path]
    cases hget : t.get? origin with
    | none => simp [walk, start, hslash, component, contains, hget, bind, Except.bind]
    | some c =>
      simp [walk, start, hslash, component, contains, hget, bind, Except.bind, pure, Except.pure]

/-- A path is resolved to the component that it leads to, without its scheme. -/
theorem resolve_eq_ok_iff_route :
    t.resolve origin path = .ok k ↔
      ∃ body, pathBody path = some body ∧ t.Route origin body k := by
  unfold resolve
  cases hbody : pathBody path with
  | none => simp
  | some body => simp [walk_eq_ok_iff_route]

/-! ## Grown trees -/

theorem step_eq_error {e : Error} (hid : t.contains id = true)
    (he : t.step path id piece = .error e) : e = .notFound path := by
  rcases contains_iff.1 hid with ⟨c, hc⟩
  have hcomponent : t.component id = .ok c := component_eq_ok_iff.2 hc
  by_cases hstay : piece = [] ∨ piece = ['.']
  · simp [step, hstay] at he
  · -- either way there is no next component
    by_cases hup : piece = ['.', '.']
    · cases hp : c.parent <;>
        simp [step, hup, hcomponent, hp, bind, Except.bind] at he
      exact he.symm
    · cases hk : c.child? (String.ofList piece) <;>
        simp [step, hstay, hup, hcomponent, hk, bind, Except.bind] at he
      exact he.symm

namespace Grown

/-- A piece leads from a component to a component: to itself, to its parent or to a child. -/
theorem contains_of_goes (h : t.Grown) (hid : t.contains id = true) (hgo : t.Goes id piece j) :
    t.contains j = true := by
  rw [Goes] at hgo
  split at hgo
  · exact hgo ▸ hid
  · rcases hgo with ⟨c, hc, hnext⟩
    split at hnext
    · rcases h.parent?_spec (parent?_eq_some_iff.2 ⟨c, hc, hnext⟩) with ⟨_, pc, _, _, hpc, _⟩
      exact contains_iff.2 ⟨pc, hpc⟩
    · rcases h.child_live id c _ j hc (Keyed.mem_of_lookup_eq_some hnext) with ⟨kc, hkc, _, _⟩
      exact contains_iff.2 ⟨kc, hkc⟩

theorem contains_of_leads (h : t.Grown) (hid : t.contains id = true) (hk : t.Leads id pieces k) :
    t.contains k = true := by
  induction hk with
  | arrive id => exact hid
  | go hstep _ ih => exact ih (h.contains_of_goes hid hstep)

theorem contains_of_route (h : t.Grown) (hk : t.Route origin body k) : t.contains k = true := by
  rw [Route] at hk
  split at hk
  · exact h.contains_of_leads h.contains_root hk
  · exact h.contains_of_leads hk.1 hk.2

/-- What a path is resolved to is there. -/
theorem contains_of_resolve (h : t.Grown) (hk : t.resolve origin path = .ok k) :
    t.contains k = true := by
  rcases resolve_eq_ok_iff_route.1 hk with ⟨body, _, hroute⟩
  exact h.contains_of_route hroute

theorem foldlM_step_eq_error (h : t.Grown) {e : Error} (hid : t.contains id = true)
    (he : pieces.foldlM (t.step path) id = .error e) : e = .notFound path := by
  induction pieces generalizing id with
  | nil => cases he
  | cons piece rest ih =>
    rw [List.foldlM_cons] at he
    rcases bind_eq_error he with hfirst | ⟨j, hj, hrest⟩
    · exact step_eq_error hid hfirst
    · exact ih (h.contains_of_goes hid (step_eq_ok_iff_goes.1 hj)) hrest

/-- From a component that is there, a path fails because nothing is found under it. -/
theorem resolve_eq_error (h : t.Grown) {e : Error} (hid : t.contains origin = true)
    (he : t.resolve origin path = .error e) : e = .notFound path := by
  have hstart : ∀ body, ∃ id, t.start origin body = .ok id ∧ t.contains id = true := by
    intro body
    rcases contains_iff.1 hid with ⟨c, hc⟩
    by_cases hslash : body.head? = some '/'
    · exact ⟨t.root, if_pos hslash, h.contains_root⟩
    · refine ⟨origin, ?_, hid⟩
      rw [start, if_neg hslash, component_eq_ok_iff.2 hc]
      rfl
  unfold resolve at he
  split at he
  · rename_i body _
    rcases hstart body with ⟨id, hid', hlive⟩
    rw [walk, hid'] at he
    exact h.foldlM_step_eq_error hlive he
  · exact (Except.error.inj he).symm

end Grown
end Tree
end SignalTree
