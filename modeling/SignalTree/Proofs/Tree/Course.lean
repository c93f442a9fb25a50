import SignalTree.Proofs.Settings.Run
import SignalTree.Proofs.Tree.Run

/-!
# Course — what a program does to a tree, as far as it is allowed

A run consists of the operations on a tree.  A program can do more than that: it declares and
changes the options and the signals of a component in place, and it registers builders of every
kind.  A course is made of actions, each of which a condition allows in its place, and of calls of
signals, whose handlers are courses themselves.

* `World.Course`: the courses under a condition;
* `Course.keeps`: what every allowed action keeps true of the tree, every course keeps true;
* `World.KeepsLabels`: the condition that no change in place gives other labels;
* `Run.course`: under this condition every run is a course.
-/

namespace SignalTree
namespace World

variable {σ η : Type} {Allowed : Tree σ η → Action σ η → Prop} {P : Tree σ η → Prop}
  {u v w : World σ η}

/-- `Course Allowed u v`: some allowed actions and calls of signals lead from `u` to `v`. -/
inductive Course (Allowed : Tree σ η → Action σ η → Prop) : World σ η → World σ η → Prop where
  | start (u : World σ η) : Course Allowed u u
  | act {u v : World σ η} (a : Action σ η) (ha : Allowed v.tree a) :
      Course Allowed u v → Course Allowed u (v.perform a).2
  /-- A call of a signal.  If it reaches a handler of the embedding program, then what this handler
  does is a course. -/
  | callSignal {u v : World σ η} (behaviour : Behaviour σ η) (id : NodeId) (name : String)
      (arguments : Frame)
      (handled : ∀ h, v.handler? id name = some (.custom h) →
        Course Allowed (v.announced id name arguments)
          (behaviour h ⟨id, name, arguments⟩ (v.announced id name arguments)).2) :
      Course Allowed u v → Course Allowed u (v.callSignal behaviour id name arguments).2
  /-- The surroundings may change at any time. -/
  | surroundings {u v : World σ η} (env : Env σ) :
      Course Allowed u v → Course Allowed u { v with env }

namespace Course

/-- What built-in signals do is allowed. -/
def Builtins (Allowed : Tree σ η → Action σ η → Prop) : Prop :=
  ∀ (w : World σ η) call b a, w.Attempts call b a → Allowed w.tree a

/-- The run lemma: what every allowed action keeps true, every course does. -/
theorem keeps (hbuiltins : Builtins Allowed)
    (hact : ∀ (w : World σ η) a, Allowed w.tree a → P w.tree → P (w.perform a).2.tree)
    (h : Course Allowed u v) (hu : P u.tree) : P v.tree := by
  induction h with
  | start u => exact hu
  | @act u v a ha _ ih => exact hact v a ha (ih hu)
  | @callSignal u v behaviour id name arguments _ _ ihHandler ih =>
    rcases v.callSignal_tree behaviour id name arguments with htree | ⟨h, hh, htree⟩
    · rw [htree]
      exact ih hu
    · rw [htree]
      cases h with
      | builtin b =>
        rcases (v.announced id name arguments).runBuiltin_tree b ⟨id, name, arguments⟩ with
          hsame | ⟨a, ha, hact'⟩
        · exact hsame ▸ ih hu
        · exact hact' ▸ hact _ a (hbuiltins _ _ b a ha) (ih hu)
      | custom h => exact ihHandler h hh (ih hu)
  | surroundings env _ ih => exact ih hu

/-- What is allowed under a condition is allowed under a weaker one. -/
theorem mono {Allowed' : Tree σ η → Action σ η → Prop}
    (hweaker : ∀ t a, Allowed t a → Allowed' t a) (h : Course Allowed u v) :
    Course Allowed' u v := by
  induction h with
  | start u => exact .start u
  | act a ha _ ih => exact ih.act a (hweaker _ a ha)
  | callSignal behaviour id name arguments _ _ ihHandler ih =>
    exact ih.callSignal behaviour id name arguments ihHandler
  | surroundings env _ ih => exact ih.surroundings env

theorem trans (huv : Course Allowed u v) (hvw : Course Allowed v w) : Course Allowed u w := by
  induction hvw with
  | start u => exact huv
  | act a ha _ ih => exact .act a ha (ih huv)
  | callSignal behaviour id name arguments handled _ _ ih =>
    exact .callSignal behaviour id name arguments handled (ih huv)
  | surroundings env _ ih => exact .surroundings env (ih huv)

/-- An operation that changes the tree as an allowed action does, or not at all. -/
theorem of_tree (h : Course Allowed u v)
    (htree : w.tree = v.tree ∨ ∃ a, Allowed v.tree a ∧ w.tree = (v.perform a).2.tree) :
    Course Allowed u w := by
  rcases htree with hsame | ⟨a, ha, hact⟩
  · have hw : { v with env := w.env } = w := by rw [← hsame]
    exact hw ▸ h.surroundings w.env
  · have hw : (⟨(v.perform a).2.tree, w.env⟩ : World σ η) = w := by rw [← hact]
    exact hw ▸ (h.act a ha).surroundings w.env

/-- A signal that is dispatched by a path is called on the component there. -/
theorem dispatch {behaviour : Behaviour σ η} {path name : String} {arguments : Frame}
    (handled : ∀ id h, v.tree.resolve v.tree.root path = .ok id →
      v.handler? id name = some (.custom h) → Course Allowed (v.announced id name arguments)
        (behaviour h ⟨id, name, arguments⟩ (v.announced id name arguments)).2)
    (h : Course Allowed u v) : Course Allowed u (v.dispatch behaviour path name arguments).2 := by
  unfold World.dispatch
  cases hid : v.tree.resolve v.tree.root path with
  | error e => exact h
  | ok id => exact h.callSignal behaviour id name arguments fun h => handled id h hid

/-- So is the signal of a document. -/
theorem dispatchDocument {behaviour : Behaviour σ η} {d : Wire.Document}
    (handled : ∀ id h, v.tree.resolve v.tree.root d.receiver = .ok id →
      v.handler? id d.target = some (.custom h) → Course Allowed (v.announced id d.target d.frame)
        (behaviour h ⟨id, d.target, d.frame⟩ (v.announced id d.target d.frame)).2)
    (h : Course Allowed u v) : Course Allowed u (v.dispatchDocument behaviour d).2 := by
  unfold World.dispatchDocument
  cases hid : v.tree.resolve v.tree.root d.receiver with
  | error e => exact h
  | ok id =>
    have hcall := h.callSignal behaviour id d.target d.frame fun h => handled id h hid
    rcases hresult : v.callSignal behaviour id d.target d.frame with ⟨result, w⟩
    rw [hresult] at hcall
    cases result with
    | error e => simpa [hresult] using hcall
    | ok reply => simpa [hresult] using hcall

end Course

/-! ## Labels -/

/-- A change of options or signals in place leaves the labels of their errors alone. -/
def KeepsLabels (t : Tree σ η) : Action σ η → Prop
  | .revise id options signals => ∀ c, t.get? id = some c →
      (options c.options).owner = c.options.owner ∧ (signals c.signals).owner = c.signals.owner
  | _ => True

theorem Attempts.keepsLabels {call : Call} {b : Builtin} {a : Action σ η}
    (h : w.Attempts call b a) : KeepsLabels w.tree a := by
  cases h with
  | configure hc =>
    intro c hc'
    rw [Option.some.inj (hc'.symm.trans hc)]
    exact ⟨Settings.owner_setEntries _ _ _, rfl⟩
  | create type name => trivial
  | delete name => trivial
  | describe owner hc hs => exact fun c _ => ⟨rfl, rfl⟩

theorem changeOptions_keepsLabels (w : World σ η) (id : NodeId)
    {f : Settings σ → Env σ → Except Error Unit × Settings σ × Env σ}
    (hf : ∀ o env, (f o env).2.1.owner = o.owner) :
    (w.changeOptions id f).2.tree = w.tree ∨ ∃ a, KeepsLabels w.tree a ∧
      (w.changeOptions id f).2.tree = (w.perform a).2.tree := by
  rcases w.changeOptions_tree id f with hsame | ⟨c, hc, htree⟩
  · exact Or.inl hsame
  · refine Or.inr ⟨_, ?_, htree⟩
    intro c' hc'
    rw [Option.some.inj (hc'.symm.trans hc)]
    exact ⟨hf c.options w.env, rfl⟩

/-- The operations of a run leave the labels alone. -/
theorem Run.course (h : Run u v) : Course KeepsLabels u v := by
  induction h with
  | start u => exact .start u
  | createChild parent type name _ ih => exact ih.act (.createChild parent type name) trivial
  | addChild parent c _ _ ih => exact ih.act (.addChild parent c) trivial
  | removeChild parent name _ ih => exact ih.act (.removeChild parent name) trivial
  | link owner name target _ ih => exact ih.act (.link owner name target) trivial
  | unlink owner name _ ih => exact ih.act (.unlink owner name) trivial
  | @followLink u v owner name _ ih => exact ih.of_tree (Or.inl (v.followLink_tree owner name))
  | @setOption u v id option value _ ih =>
    exact ih.of_tree (v.changeOptions_keepsLabels id fun o => o.owner_set option value)
  | @setOptionText u v id option text _ ih =>
    exact ih.of_tree (v.changeOptions_keepsLabels id fun o => o.owner_setText option text)
  | @configure u v id f _ ih =>
    exact ih.of_tree (v.changeOptions_keepsLabels id fun o => o.owner_setEntries f.entries)
  | @signature u v id name _ ih =>
    refine ih.of_tree ?_
    rcases v.signature_tree id name with hsame | ⟨c, s, owner, _, _, htree⟩
    · exact Or.inl hsame
    · exact Or.inr ⟨.revise id _ _, fun _ _ => ⟨rfl, rfl⟩, htree⟩
  | callSignal behaviour id name arguments _ _ ihHandler ih =>
    exact ih.callSignal behaviour id name arguments ihHandler
  | surroundings env _ ih => exact ih.surroundings env
  | registry r _ _ ih => exact ih.act (.builders r) trivial

end World
end SignalTree
