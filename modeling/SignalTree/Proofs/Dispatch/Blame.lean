import SignalTree.Proofs.Dispatch.Failure
import SignalTree.Proofs.Tree.Label
import SignalTree.Proofs.Value.Reading

/-!
# Blame — whom an error names

An error about an option or a signal that is not there names the component by the label of its list.
In a course every label is the path, so these errors name the path, whichever operation reports
them.

* `Error.Blames`: an error that names a component by its path, if it names one;
* `World.Raises`: the errors that operations on a component end with;
* `Raises.blames`: they name its path, or they are handed over by the embedding program;
* `labels_of_course`: labels, places and errors after every course.
-/

namespace SignalTree

/-- If the error is about an option or a signal that is not there, it names the path. -/
def Error.Blames (path : String) : Error → Prop
  | .unknownOption component _ => component = path
  | .unknownSignal component _ => component = path
  | _ => True

variable {σ η : Type} {e : Error}

theorem Error.IsPlain.blames (h : e.IsPlain) (path : String) : e.Blames path := by
  cases e <;> trivial

theorem Error.IsUnreadable.plain (h : e.IsUnreadable) : e.IsPlain := by
  cases e <;> trivial

namespace Component.Labelled

variable {c : Component σ η} {path name : String}

/-- A path is never empty, so it is what errors call the list. -/
theorem label_eq (h : c.Labelled path) (hpath : path ≠ "") : c.options.label = path := by
  rw [Settings.label, h.options, if_neg hpath]

theorem get_option (h : c.Labelled path) (hpath : path ≠ "") (hs : c.options.get? name = none) :
    c.options.get name = .error (.unknownOption path name) := by
  rw [Settings.get, hs, h.label_eq hpath]

theorem get_signal (h : c.Labelled path) (hs : c.signals.get? name = none) :
    c.signals.get name = .error (.unknownSignal path name) :=
  Signals.get_eq_error_iff.2 ⟨hs, by rw [h.signals]⟩

end Component.Labelled

namespace Tree

variable {t : Tree σ η} {id : NodeId} {c : Component σ η}

theorem Fault.of_set {name : String} {v : Value} {env : Env σ} (hc : t.get? id = some c)
    (h : (c.options.set name v env).1 = .error e) : t.Fault id e := by
  have hsets := c.options.set_sets name v env
  rw [h] at hsets
  generalize (c.options.set name v env).2.1 = o at hsets
  cases hsets with
  | refused hrefuses => exact .of_refuses hc hrefuses
  | stopped hs _ hstops => exact .of_stops hc hs hstops

theorem Fault.of_setText {name text : String} {env : Env σ} (hc : t.get? id = some c)
    (h : (c.options.setText name text env).1 = .error e) : t.Fault id e := by
  unfold Settings.setText at h
  cases hs : c.options.get? name with
  | none =>
    simp only [Settings.get, hs, Except.error.injEq] at h
    exact h ▸ .option hc hs
  | some s =>
    simp only [Settings.get, hs, Setting.setText] at h
    cases hdecode : Value.decode text s.kind with
    | error e' =>
      simp only [hdecode, Except.error.injEq] at h
      have hunreadable := ((Value.gives_decode text s.kind).of_eq_error hdecode).located s.name
      exact .plain (h ▸ hunreadable.plain)
    | ok v =>
      -- from here on the value is set like any other
      simp only [hdecode] at h
      have hset : (c.options.set name v env).1 = .error e := by
        simpa only [Settings.set, Settings.get, hs] using h
      exact .of_set hc hset

theorem plain_of_step {path : String} {piece : List Char}
    (h : t.step path id piece = .error e) : e.IsPlain := by
  unfold step at h
  extract_lets found at h
  have hfound : ∀ next, found next = .error e → e.IsPlain := by
    intro next hnext
    cases next with
    | some id => cases hnext
    | none =>
      cases hnext
      trivial
  split at h
  · cases h
  · rcases bind_eq_error h with hc | ⟨c, _, h⟩
    · rw [component_eq_error hc]
      trivial
    · split at h
      · exact hfound _ h
      · exact hfound _ h

/-- A path that leads nowhere is no fault of a component. -/
theorem plain_of_resolve {path : String} (h : t.resolve id path = .error e) : e.IsPlain := by
  have hsteps : ∀ (pieces : List (List Char)) (j : NodeId),
      pieces.foldlM (t.step path) j = .error e → e.IsPlain := by
    intro pieces
    induction pieces with
    | nil =>
      intro j hj
      cases hj
    | cons piece rest ih =>
      intro j hj
      rw [List.foldlM_cons] at hj
      rcases bind_eq_error hj with hstep | ⟨k, _, hrest⟩
      · exact plain_of_step hstep
      · exact ih k hrest
  unfold resolve at h
  split at h
  · rcases bind_eq_error h with hstart | ⟨j, _, hwalk⟩
    · unfold start at hstart
      split at hstart
      · cases hstart
      · rcases bind_eq_error hstart with hc | ⟨_, _, hdone⟩
        · rw [component_eq_error hc]
          trivial
        · cases hdone
    · exact hsteps _ j hwalk
  · cases h
    trivial

/-- A fault of a component under its label names it, or the embedding program gave it. -/
theorem Fault.blames {path : String} (h : t.Fault id e) (hpath : path ≠ "")
    (hlabel : ∀ c, t.get? id = some c → c.Labelled path) : e.Blames path ∨ t.Foreign id e := by
  cases h with
  | plain h => exact Or.inl (h.blames path)
  | option hc _ => exact Or.inl ((hlabel _ hc).label_eq hpath)
  | signal hc _ => exact Or.inl (hlabel _ hc).signals
  | foreign h => exact Or.inr h

end Tree

/-! ## Operations -/

namespace World

variable {w w' : World σ η} {id : NodeId} {c : Component σ η}

/-- An error with which an operation on a component ends, or the handler of one of its built-in
signals. -/
inductive Raises (w : World σ η) (id : NodeId) (e : Error) : Prop where
  | setOption (option : String) (v : Value) (h : (w.setOption id option v).1 = .error e)
  | setOptionText (option text : String) (h : (w.setOptionText id option text).1 = .error e)
  | configure (f : Frame) (h : (w.configure id f).1 = .error e)
  | signature (name : String) (h : (w.signature id name).1 = .error e)
  | createChild (type name : String) (h : (w.createChild id type name).1 = .error e)
  | removeChild (name : String) (h : (w.removeChild id name).1 = .error e)
  | callSignal (behaviour : Behaviour σ η) (name : String) (arguments : Frame)
      (h : (w.callSignal behaviour id name arguments).1 = .error e)
  | handler (behaviour : Behaviour σ η) (name : String) (arguments : Frame) {b : Builtin}
      (hb : w.handler? id name = some (.builtin b))
      (h : (w.callSignal behaviour id name arguments).1 = .error (.inSignal name e))

theorem changeOptions_fst (hc : w.tree.get? id = some c)
    (f : Settings σ → Env σ → Except Error Unit × Settings σ × Env σ) :
    (w.changeOptions id f).1 = (f c.options w.env).1 := by
  rw [changeOptions, Tree.component_eq_ok_iff.2 hc]

/-- A call fails because there is no such signal, or in the handler. -/
theorem callSignal_fst_eq_error {behaviour : Behaviour σ η} {name : String} {arguments : Frame}
    (hc : w.tree.get? id = some c)
    (h : (w.callSignal behaviour id name arguments).1 = .error e) :
    (c.signals.get? name = none ∧ e = .unknownSignal c.signals.owner name) ∨
      ∃ e', e = .inSignal name e' := by
  cases hs : c.signals.get? name with
  | none =>
    left
    simp only [callSignal, Tree.component_eq_ok_iff.2 hc, Signals.get, hs,
      Except.error.injEq] at h
    exact ⟨rfl, h.symm⟩
  | some s =>
    right
    have hh : w.handler? id name = some s.handler := by rw [handler?_eq hc, hs]; rfl
    rcases callSignal_eq_error hh (Prod.ext h rfl) with ⟨e', v, _, he, _⟩
    exact ⟨e', he⟩

/-- What operations report about a component that is there. -/
theorem Raises.blames {path : String} (hrooted : w.tree.Rooted) (hc : w.tree.get? id = some c)
    (hpath : path ≠ "") (hlabel : c.Labelled path) (h : w.Raises id e) :
    e.Blames path ∨ w.tree.Foreign id e := by
  have hlabels : ∀ c', w.tree.get? id = some c' → c'.Labelled path := by
    intro c' hc'
    rw [Option.some.inj (hc'.symm.trans hc)]
    exact hlabel
  have hfault : w.tree.Fault id e → e.Blames path ∨ w.tree.Foreign id e := fun hf =>
    hf.blames hpath hlabels
  cases h with
  | setOption option v h =>
    rw [World.setOption, changeOptions_fst hc] at h
    exact hfault (.of_set hc h)
  | setOptionText option text h =>
    rw [World.setOptionText, changeOptions_fst hc] at h
    exact hfault (.of_setText hc h)
  | configure f h => exact hfault (configure_aborted hc (Prod.ext h rfl)).1
  | signature name h => exact hfault (signature_aborted hc (Prod.ext h rfl)).1
  | createChild type name h => exact hfault (createChild_aborted (Prod.ext h rfl)).1
  | removeChild name h => exact hfault (removeChild_aborted (Prod.ext h rfl)).1
  | callSignal behaviour name arguments h =>
    left
    rcases callSignal_fst_eq_error hc h with ⟨_, rfl⟩ | ⟨e', rfl⟩
    · exact hlabel.signals
    · trivial
  | @handler behaviour name arguments b hb h =>
    rcases callSignal_eq_error hb (Prod.ext h rfl) with ⟨e', v, hrun, he, _⟩
    cases he
    have hreceiver : (w.announced id name arguments).tree.get?
        (Call.mk id name arguments).receiver = some c := hc
    exact hfault (runBuiltin_fault (w := w.announced id name arguments) hrooted hreceiver hrun).1

/-! ## Courses -/

theorem pathText_ne_empty (h : w.tree.Rooted) (hc : w.tree.get? id = some c) :
    w.tree.pathText id ≠ "" := by
  rcases h.exists_names (Tree.contains_iff.2 ⟨c, hc⟩) with ⟨names, hnames⟩
  rw [hnames.pathText_eq]
  intro hempty
  simpa [Plan.pathOfNames] using congrArg String.toList hempty

/-- After every course the labels of a component are its path; its path, name, parent and type stay
what they are for as long as it is there; and whatever operation reports that an option or a signal
of it is not there, the report names its path, unless a part of the embedding program has made the
error up. -/
theorem labels_of_course {rootName : String} {registry : Registry σ η} {env : Env σ}
    (h : Course KeepsLabels ⟨Tree.new rootName registry, env⟩ w) :
    (∀ id c, w.tree.get? id = some c → ∃ u, w.tree.pathOf id = .ok u ∧
      c.options.owner = u.text ∧ c.signals.owner = u.text) ∧
    (∀ w', Course KeepsLabels w w' → ∀ id c d, w.tree.get? id = some c →
      w'.tree.get? id = some d → w'.tree.pathOf id = w.tree.pathOf id ∧ d.name = c.name ∧
        d.parent = c.parent ∧ d.type = c.type) ∧
    (∀ id c, w.tree.get? id = some c →
      (∀ name, c.options.get? name = none →
        c.options.get name = .error (.unknownOption (w.tree.pathText id) name)) ∧
      (∀ name, c.signals.get? name = none →
        c.signals.get name = .error (.unknownSignal (w.tree.pathText id) name)) ∧
      ∀ e, w.Raises id e → e.Blames (w.tree.pathText id) ∨ w.tree.Foreign id e) ∧
    ∀ behaviour path name arguments component signal,
      (w.dispatch behaviour path name arguments).1 = .error (.unknownSignal component signal) →
      ∃ id, w.tree.resolve w.tree.root path = .ok id ∧ component = w.tree.pathText id ∧
        signal = name := by
  rcases h.labelled ⟨.new rootName registry, .new rootName registry⟩ with ⟨hrooted, hlabelled⟩
  refine ⟨?_, ?_, ?_, ?_⟩
  · intro id c hc
    rcases hrooted.exists_names (Tree.contains_iff.2 ⟨c, hc⟩) with ⟨names, hnames⟩
    have hlabel := hlabelled.eq_pathText hrooted hc
    rw [Tree.pathText, hnames.pathOf_eq] at hlabel
    exact ⟨_, hnames.pathOf_eq, hlabel.options, hlabel.signals⟩
  · intro w' hmore id c d hc hd
    rcases hmore.labelled ⟨hrooted, hlabelled⟩ with ⟨hrooted', hlabelled'⟩
    rcases (hmore.later hrooted).stays id d hd (hrooted.ids_lt_next id c hc) with ⟨c', hc', hstays⟩
    obtain rfl : c' = c := Option.some.inj (hc'.symm.trans hc)
    exact ⟨hlabelled.pathOf_eq hrooted hlabelled' hrooted' hc hd hstays, hstays.name, hstays.parent,
      hstays.type⟩
  · intro id c hc
    have hlabel := hlabelled.eq_pathText hrooted hc
    have hpath := pathText_ne_empty hrooted hc
    exact ⟨fun name hs => hlabel.get_option hpath hs, fun name hs => hlabel.get_signal hs,
      fun e he => he.blames hrooted hc hpath hlabel⟩
  · intro behaviour path name arguments component signal hdispatch
    unfold dispatch at hdispatch
    cases hresolve : w.tree.resolve w.tree.root path with
    | error e =>
      simp only [hresolve, Except.error.injEq] at hdispatch
      exact (hdispatch ▸ Tree.plain_of_resolve hresolve : Error.IsPlain (.unknownSignal _ _)).elim
    | ok id =>
      simp only [hresolve] at hdispatch
      cases hc : w.tree.get? id with
      | none =>
        simp [callSignal, Tree.component, hc, Tree.removed] at hdispatch
      | some c =>
        rcases callSignal_fst_eq_error hc hdispatch with ⟨_, he⟩ | ⟨e', he⟩
        · cases he
          exact ⟨id, rfl, (hlabelled.eq_pathText hrooted hc).signals, rfl⟩
        · cases he

/-- A size that is declared in place, once the component is in a tree. -/
def declareSize (id : NodeId) : Action Unit Unit :=
  .revise id (fun o => { o with items := o.items ++ [("size",
    ⟨"size", "", "", Setting.level 1, Setting.level 1, [], .basic, [], []⟩)] }) fun l => l

/-- The arguments that ask for a mesh. -/
def meshFrame : Frame := Frame.empty.set "name" (.ofString "mesh")

/-- A mesh made by a signal under tools, which got an option in place; a draft was removed. -/
def meshWorld : World Unit Unit :=
  let w := (rootAlone.createChild 0 Builtin.groupType "draft").2
  let w := (w.createChild 0 Builtin.groupType "tools").2
  let w := (w.perform (declareSize 2)).2
  let w := (w.dispatch makeChild "cpath:/tools" "create_component" meshFrame).2
  (w.removeChild 0 "draft").2

theorem meshWorld_course : Course KeepsLabels rootAlone meshWorld := by
  have hstart : Course KeepsLabels rootAlone rootAlone := .start _
  have hdraft := hstart.act (.createChild 0 Builtin.groupType "draft") trivial
  have htools := hdraft.act (.createChild 0 Builtin.groupType "tools") trivial
  have hsize := htools.act (declareSize 2) fun c _ => ⟨rfl, rfl⟩
  have hmesh : Course KeepsLabels rootAlone
      (World.dispatch _ makeChild "cpath:/tools" "create_component" meshFrame).2 :=
    hsize.dispatch fun id h _ _ =>
      .act (.createChild id Builtin.groupType "made") trivial (.start _)
  exact hmesh.act (.removeChild 0 "draft") trivial

theorem labels_meshWorld :
    Course KeepsLabels rootAlone meshWorld ∧
      (∃ c, meshWorld.tree.get? 3 = some c ∧ c.options.owner = "cpath:/tools/mesh" ∧
        c.signals.owner = "cpath:/tools/mesh") ∧
      ∃ c, meshWorld.tree.get? 2 = some c ∧
        c.options.get "colour" = .error (.unknownOption "cpath:/tools" "colour") ∧
        (meshWorld.setOption 2 "size" (Setting.level 2)).1 = .ok () := by
  have h := labels_of_course meshWorld_course
  refine ⟨meshWorld_course, ?_, ?_⟩
  · obtain ⟨c, hc⟩ : ∃ c, meshWorld.tree.get? 3 = some c := ⟨_, rfl⟩
    rcases h.1 3 c hc with ⟨u, hu, hoptions, hsignals⟩
    have hmesh : .component "/tools/mesh" = u := Except.ok.inj hu
    rw [← hmesh] at hoptions hsignals
    exact ⟨c, hc, hoptions, hsignals⟩
  · exact ⟨_, rfl, (h.2.2.1 2 _ rfl).1 "colour" rfl, rfl⟩

end World
end SignalTree
