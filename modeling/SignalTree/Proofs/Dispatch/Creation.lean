import SignalTree.Proofs.Dispatch.Failure
import SignalTree.Proofs.Tree.Label

/-!
# Creation — many clients that ask for children of one component

Several clients send requests for new children to the same component.  A lock lets one request
through at a time, so the requests are carried out in some order.  Whatever the order, of the
requests for one name the first succeeds and the others fail, and the children and the paths that
are there in the end are the same.

* `Request`: the arguments of a request, and what is read from them;
* `Schedule`: the orders in which a lock lets the requests of some clients through;
* `World.Served`: what some requests have made of a world;
* `Ready.dispatch_ok`, `Ready.dispatch_taken`: one request, for a free name and for one that is
  taken;
* `Served.serve`: the run lemma;
* `creations_of_course`: the whole, after every course.
-/

namespace SignalTree

variable {σ η : Type}

/-! ## Requests -/

/-- The arguments of a request for a new child, with the name and the type read from them. -/
structure Request where
  arguments : Frame
  name : String
  type : String
  reads_name : arguments.getString "name" = .ok name
  reads_type : arguments.getStringD "type" Builtin.groupType = .ok type

/-- The name is valid, and the builder of the type does not fail. -/
structure Request.Sound (q : Request) (registry : Registry σ η) : Prop where
  valid : Tree.nameFault q.name = none
  builds : ∃ builder, registry.builder q.type = .ok builder ∧
    ∀ env, ∃ c env', builder q.name env = (.ok c, env')

/-- The orders in which a lock lets through what some clients have queued: each time, one of the
clients goes on with the first of its requests. -/
inductive Schedule {α : Type} : List (List α) → List α → Prop where
  | done {queues : List (List α)} (hdone : ∀ queue ∈ queues, queue = []) : Schedule queues []
  | turn (front : List (List α)) (a : α) (queue : List α) (back : List (List α))
      {order : List α} : Schedule (front ++ queue :: back) order →
        Schedule (front ++ (a :: queue) :: back) (a :: order)

/-- Every request is carried out once. -/
theorem Schedule.perm {α : Type} {queues : List (List α)} {order : List α}
    (h : Schedule queues order) : order.Perm queues.flatten := by
  induction h with
  | @done queues hdone =>
    rw [List.flatten_eq_nil_iff.2 hdone]
  | turn front a queue back _ ih =>
    have hmiddle : (front ++ (a :: queue) :: back).flatten =
        front.flatten ++ a :: (queue ++ back.flatten) := by simp
    have hrest : (front ++ queue :: back).flatten = front.flatten ++ (queue ++ back.flatten) := by
      simp
    rw [hmiddle]
    exact ((hrest ▸ ih).cons a).trans List.perm_middle.symm

/-- The names that some requests are for. -/
def Request.names (requests : List Request) : Set String := { n | ∃ q ∈ requests, q.name = n }

namespace Tree

/-- The names of the children of a component. -/
def childNames (t : Tree σ η) (id : NodeId) : Set String :=
  { n | ∃ c, t.get? id = some c ∧ (c.child? n).isSome = true }

/-- The paths of the components that are there. -/
def livePaths (t : Tree σ η) : Set String := { p | ∃ id, t.contains id = true ∧ t.pathText id = p }

/-- A path leads to a child that a component has under a name. -/
structure LeadsToChild (t : Tree σ η) (path : String) (parent : NodeId) (name : String)
    (id : NodeId) : Prop where
  resolves : ∀ origin, t.resolve origin path = .ok id
  placed : ∃ c, t.get? id = some c ∧ c.name = name ∧ c.parent = some parent
  listed : ∃ pc, t.get? parent = some pc ∧ pc.child? name = some id

/-- The path of a component with a parent leads to it. -/
theorem Rooted.leadsToChild {t : Tree σ η} (h : t.Rooted) {id parent : NodeId} {c : Component σ η}
    (hc : t.get? id = some c) (hparent : c.parent = some parent) :
    t.LeadsToChild (t.pathText id) parent c.name id := by
  have hne : id ≠ t.root := by
    rintro rfl
    rw [h.root_orphan c hc] at hparent
    cases hparent
  rcases h.owned id c hc hne with ⟨_, p, pc, hp, _, hpc, hchild⟩
  obtain rfl : parent = p := Option.some.inj (hparent.symm.trans hp)
  exact ⟨h.resolve_pathText (contains_iff.2 ⟨c, hc⟩), ⟨c, hc, rfl, hparent⟩, pc, hpc, hchild⟩

end Tree

/-- A component can get the child that the request is for. -/
structure Request.Acceptable (q : Request) (t : Tree σ η) (r : NodeId) : Prop where
  sound : q.Sound t.registry
  free : q.name ∉ t.childNames r

namespace World

variable {u v w w' : World σ η} {r : NodeId} {q : Request} {names : Set String}

/-- A component in a world answers requests for children with the built-in handler. -/
structure Ready (w : World σ η) (r : NodeId) : Prop where
  rooted : w.tree.Rooted
  labelled : w.tree.Labelled
  answers : w.handler? r "create_component" = some (.builtin .createComponent)

/-- Carries out requests one after the other, all sent to one path. -/
def serve (w : World σ η) (behaviour : Behaviour σ η) (path : String) (requests : List Request) :
    World σ η :=
  requests.foldl (fun w q => (w.dispatch behaviour path "create_component" q.arguments).2) w

/-- What requests for some names have made of a world: a child for each of the names, and nothing
else. -/
structure Served (w : World σ η) (r : NodeId) (names : Set String) (v : World σ η) : Prop where
  course : Course KeepsLabels w v
  registry : v.tree.registry = w.tree.registry
  receiver : ∃ c d, w.tree.get? r = some c ∧ v.tree.get? r = some d ∧ d.signals = c.signals ∧
    ∀ n, (d.child? n).isSome = true ↔ (c.child? n).isSome = true ∨ n ∈ names
  kept : ∀ k, w.tree.contains k = true → v.tree.contains k = true
  made : ∀ n ∈ names, ∃ k d, v.tree.get? k = some d ∧ d.name = n ∧ d.parent = some r
  fresh : ∀ k d, v.tree.get? k = some d →
    w.tree.contains k = true ∨ d.name ∈ names ∧ d.parent = some r

namespace Ready

theorem exists_get? (h : w.Ready r) : ∃ c, w.tree.get? r = some c := by
  rcases Option.bind_eq_some_iff.1 h.answers with ⟨c, hc, _⟩
  exact ⟨c, hc⟩

theorem contains (h : w.Ready r) : w.tree.contains r = true := Tree.contains_iff.2 h.exists_get?

/-- The path of the component leads to it. -/
theorem resolve (h : w.Ready r) :
    w.tree.resolve w.tree.root (w.tree.pathText r) = .ok r :=
  h.rooted.resolve_pathText h.contains _

theorem refl (h : w.Ready r) : w.Served r ∅ w where
  course := .start w
  registry := rfl
  receiver := by
    rcases h.exists_get? with ⟨c, hc⟩
    exact ⟨c, c, hc, hc, rfl, by simp⟩
  kept := fun _ hk => hk
  made := by simp
  fresh := fun k d hd => Or.inl (Tree.contains_iff.2 ⟨d, hd⟩)

end Ready

namespace Served

theorem ready (h : w.Served r names v) (hw : w.Ready r) : v.Ready r := by
  rcases h.course.labelled ⟨hw.rooted, hw.labelled⟩ with ⟨hrooted, hlabelled⟩
  rcases h.receiver with ⟨c, d, hc, hd, hsignals, _⟩
  refine ⟨hrooted, hlabelled, ?_⟩
  rw [handler?_eq hd, hsignals, ← handler?_eq hc]
  exact hw.answers

/-- What was there keeps its path. -/
theorem pathText_eq (h : w.Served r names v) (hw : w.Ready r) {k : NodeId}
    (hk : w.tree.contains k = true) : v.tree.pathText k = w.tree.pathText k := by
  rcases h.course.labelled ⟨hw.rooted, hw.labelled⟩ with ⟨hrooted, hlabelled⟩
  rcases Tree.contains_iff.1 (h.kept k hk) with ⟨d, hd⟩
  rcases Tree.contains_iff.1 hk with ⟨c, hc⟩
  rcases (h.course.later hw.rooted).stays k d hd (hw.rooted.ids_lt_next k c hc) with
    ⟨c', hc', hstays⟩
  rw [Tree.pathText, hw.labelled.pathOf_eq hw.rooted hlabelled hrooted hc' hd hstays]
  rfl

theorem childNames_eq (h : w.Served r names v) :
    v.tree.childNames r = w.tree.childNames r ∪ names := by
  rcases h.receiver with ⟨c, d, hc, hd, _, hnames⟩
  ext n
  simp [Tree.childNames, hc, hd, hnames]

theorem livePaths_eq (h : w.Served r names v) (hw : w.Ready r) :
    v.tree.livePaths = w.tree.livePaths ∪ w.tree.childPath r '' names := by
  have hv := h.ready hw
  have hpath : ∀ k d, v.tree.get? k = some d → d.parent = some r →
      v.tree.pathText k = w.tree.childPath r d.name := by
    intro k d hd hparent
    rw [hv.labelled.pathText_eq hv.rooted hd hparent, Tree.childPath, h.pathText_eq hw hw.contains]
    rfl
  ext p
  constructor
  · rintro ⟨k, hk, rfl⟩
    rcases Tree.contains_iff.1 hk with ⟨d, hd⟩
    rcases h.fresh k d hd with hold | ⟨hname, hparent⟩
    · exact Or.inl ⟨k, hold, (h.pathText_eq hw hold).symm⟩
    · exact Or.inr ⟨d.name, hname, (hpath k d hd hparent).symm⟩
  · rintro (⟨k, hk, rfl⟩ | ⟨n, hn, rfl⟩)
    · exact ⟨k, h.kept k hk, h.pathText_eq hw hk⟩
    · rcases h.made n hn with ⟨k, d, hd, rfl, hparent⟩
      exact ⟨k, Tree.contains_iff.2 ⟨d, hd⟩, hpath k d hd hparent⟩

end Served

/-! ## One request -/

theorem runCreate_eq (w : World σ η) (r : NodeId) (signal : String) (q : Request) :
    w.runCreate ⟨r, signal, q.arguments⟩ =
      match w.createChild r q.type q.name with
      | (.error e, w) => (.error e, w)
      | (.ok id, w) =>
        ((w.tree.pathOf id).map fun path => some (Frame.empty.set "path" (.ofUri path)), w) := by
  unfold runCreate
  rw [q.reads_name, q.reads_type]
  rfl

theorem createChild_taken {c : Component σ η} (hq : q.Sound w.tree.registry)
    (hc : w.tree.get? r = some c) (hchild : (c.child? q.name).isSome = true) :
    w.createChild r q.type q.name = (.error (.nameTaken (w.tree.pathText r) q.name), w) := by
  rcases hq.builds with ⟨builder, hbuilder, _⟩
  have hcheck := (Tree.checkNewChild_eq hq.valid hc).trans (if_pos hchild)
  simp only [createChild, hbuilder, hcheck]

theorem createChild_free {c : Component σ η} (hq : q.Sound w.tree.registry)
    (hc : w.tree.get? r = some c) (hchild : c.child? q.name = none) :
    ∃ id w', w.createChild r q.type q.name = (.ok id, w') := by
  rcases hq.builds with ⟨builder, hbuilder, hbuilds⟩
  rcases hbuilds w.env with ⟨made, env, hmade⟩
  have hcheck : w.tree.checkNewChild r q.name = .ok () := by
    rw [Tree.checkNewChild_eq hq.valid hc, hchild]
    rfl
  simp only [createChild, hbuilder, hcheck, hmade]
  exact ⟨_, _, rfl⟩

namespace Ready

/-- A request reaches the handler. -/
theorem dispatch_eq (h : w.Ready r) (behaviour : Behaviour σ η) (arguments : Frame) :
    w.dispatch behaviour (w.tree.pathText r) "create_component" arguments =
      match (w.announced r "create_component" arguments).runCreate
        ⟨r, "create_component", arguments⟩ with
      | (.ok reply, v) => (.ok reply,
        v.emit (.signalCompleted (w.tree.pathText r) "create_component" reply.isSome))
      | (.error e, v) => (.error (.inSignal "create_component" e),
        v.emit (.signalFailed (w.tree.pathText r) "create_component" e)) := by
  rw [dispatch, h.resolve]
  exact w.callSignal_eq h.answers

/-- A request for a name that is taken fails, and nothing but the log knows of it. -/
theorem dispatch_taken (h : w.Ready r) (behaviour : Behaviour σ η) (hq : q.Sound w.tree.registry)
    (htaken : q.name ∈ w.tree.childNames r) :
    ∃ log, w.dispatch behaviour (w.tree.pathText r) "create_component" q.arguments =
      (.error (.inSignal "create_component" (.nameTaken (w.tree.pathText r) q.name)),
        { w with env := { w.env with log } }) := by
  rcases htaken with ⟨c, hc, hchild⟩
  have hcreate := createChild_taken (w := w.announced r "create_component" q.arguments) hq hc hchild
  rw [h.dispatch_eq, runCreate_eq, hcreate]
  exact ⟨_, rfl⟩

/-- A request for a name that is free succeeds; the reply is the path of the new child. -/
theorem dispatch_ok (h : w.Ready r) (behaviour : Behaviour σ η) (hq : q.Sound w.tree.registry)
    (hfree : q.name ∉ w.tree.childNames r) :
    ∃ u w', w.dispatch behaviour (w.tree.pathText r) "create_component" q.arguments =
        (.ok (some (Frame.empty.set "path" (.ofUri u))), w') ∧
      w'.tree.pathOf w.tree.next = .ok u ∧
      ∃ (c : Component σ η) (path : String),
        w'.tree = w.tree.attachTo r q.name (c.placed q.name (some r) path) := by
  rcases h.exists_get? with ⟨c, hc⟩
  have hchild : c.child? q.name = none := by
    cases hchild : c.child? q.name with
    | none => rfl
    | some k => exact absurd ⟨c, hc, by simp [hchild]⟩ hfree
  have hrooted : (w.announced r "create_component" q.arguments).tree.Rooted := h.rooted
  rcases createChild_free (w := w.announced r "create_component" q.arguments) hq hc hchild with
    ⟨id, w₁, hcreate⟩
  have heffect := createChild_effect (w.announced r "create_component" q.arguments) r q.type q.name
  have hid : id = (w.announced r "create_component" q.arguments).tree.next :=
    createChild_eq_next (congrArg Prod.fst hcreate)
  rcases exists_pathOf_createChild hrooted hcreate with ⟨u, hu⟩
  rw [h.dispatch_eq, runCreate_eq, hcreate]
  simp only [hu, Except.map]
  refine ⟨u, _, rfl, hid ▸ hu, ?_⟩
  rw [hcreate] at heffect
  generalize htree : w₁.tree = t at heffect
  cases heffect with
  | created _ _ _ _ path _ => exact ⟨_, path, htree⟩

/-- What a request does is a step of a course. -/
theorem course (h : w.Ready r) (behaviour : Behaviour σ η) (arguments : Frame) :
    Course KeepsLabels w
      (w.dispatch behaviour (w.tree.pathText r) "create_component" arguments).2 := by
  refine (Course.start w).dispatch ?_
  intro id custom hid hh
  obtain rfl : r = id := Except.ok.inj (h.resolve.symm.trans hid)
  cases hh.symm.trans h.answers

end Ready

namespace Served

/-- Once a child is attached, its name is one of those that were served. -/
theorem attach (h : w.Served r names v) (hw : w.Ready r) {name : String} {c : Component σ η}
    {path : String} (hcourse : Course KeepsLabels v w')
    (htree : w'.tree = v.tree.attachTo r name (c.placed name (some r) path)) :
    w.Served r (insert name names) w' := by
  have hv := h.ready hw
  rcases h.receiver with ⟨rc, d, hc, hd, hsignals, hnames⟩
  have hget : ∀ k, w'.tree.get? k =
      if k = r then some { d with children := Keyed.put name v.tree.next d.children }
      else if k = v.tree.next then some (c.placed name (some r) path) else v.tree.get? k := by
    intro k
    rw [htree]
    exact hv.rooted.get?_attachTo_eq hd _ _ k
  -- what was there is there still, under its name and its parent
  have hold : ∀ k e, v.tree.get? k = some e →
      ∃ e', w'.tree.get? k = some e' ∧ e'.name = e.name ∧ e'.parent = e.parent := by
    intro k e he
    rw [hget]
    by_cases hk : k = r
    · subst hk
      obtain rfl : d = e := Option.some.inj (hd.symm.trans he)
      exact ⟨_, if_pos rfl, rfl, rfl⟩
    · have hnext : k ≠ v.tree.next := (hv.rooted.ids_lt_next k e he).ne
      exact ⟨e, by rw [if_neg hk, if_neg hnext, he], rfl, rfl⟩
  have hrnext : r ≠ v.tree.next := (hv.rooted.ids_lt_next r d hd).ne
  refine ⟨h.course.trans hcourse, ?_, ?_, ?_, ?_, ?_⟩
  · rw [htree]
    exact h.registry
  · refine ⟨rc, _, hc, (hget r).trans (if_pos rfl), hsignals, ?_⟩
    intro n
    rw [Component.child?, Keyed.lookup_put, Set.mem_insert_iff]
    by_cases hn : n = name
    · simp [hn]
    · rw [if_neg hn, or_iff_right hn]
      exact hnames n
  · intro k hk
    rcases Tree.contains_iff.1 (h.kept k hk) with ⟨e, he⟩
    rcases hold k e he with ⟨e', he', _⟩
    exact Tree.contains_iff.2 ⟨e', he'⟩
  · rintro n (rfl | hn)
    · exact ⟨_, _, (hget _).trans ((if_neg hrnext.symm).trans (if_pos rfl)), rfl, rfl⟩
    · rcases h.made n hn with ⟨k, e, he, hename, heparent⟩
      rcases hold k e he with ⟨e', he', hname', hparent'⟩
      exact ⟨k, e', he', hname'.trans hename, hparent'.trans heparent⟩
  · intro k e he
    rw [hget] at he
    split at he
    · rename_i hk
      exact Or.inl (hk ▸ hw.contains)
    · split at he
      · rw [← Option.some.inj he]
        exact Or.inr ⟨Set.mem_insert _ _, rfl⟩
      · exact (h.fresh k e he).imp_right fun hmade => ⟨Set.mem_insert_of_mem _ hmade.1, hmade.2⟩

/-- A world in which nothing but the surroundings has changed. -/
theorem of_tree_eq (h : w.Served r names v) (hcourse : Course KeepsLabels v w')
    (htree : w'.tree = v.tree) : w.Served r names w' := by
  refine ⟨h.course.trans hcourse, ?_, ?_, ?_, ?_, ?_⟩ <;> rw [htree]
  · exact h.registry
  · exact h.receiver
  · exact h.kept
  · exact h.made
  · exact h.fresh

/-- The step lemma.  A name that was taken from the start is not served. -/
theorem dispatch (h : w.Served r (names \ w.tree.childNames r) v) (hw : w.Ready r)
    (behaviour : Behaviour σ η) (hq : q.Sound w.tree.registry) :
    w.Served r (insert q.name names \ w.tree.childNames r)
      (v.dispatch behaviour (w.tree.pathText r) "create_component" q.arguments).2 := by
  have hv := h.ready hw
  have hcourse := hv.course behaviour q.arguments
  have hsound : q.Sound v.tree.registry := by
    rw [h.registry]
    exact hq
  rw [← h.pathText_eq hw hw.contains]
  by_cases htaken : q.name ∈ v.tree.childNames r
  · rcases hv.dispatch_taken behaviour hsound htaken with ⟨log, hdispatch⟩
    have hsame : insert q.name names \ w.tree.childNames r = names \ w.tree.childNames r := by
      rw [h.childNames_eq] at htaken
      ext n
      constructor
      · rintro ⟨rfl | hn, hfree⟩
        · exact htaken.resolve_left hfree
        · exact ⟨hn, hfree⟩
      · exact fun hn => ⟨Set.mem_insert_of_mem _ hn.1, hn.2⟩
    rw [hsame]
    exact h.of_tree_eq hcourse (by rw [hdispatch])
  · rcases hv.dispatch_ok behaviour hsound htaken with
      ⟨u, w', hdispatch, _, c, path, htree⟩
    have hnew : q.name ∉ w.tree.childNames r := by
      rw [h.childNames_eq] at htaken
      exact fun hold => htaken (Or.inl hold)
    rw [Set.insert_sdiff_of_notMem _ hnew]
    exact h.attach hw hcourse (by rw [hdispatch, htree])

/-- The run lemma. -/
theorem serve {requests : List Request} (h : w.Served r (names \ w.tree.childNames r) v)
    (hw : w.Ready r) (behaviour : Behaviour σ η)
    (hrequests : ∀ q ∈ requests, q.Sound w.tree.registry) :
    w.Served r ((names ∪ Request.names requests) \ w.tree.childNames r)
      (v.serve behaviour (w.tree.pathText r) requests) := by
  induction requests generalizing v names with
  | nil => simpa [Request.names, World.serve] using h
  | cons q rest ih =>
    rcases List.forall_mem_cons.1 hrequests with ⟨hq, hrest⟩
    have hnames : names ∪ Request.names (q :: rest) = insert q.name names ∪ Request.names rest := by
      ext n
      simp only [Request.names, List.exists_mem_cons_iff, Set.mem_union, Set.mem_insert_iff,
        Set.mem_ofPred_eq, eq_comm (a := n)]
      tauto
    rw [hnames]
    exact ih (h.dispatch hw behaviour hq) hrest

/-- A path of a child stays one. -/
theorem leadsToChild (h : w.Served r names v) (hw : w.Ready r) {id : NodeId} {c : Component σ η}
    (hc : w.tree.get? id = some c) (hparent : c.parent = some r) :
    v.tree.LeadsToChild (w.tree.pathText id) r c.name id := by
  have hlive : w.tree.contains id = true := Tree.contains_iff.2 ⟨c, hc⟩
  rcases Tree.contains_iff.1 (h.kept id hlive) with ⟨d, hd⟩
  rcases (h.course.later hw.rooted).stays id d hd (hw.rooted.ids_lt_next id c hc) with
    ⟨c', hc', hstays⟩
  obtain rfl : c = c' := Option.some.inj (hc.symm.trans hc')
  rw [← h.pathText_eq hw hlive, ← hstays.name]
  exact (h.ready hw).rooted.leadsToChild hd (hstays.parent.trans hparent)

end Served

/-- What sound requests make of a world. -/
theorem Ready.serve (hw : w.Ready r) (behaviour : Behaviour σ η) {requests : List Request}
    (hrequests : ∀ q ∈ requests, q.Sound w.tree.registry) :
    w.Served r (Request.names requests \ w.tree.childNames r)
      (w.serve behaviour (w.tree.pathText r) requests) := by
  have hstart : w.Served r (∅ \ w.tree.childNames r) w := by
    rw [Set.empty_sdiff]
    exact hw.refl
  simpa using hstart.serve hw behaviour hrequests

/-! ## All requests -/

/-- What becomes of a request when some others came before it and some come after it. -/
structure Decided (w : World σ η) (behaviour : Behaviour σ η) (r : NodeId) (front : List Request)
    (q : Request) (back : List Request) : Prop where
  /-- The first request for a name succeeds, and its reply leads to the child from then on. -/
  first : q.name ∉ Request.names front → ∃ u id w',
    (w.serve behaviour (w.tree.pathText r) front).dispatch behaviour (w.tree.pathText r)
      "create_component" q.arguments = (.ok (some (Frame.empty.set "path" (.ofUri u))), w') ∧
    ∀ mid rest, back = mid ++ rest →
      (w'.serve behaviour (w.tree.pathText r) mid).tree.LeadsToChild u.text r q.name id
  /-- Every other request for it fails, and nothing but the log knows of it. -/
  later : q.name ∈ Request.names front → ∃ log,
    (w.serve behaviour (w.tree.pathText r) front).dispatch behaviour (w.tree.pathText r)
      "create_component" q.arguments =
        (.error (.inSignal "create_component" (.nameTaken (w.tree.pathText r) q.name)),
          { w.serve behaviour (w.tree.pathText r) front with
            env := { (w.serve behaviour (w.tree.pathText r) front).env with log } })

/-- The reply to the first request for a name leads to the child, however many requests follow. -/
theorem Ready.dispatch_first (h : w.Ready r) (behaviour : Behaviour σ η)
    (hq : q.Sound w.tree.registry)
    (hfree : q.name ∉ w.tree.childNames r) {back : List Request}
    (hback : ∀ q ∈ back, q.Sound w.tree.registry) :
    ∃ u id w', w.dispatch behaviour (w.tree.pathText r) "create_component" q.arguments =
        (.ok (some (Frame.empty.set "path" (.ofUri u))), w') ∧
      ∀ mid rest, back = mid ++ rest →
        (w'.serve behaviour (w.tree.pathText r) mid).tree.LeadsToChild u.text r q.name id := by
  rcases h.dispatch_ok behaviour hq hfree with ⟨u, w', hdispatch, hu, c, path, htree⟩
  refine ⟨u, w.tree.next, w', hdispatch, ?_⟩
  intro mid rest hmid
  have hcourse := h.course behaviour q.arguments
  rw [hdispatch] at hcourse
  have hstep := h.refl.attach h hcourse htree
  have hmids : ∀ q ∈ mid, q.Sound w'.tree.registry := by
    intro q hq
    rw [hstep.registry]
    exact hback q (hmid ▸ List.mem_append_left _ hq)
  have hlater := (hstep.ready h).serve behaviour hmids
  rw [hstep.pathText_eq h h.contains] at hlater
  rcases h.exists_get? with ⟨d, hd⟩
  have hnew : w'.tree.get? w.tree.next = some (c.placed q.name (some r) path) := by
    rw [htree, h.rooted.get?_attachTo_eq hd, if_neg (h.rooted.ids_lt_next r d hd).ne', if_pos rfl]
  have htext : w'.tree.pathText w.tree.next = u.text := by rw [Tree.pathText, hu]
  rw [← htext]
  exact hlater.leadsToChild (hstep.ready h) hnew rfl

theorem Ready.decided (hw : w.Ready r) (behaviour : Behaviour σ η) {front back : List Request}
    (hfront : ∀ q ∈ front, q.Acceptable w.tree r) (hq : q.Acceptable w.tree r)
    (hback : ∀ q ∈ back, q.Acceptable w.tree r) : w.Decided behaviour r front q back := by
  have hserved := hw.serve behaviour fun q hq => (hfront q hq).sound
  have hv := hserved.ready hw
  have hpath := hserved.pathText_eq hw hw.contains
  have hsound : ∀ {q : Request}, q.Acceptable w.tree r →
      q.Sound (w.serve behaviour (w.tree.pathText r) front).tree.registry := by
    intro q hq
    rw [hserved.registry]
    exact hq.sound
  have htaken : q.name ∈ (w.serve behaviour (w.tree.pathText r) front).tree.childNames r ↔
      q.name ∈ Request.names front := by
    rw [hserved.childNames_eq]
    simp [hq.free]
  constructor
  · intro hfirst
    have h := hv.dispatch_first behaviour (hsound hq) (mt htaken.1 hfirst)
      fun q hq => hsound (hback q hq)
    rwa [hpath] at h
  · intro hlater
    have h := hv.dispatch_taken behaviour (hsound hq) (htaken.2 hlater)
    rwa [hpath] at h

/-- After every course, whatever the order in which a lock lets through what clients ask of a
component that answers with the built-in handler, of the requests for one name the first succeeds
and its reply leads to the new child, the others fail and change nothing, and the names of the
children and the paths of all components are the same in the end. -/
theorem creations_of_course {rootName : String} {registry : Registry σ η} {env : Env σ}
    (hcourse : Course KeepsLabels ⟨Tree.new rootName registry, env⟩ w)
    (hanswers : w.handler? r "create_component" = some (.builtin .createComponent))
    {queues : List (List Request)}
    (hqueues : ∀ queue ∈ queues, ∀ q ∈ queue, q.Acceptable w.tree r) (behaviour : Behaviour σ η)
    {order : List Request} (horder : Schedule queues order) :
    (∀ front q back, order = front ++ q :: back → w.Decided behaviour r front q back) ∧
    (w.serve behaviour (w.tree.pathText r) order).tree.childNames r =
      w.tree.childNames r ∪ Request.names queues.flatten ∧
    (w.serve behaviour (w.tree.pathText r) order).tree.livePaths =
      w.tree.livePaths ∪ w.tree.childPath r '' Request.names queues.flatten := by
  rcases hcourse.labelled ⟨.new rootName registry, .new rootName registry⟩ with ⟨hrooted, hlabelled⟩
  have hw : w.Ready r := ⟨hrooted, hlabelled, hanswers⟩
  have hall : ∀ q ∈ order, q.Acceptable w.tree r := by
    intro q hq
    rcases List.mem_flatten.1 (horder.perm.mem_iff.1 hq) with ⟨queue, hqueue, hmem⟩
    exact hqueues queue hqueue q hmem
  have hnames : Request.names order = Request.names queues.flatten := by
    ext n
    simp [Request.names, horder.perm.mem_iff]
  have hserved := hw.serve behaviour fun q hq => (hall q hq).sound
  have hfree : Request.names order \ w.tree.childNames r = Request.names order := by
    rw [sdiff_eq_left, Set.disjoint_left]
    rintro n ⟨q, hq, rfl⟩
    exact (hall q hq).free
  rw [hfree, hnames] at hserved
  refine ⟨?_, hserved.childNames_eq, hserved.livePaths_eq hw⟩
  rintro front q back rfl
  exact hw.decided behaviour (fun q hq => hall q (List.mem_append_left _ hq))
    (hall q (by simp)) fun q hq => hall q (by simp [hq])

/-- The request for a group of a name. -/
def groupRequest (name : String) : Request where
  arguments := Frame.empty.set "name" (.ofString name)
  name
  type := Builtin.groupType
  reads_name := rfl
  reads_type := rfl

/-- Two clients, of whom one wants two children and the other one of the same name. -/
def meshQueues : List (List Request) :=
  [[groupRequest "mesh", groupRequest "grid"], [groupRequest "mesh"]]

/-- The second client comes first. -/
theorem schedule_meshQueues :
    Schedule meshQueues [groupRequest "mesh", groupRequest "mesh", groupRequest "grid"] := by
  refine .turn [[groupRequest "mesh", groupRequest "grid"]] (groupRequest "mesh") [] [] ?_
  refine .turn [] (groupRequest "mesh") [groupRequest "grid"] [[]] ?_
  refine .turn [] (groupRequest "grid") [] [[]] ?_
  exact .done (by simp)

theorem creations_meshQueues :
    Course KeepsLabels rootAlone rootAlone ∧
      rootAlone.handler? 0 "create_component" = some (.builtin .createComponent) ∧
      (∀ queue ∈ meshQueues, ∀ q ∈ queue, q.Acceptable rootAlone.tree 0) ∧
      (∃ u id w', rootAlone.dispatch makeChild "cpath:/" "create_component"
          (groupRequest "mesh").arguments =
            (.ok (some (Frame.empty.set "path" (.ofUri u))), w') ∧
        w'.tree.LeadsToChild u.text 0 "mesh" id) ∧
      (rootAlone.serve makeChild "cpath:/" [groupRequest "mesh", groupRequest "mesh",
        groupRequest "grid"]).tree.childNames 0 = {"mesh", "grid"} := by
  have hempty : ∀ name, name ∉ rootAlone.tree.childNames 0 := by
    rintro name ⟨c, hc, hchild⟩
    cases Option.some.inj hc
    cases hchild
  have hacceptable : ∀ name, Tree.nameFault name = none →
      (groupRequest name).Acceptable rootAlone.tree 0 := by
    intro name hname
    exact ⟨⟨hname, _, rfl, fun env => ⟨_, env, rfl⟩⟩, hempty name⟩
  have hmesh := hacceptable "mesh" (by decide)
  have hgrid := hacceptable "grid" (by decide)
  have hqueues : ∀ queue ∈ meshQueues, ∀ q ∈ queue, q.Acceptable rootAlone.tree 0 := by
    simp [meshQueues, hmesh, hgrid]
  have h := creations_of_course (w := rootAlone) (.start _) rfl hqueues makeChild
    schedule_meshQueues
  refine ⟨.start _, rfl, hqueues, ?_, ?_⟩
  · rcases (h.1 [] _ _ rfl).first (by simp [Request.names]) with ⟨u, id, w', hdispatch, hleads⟩
    exact ⟨u, id, w', hdispatch, hleads [] _ rfl⟩
  · refine h.2.1.trans ?_
    rw [Set.eq_empty_of_forall_notMem hempty, Set.empty_union]
    ext n
    simp only [Request.names, meshQueues, groupRequest, List.flatten_cons, List.flatten_nil,
      List.cons_append, List.nil_append, List.append_nil, List.exists_mem_cons_iff,
      List.not_mem_nil, false_and, exists_false, or_false, Set.mem_ofPred_eq, Set.mem_insert_iff,
      Set.mem_singleton_iff, eq_comm (a := n)]
    tauto

end World
end SignalTree
