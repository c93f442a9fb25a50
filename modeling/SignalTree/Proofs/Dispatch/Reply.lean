import SignalTree.Proofs.Tree.Address
import SignalTree.Proofs.Tree.Tidy
import SignalTree.Proofs.Wire.Readable

/-!
# Reply — which replies are read

A built-in signal replies with a frame: a list of options or of signals, the outline of a subtree, a
path, or nothing.  Where a frame names values to choose from, they have the kind of the value.  So
the reply is read unless it holds a text that no document may hold, or a value that is not read from
its text.

* `Settings.Orderly.uniform_toFrame`, `Signals.uniform_toFrame`, `Tree.uniform_toFrame`: the frames;
* `World.uniform_runBuiltin`: what the built-in signals reply;
* `World.read_reply_iff_of_course`: the replies that are read, and what is read from them.
-/

namespace SignalTree

variable {σ η : Type}

theorem Text.line_of_not_blank {c : Char} (h : isBlank c = false) :
    c ≠ '\t' ∧ c ≠ '\n' ∧ c ≠ '\r' := by
  refine ⟨?_, ?_, ?_⟩ <;>
  · rintro rfl
    exact absurd h (by decide)

/-! ## Frames -/

theorem Entry.allUniform_iff {entries : List (String × Entry)} :
    AllUniform entries ↔ ∀ p ∈ entries, p.2.Uniform := by
  induction entries with
  | nil => simp [AllUniform]
  | cons p rest ih =>
    rcases p with ⟨k, e⟩
    rw [AllUniform, ih, List.forall_mem_cons]

namespace Frame

theorem uniform_iff {f : Frame} : f.Uniform ↔ ∀ p ∈ f.entries, p.2.Uniform := by
  rcases f with ⟨description, tier, entries⟩
  rw [Uniform, Entry.allUniform_iff]

theorem uniform_empty : Frame.empty.Uniform := uniform_iff.2 (by simp [empty])

/-- Nothing is known about a plain value. -/
theorem Uniform.set {f : Frame} (hf : f.Uniform) (key : String) (v : Value) :
    (f.set key v).Uniform := by
  refine uniform_iff.2 fun p hp => ?_
  rcases Keyed.mem_of_mem_put hp with hp | rfl
  · exact uniform_iff.1 hf p hp
  · rw [Entry.Uniform]
    simp [Meta.none]

theorem uniform_foldl_put {α : Type} {key : α → String} {entry : α → Entry} {items : List α}
    (h : ∀ a ∈ items, (entry a).Uniform) :
    (items.foldl (fun f a => f.put (key a) (entry a)) empty).Uniform := by
  rw [foldl_put]
  refine uniform_iff.2 fun p hp => ?_
  rcases List.mem_map.1 (Keyed.mem_of_mem_ofList hp) with ⟨a, ha, rfl⟩
  exact h a ha

end Frame

/-- The allowed values of an option have its kind. -/
theorem Settings.Orderly.uniform_toFrame {o : Settings σ} (h : o.Orderly) : o.toFrame.Uniform := by
  refine Frame.uniform_foldl_put fun s hs => ?_
  have hconsistent := (h.made_of_mem_all hs).consistent
  rw [describe, Entry.Uniform]
  intro v hv
  exact hconsistent.kind_of_mem hv

theorem Signals.uniform_toFrame (l : Signals σ η) : l.toFrame.Uniform := by
  refine Frame.uniform_foldl_put fun s _ => ?_
  rw [Entry.Uniform]
  exact ((Frame.uniform_empty.set _ _).set _ _).set _ _

namespace Tree

variable {t : Tree σ η} {id k : NodeId} {f : Frame}

/-- The outline of a subtree holds plain values, and outlines of the subtrees below. -/
theorem uniform_frameFrom {fuel : Nat} (h : t.frameFrom fuel id = .ok f) : f.Uniform := by
  induction fuel generalizing id f with
  | zero => cases h
  | succ fuel ih =>
    rcases bind_eq_ok_iff.1 h with ⟨c, -, h⟩
    rcases bind_eq_ok_iff.1 h with ⟨path, -, h⟩
    rcases bind_eq_ok_iff.1 h with ⟨children, hchildren, h⟩
    cases h
    have hbelow : (Entry.frame ⟨"", none, children.map fun p => (p.1, .frame p.2)⟩).Uniform := by
      rw [Entry.Uniform]
      refine Frame.uniform_iff.2 fun p hp => ?_
      rcases List.mem_map.1 hp with ⟨q, hq, rfl⟩
      rcases exists_of_mem_mapM hchildren hq with ⟨child, -, hchild⟩
      rcases bind_eq_ok_iff.1 hchild with ⟨g, hg, hchild⟩
      cases hchild
      rw [Entry.Uniform]
      exact ih hg
    have hplain : ∀ v, (Entry.value v Meta.none).Uniform := fun v => by
      rw [Entry.Uniform]
      simp [Meta.none]
    refine Frame.uniform_iff.2 ?_
    simp only [List.mem_cons, List.not_mem_nil, or_false, forall_eq_or_imp, forall_eq]
    exact ⟨hplain _, hplain _, hplain _, hbelow⟩

theorem uniform_toFrame (h : t.toFrame id = .ok f) : f.Uniform := uniform_frameFrom h

/-- The path of a component stands on one line. -/
theorem Rooted.line_pathText (h : t.Rooted) (hk : t.contains k = true) :
    ∀ c ∈ (t.pathText k).toList, c ≠ '\t' ∧ c ≠ '\n' ∧ c ≠ '\r' := by
  rcases h.exists_names hk with ⟨names, hnames⟩
  have htext : t.pathText k = (Uri.component ("/" ++ "/".intercalate names)).text := by
    rw [pathText, hnames.pathOf_eq]
  intro c hc
  rw [htext] at hc
  rcases Uri.mem_text_component hc with hc | hc
  · exact Text.line_of_not_blank hc.not_blank
  · exact Text.line_of_not_blank (hnames.not_blank c hc)

end Tree

/-! ## Replies -/

theorem Builtin.line_name (b : Builtin) :
    ∀ c ∈ b.name.toList, c ≠ '\t' ∧ c ≠ '\n' ∧ c ≠ '\r' := fun _ hc =>
  Text.line_of_not_blank (Text.isGraphic_of_all (by cases b <;> decide) hc).not_blank

namespace World

variable {w w' v : World σ η} {behaviour : Behaviour σ η} {id : NodeId} {name : String}
  {arguments : Frame} {reply : Option Frame}

/-- A call that succeeds replies with what its handler does. -/
theorem callSignal_eq_ok {h : Handler η} (hh : w.handler? id name = some h)
    (hcall : w.callSignal behaviour id name arguments = (.ok reply, w')) :
    ∃ v, (w.announced id name arguments).run behaviour h ⟨id, name, arguments⟩
      = (.ok reply, v) := by
  rw [w.callSignal_eq hh] at hcall
  rcases hrun : (w.announced id name arguments).run behaviour h ⟨id, name, arguments⟩ with
    ⟨result, v⟩
  cases result with
  | error e => simp [hrun] at hcall
  | ok reply' =>
    simp only [hrun, Prod.mk.injEq, Except.ok.injEq] at hcall
    exact ⟨v, by rw [hcall.1]⟩

theorem dispatchText_of_reply {text : String} {d reply : Wire.Document}
    (hread : Wire.readDocument text = .ok d)
    (h : (w.emitAll (Wire.documentMessages text)).dispatchDocument behaviour d = (.ok reply, w')) :
    w.dispatchText behaviour text = (.ok (String.ofList (Wire.writeDocument reply)), w') := by
  rw [dispatchText_of_read hread, h]
  rfl

theorem reply_withoutReply {r : Except Error Unit × World σ η}
    (h : withoutReply r = (.ok reply, v)) : reply = none := by
  rcases map_eq_ok_iff.1 (Prod.mk.inj h).1 with ⟨_, -, hnone⟩
  exact hnone.symm

/-- The reply to a creation holds a path. -/
theorem uniform_runCreate {call : Call} (h : w.runCreate call = (.ok reply, v)) :
    (reply.getD Frame.empty).Uniform := by
  unfold runCreate at h
  extract_lets arguments at h
  cases harguments : arguments with
  | error e => simp [harguments] at h
  | ok typeAndName =>
    rcases typeAndName with ⟨type, name⟩
    rcases hcreate : w.createChild call.receiver type name with ⟨result, w₁⟩
    cases result with
    | error e => simp [harguments, hcreate] at h
    | ok id =>
      simp only [harguments, hcreate, Prod.mk.injEq] at h
      rcases map_eq_ok_iff.1 h.1 with ⟨path, -, rfl⟩
      exact Frame.uniform_empty.set _ _

/-- The description that is asked for is made of options that were declared. -/
theorem orderly_of_signature (ht : w.tree.Orderly) {o : Settings σ}
    (h : (w.signature id name).1 = .ok o) : o.Orderly := by
  unfold signature at h
  cases hc : w.tree.component id with
  | error e => simp [hc] at h
  | ok c =>
    cases hs : c.signals.get? name with
    | none => simp [hc, Signals.get, hs] at h
    | some s =>
      have hsignals := (ht.components id c (Tree.component_eq_ok_iff.1 hc)).signals
      have hsignal : s.Orderly := hsignals _ (Keyed.mem_of_lookup_eq_some hs)
      simp only [hc, Signals.get, hs] at h
      exact (hsignal.buildSignature _ _).2 o h

/-- What the built-in signals reply in a tree of options that were declared and changed. -/
theorem uniform_runBuiltin (ht : w.tree.Orderly) {b : Builtin} {call : Call}
    (h : w.runBuiltin b call = (.ok reply, v)) : (reply.getD Frame.empty).Uniform := by
  cases b with
  | configure =>
    rw [reply_withoutReply h]
    exact Frame.uniform_empty
  | listOptions =>
    rcases map_eq_ok_iff.1 (Prod.mk.inj h).1 with ⟨c, hc, rfl⟩
    exact (ht.components _ c (Tree.component_eq_ok_iff.1 hc)).options.uniform_toFrame
  | listSignals =>
    rcases map_eq_ok_iff.1 (Prod.mk.inj h).1 with ⟨c, -, rfl⟩
    exact c.signals.uniform_toFrame
  | listTree =>
    rcases map_eq_ok_iff.1 (Prod.mk.inj h).1 with ⟨f, hf, rfl⟩
    exact Tree.uniform_toFrame hf
  | createComponent => exact uniform_runCreate h
  | deleteComponent =>
    simp only [runBuiltin] at h
    cases hname : call.arguments.getString "name" with
    | error e => simp [hname] at h
    | ok name =>
      rw [hname] at h
      rw [reply_withoutReply h]
      exact Frame.uniform_empty
  | signature =>
    simp only [runBuiltin] at h
    cases hname : call.arguments.getString "name" with
    | error e => simp [hname] at h
    | ok name =>
      rw [hname] at h
      rcases map_eq_ok_iff.1 (Prod.mk.inj h).1 with ⟨o, ho, rfl⟩
      exact (orderly_of_signature ht ho).uniform_toFrame

/-- The reply of a built-in signal, in any tree that a program leads to, is read if and only if its
texts may stand in a document and its values are read from their texts.  What is read carries the
name of the signal and the path of the component as it is then. -/
theorem read_reply_iff_of_course {rootName : String} {registry : Registry σ η} {env : Env σ}
    (hregistry : registry.Orderly) (hcourse : Course Tidy ⟨Tree.new rootName registry, env⟩ w)
    {text out : String} {d : Wire.Document} {b : Builtin}
    (hread : Wire.readDocument text = .ok d)
    (hid : w.tree.resolve w.tree.root d.receiver = .ok id) (htarget : d.target = b.name)
    (hh : w.handler? id d.target = some (.builtin b))
    (hdispatch : w.dispatchText behaviour text = (.ok out, w'))
    (hlive : w'.tree.contains id = true) :
    ∃ u reply, w'.tree.pathOf id = .ok u ∧
      (w.emitAll (Wire.documentMessages text)).dispatchDocument behaviour d = (.ok reply, w') ∧
      out = String.ofList (Wire.writeDocument reply) ∧
      (Succeeds (Wire.readDocument out) ↔ reply.Legible) ∧
      ∀ d', Wire.readDocument out = .ok d' → d'.target = d.target ∧ d'.receiver = u.text := by
  rcases dispatchText_eq_ok hdispatch with ⟨d₁, reply, hread₁, hreply, rfl⟩
  obtain rfl : d = d₁ := Except.ok.inj (hread.symm.trans hread₁)
  rcases w.emitAll_eq (Wire.documentMessages text) with ⟨env', hemit⟩
  let v : World σ η := { w with env := env' }
  rw [hemit] at hreply
  -- the call is one step more of the course, and the tree is rooted before and after it
  have hv := hcourse.surroundings env'
  have hafter : w'.tree.Rooted := by
    have hcall : Course Tidy ⟨Tree.new rootName registry, env⟩
        (v.dispatchDocument behaviour d).2 :=
      hv.dispatchDocument fun id' h hid' hh' => by
        obtain rfl : id = id' := Except.ok.inj (hid.symm.trans hid')
        cases Option.some.inj (hh.symm.trans hh')
    rw [hreply] at hcall
    exact hcall.rooted (Tree.Rooted.new rootName registry)
  have horderly := (hv.orderly ⟨Tree.Rooted.new rootName registry,
    Tree.Orderly.new rootName hregistry⟩).2
  rcases hafter.resolve_pathOf hlive with ⟨u, hu, -⟩
  have hpath : w'.tree.pathText id = u.text := by rw [Tree.pathText, hu]
  rcases dispatchDocument_eq_ok hreply with ⟨id', f, hid', hcall, hform⟩
  obtain rfl : id = id' := Except.ok.inj (hid.symm.trans hid')
  have huniform : reply.frame.Uniform := by
    rcases callSignal_eq_ok (w := v) hh hcall with ⟨v', hrun⟩
    rw [hform]
    exact uniform_runBuiltin (w := v.announced id d.target d.frame) horderly hrun
  have hiff := Wire.succeeds_readDocument_iff huniform
  refine ⟨u, reply, hu, hemit ▸ hreply, rfl, hiff, ?_⟩
  intro d' hd'
  rw [hform, hpath] at hd'
  refine Wire.names_of_readDocument hd' ?_
  simp only [List.mem_cons, List.not_mem_nil, or_false, forall_eq_or_imp, forall_eq]
  exact ⟨htarget ▸ b.line_name, hpath ▸ hafter.line_pathText hlive⟩

/-! ## A tree with one child -/

/-- A root with a child of some name. -/
def outlineWorld (name : String) : World Unit Unit :=
  (rootAlone.createChild 0 Builtin.groupType name).2

theorem outlineWorld_course (name : String) : Course Tidy rootAlone (outlineWorld name) :=
  .act (.createChild 0 Builtin.groupType name) trivial (.start _)

/-- The signal that asks for the outline of the tree. -/
def outlineCall : Wire.Document := ⟨"list_tree", "cpath:/", Frame.empty⟩

/-- The same in a document. -/
def outlineText : String := String.ofList (Wire.writeDocument outlineCall)

theorem read_outlineText : Wire.readDocument outlineText = .ok outlineCall := by
  have hsendable : outlineCall.Sendable := by
    refine ⟨by decide, by decide, ?_⟩
    simp only [outlineCall, Frame.Sendable, Frame.empty, Entry.AllSendable]
    decide
  exact Wire.readDocument_received hsendable

/-- The outline of a group with some groups below. -/
def groupOutline (name path : String) (children : List (String × Entry)) : Frame :=
  ⟨"", none, [
    ("name", .value (.ofString name) .none),
    ("type", .value (.ofString Builtin.groupType) .none),
    ("path", .value (.ofUri (.component path)) .none),
    ("children", .frame ⟨"", none, children⟩)]⟩

/-- The reply with the outline. -/
def outlineReply (name : String) : Wire.Document where
  target := "list_tree"
  receiver := "cpath:/"
  frame := groupOutline "Root" "/" [(name, .frame (groupOutline name ("/" ++ name) []))]

/-- A program whose handlers do nothing. -/
def idle : Behaviour Unit Unit := fun _ _ v => (.ok none, v)

/-- The call is answered with the outline, whatever messages come before. -/
theorem dispatchDocument_outline (name : String) (ms : List Message)
    (h : ∀ env, ∃ w', (⟨(outlineWorld name).tree, env⟩ : World Unit Unit).dispatchDocument
      idle outlineCall = (.ok (outlineReply name), w') ∧ w'.tree = (outlineWorld name).tree) :
    ∃ w', ((outlineWorld name).emitAll ms).dispatchDocument idle outlineCall
        = (.ok (outlineReply name), w') ∧ w'.tree = (outlineWorld name).tree := by
  rcases (outlineWorld name).emitAll_eq ms with ⟨env, hemit⟩
  rw [hemit]
  exact h env

/-- The outline can be read if the path of the child can. -/
theorem readable_outlineReply_iff (name : String) :
    (outlineReply name).frame.Readable ↔
      Succeeds (Uri.parse (Uri.component ("/" ++ name)).text) := by
  have hroot : Succeeds (Uri.parse (Uri.component "/").text) := ⟨_, rfl⟩
  have hnone : Meta.none.Readable := Meta.readable_of_nil rfl
  simp only [outlineReply, groupOutline, Frame.Readable, Entry.AllReadable, Entry.Readable,
    Value.ofString, Value.ofUri, Value.Readable, Scalar.Readable, hroot, hnone, and_true, true_and]

/-- The characters of markup in a name do no harm. -/
theorem read_reply_outlineWorld :
    Course Tidy rootAlone (outlineWorld "<a&b>\"'") ∧
      (outlineWorld "<a&b>\"'").handler? 0 "list_tree" = some (.builtin .listTree) ∧
      ∃ out w' d', (outlineWorld "<a&b>\"'").dispatchText idle outlineText = (.ok out, w') ∧
        w'.tree.contains 0 = true ∧ Wire.readDocument out = .ok d' ∧
        d'.target = "list_tree" ∧ d'.receiver = "cpath:/" := by
  rcases dispatchDocument_outline "<a&b>\"'" (Wire.documentMessages outlineText)
    fun env => ⟨_, rfl, rfl⟩ with ⟨w', hcall, htree⟩
  have hlive : w'.tree.contains 0 = true := by
    rw [htree]
    rfl
  have hcourse := outlineWorld_course "<a&b>\"'"
  have hdispatch := dispatchText_of_reply read_outlineText hcall
  have hlegible : (outlineReply "<a&b>\"'").Legible :=
    ⟨by decide +kernel, (readable_outlineReply_iff _).2 ⟨_, rfl⟩⟩
  rcases read_reply_iff_of_course Registry.orderly_standard hcourse read_outlineText rfl
    (b := .listTree) rfl rfl hdispatch hlive with ⟨u, reply, hu, hreply, -, hiff, hnames⟩
  obtain rfl : outlineReply "<a&b>\"'" = reply :=
    Except.ok.inj (Prod.mk.inj (hcall.symm.trans hreply)).1
  obtain rfl : Uri.component "/" = u := by
    rw [htree] at hu
    exact Except.ok.inj hu
  rcases hiff.2 hlegible with ⟨d', hd'⟩
  rcases hnames d' hd' with ⟨htarget, hreceiver⟩
  exact ⟨hcourse, rfl, _, w', d', hdispatch, hlive, hd', htarget, hreceiver⟩

/-- A control character in a name does: the path of the component is not read. -/
theorem not_read_reply_outlineWorld :
    Course Tidy rootAlone (outlineWorld "a\x7f") ∧
      (outlineWorld "a\x7f").handler? 0 "list_tree" = some (.builtin .listTree) ∧
      ∃ out w', (outlineWorld "a\x7f").dispatchText idle outlineText = (.ok out, w') ∧
        w'.tree.contains 0 = true ∧ ¬ Succeeds (Wire.readDocument out) := by
  rcases dispatchDocument_outline "a\x7f" (Wire.documentMessages outlineText)
    fun env => ⟨_, rfl, rfl⟩ with ⟨w', hcall, htree⟩
  have hlive : w'.tree.contains 0 = true := by
    rw [htree]
    rfl
  have huniform : (outlineReply "a\x7f").frame.Uniform := by
    simp [outlineReply, groupOutline, Frame.Uniform, Entry.AllUniform, Entry.Uniform, Meta.none]
  have hpath : ¬ Succeeds (Uri.parse (Uri.component ("/" ++ "a\x7f")).text) :=
    not_succeeds_error _
  have hdispatch := dispatchText_of_reply read_outlineText hcall
  refine ⟨outlineWorld_course _, rfl, _, w', hdispatch, hlive, ?_⟩
  rw [Wire.succeeds_readDocument_iff huniform]
  exact fun h => hpath ((readable_outlineReply_iff _).1 h.frame)

end World
end SignalTree
