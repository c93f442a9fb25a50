import SignalTree.Proofs.Dispatch.Reply
import SignalTree.Proofs.Tree.Find
import SignalTree.Proofs.Tree.Lifetime

/-!
# Reference — the paths of components as references

The name of a component holds neither slashes nor blanks, and no blank may stand in a reference.
A reference may not hold a control character either, and some of these are no blanks, so not every
path is read back from its text.

* `Tree.ControlAbove`: a component or one above it has a control character in its name;
* `Names.parse_text`: which paths are read from their texts;
* `Frame.Carries`: the paths in the replies of `create_component` and `list_tree`;
* `World.parse_pathOf_iff_of_run`: the paths that are read, after every run and in every reply.
-/

namespace SignalTree

variable {σ η : Type}

/-- A path is read as a value in the way it is read as a reference. -/
theorem Scalar.decode_path {s : String} (h : ∀ c ∈ s.toList, Text.isBlank c = false) :
    Scalar.decode s .path = (Uri.parse s).map .path := by
  simp only [decode, Text.trim_of_no_blank h, String.ofList_toList]

/-- The reference is read from its text, and so is the value. -/
def Uri.ReadsBack (u : Uri) : Prop :=
  Uri.parse u.text = .ok u ∧ Scalar.decode u.text .path = .ok (.path u)

/-- The reference is refused for what its text holds, and so is the value. -/
def Uri.Refused (u : Uri) : Prop :=
  Uri.parse u.text = .error (.format "path" u.text "a URI may not contain whitespace") ∧
    Scalar.decode u.text .path = .error (.format "path" u.text "a URI may not contain whitespace")

theorem Uri.Refused.not_readsBack {u : Uri} (h : u.Refused) : ¬ u.ReadsBack := by
  intro hback
  cases hback.1.symm.trans h.1

/-! ## Paths -/

/-- A slash may stand in a reference. -/
theorem ne_slash_of_isControl {ch : Char} (h : Text.isControl ch = true) : ch ≠ '/' := by
  rintro rfl
  exact absurd h (by decide)

namespace Tree

variable {t : Tree σ η} {id k : NodeId} {names : List String} {f : Frame} {u : Uri}

/-- The component, or one above it but the root, has a control character in its name. -/
def ControlAbove (t : Tree σ η) (id : NodeId) : Prop :=
  ∃ n a c, t.climb n id = some a ∧ a ≠ t.root ∧ t.get? a = some c ∧
    ∃ ch ∈ c.name.toList, Text.isControl ch = true

namespace Names

/-- The control characters of a path are those of the names. -/
theorem control_iff (h : t.Names k names) :
    (∃ ch ∈ (Uri.component ("/" ++ "/".intercalate names)).text.toList,
      Text.isControl ch = true) ↔ t.ControlAbove k := by
  constructor
  · rintro ⟨ch, hch, hcontrol⟩
    rcases Uri.mem_text_component hch with hgraphic | hch
    · rw [hgraphic.not_control] at hcontrol
      cases hcontrol
    · have hslash := ne_slash_of_isControl hcontrol
      rcases (h.mem_path_iff hslash).1 hch with ⟨n, a, c, hclimb, hne, hc, hmem⟩
      exact ⟨n, a, c, hclimb, hne, hc, ch, hmem, hcontrol⟩
  · rintro ⟨n, a, c, hclimb, hne, hc, ch, hmem, hcontrol⟩
    have hpath := (h.mem_path_iff (ne_slash_of_isControl hcontrol)).2
      ⟨n, a, c, hclimb, hne, hc, hmem⟩
    refine ⟨ch, ?_, hcontrol⟩
    rw [Uri.toList_text_component]
    exact List.mem_append_right _ (List.mem_cons_of_mem _ hpath)

/-- A path is read from its text if no name on the way holds a control character, and else it is
refused. -/
theorem parse_text (h : t.Names k names) :
    (¬ t.ControlAbove k → (Uri.component ("/" ++ "/".intercalate names)).ReadsBack) ∧
      (t.ControlAbove k → (Uri.component ("/" ++ "/".intercalate names)).Refused) := by
  have hblank : ∀ c ∈ (Uri.component ("/" ++ "/".intercalate names)).text.toList,
      Text.isBlank c = false := by
    intro c hc
    rcases Uri.mem_text_component hc with hc | hc
    · exact hc.not_blank
    · exact h.not_blank c hc
  rw [Uri.ReadsBack, Uri.Refused, Scalar.decode_path hblank, Uri.parse_of_no_blank hblank,
    Uri.ofChars_component, ← h.control_iff, ← List.any_eq_true]
  constructor
  · intro hcontrol
    rw [if_neg hcontrol]
    exact ⟨rfl, rfl⟩
  · intro hcontrol
    rw [if_pos hcontrol]
    exact ⟨rfl, rfl⟩

end Names

/-- The reference is the path of the component, and whether it is read from its text is told by the
names on the way. -/
structure Refers (t : Tree σ η) (k : NodeId) (u : Uri) : Prop where
  path : t.pathOf k = .ok u
  reads_iff : u.ReadsBack ↔ ¬ t.ControlAbove k
  refused : t.ControlAbove k → u.Refused

theorem Names.refers (h : t.Names k names) :
    t.Refers k (.component ("/" ++ "/".intercalate names)) where
  path := h.pathOf_eq
  reads_iff := ⟨fun hback hcontrol => (h.parse_text.2 hcontrol).not_readsBack hback,
    h.parse_text.1⟩
  refused := h.parse_text.2

/-- So it is with every path of a rooted tree. -/
theorem Rooted.refers_iff (h : t.Rooted) : t.Refers k u ↔ t.pathOf k = .ok u := by
  constructor
  · exact Refers.path
  · intro hpath
    rcases h.exists_names (contains_of_pathOf hpath) with ⟨names, hnames⟩
    obtain rfl : Uri.component ("/" ++ "/".intercalate names) = u :=
      Except.ok.inj (hnames.pathOf_eq.symm.trans hpath)
    exact hnames.refers

/-- The names on the way are seen in the path. -/
theorem Rooted.controlAbove_iff (h : t.Rooted) (hpath : t.pathOf k = .ok u) :
    t.ControlAbove k ↔ ∃ ch ∈ u.text.toList, Text.isControl ch = true := by
  rcases h.exists_names (contains_of_pathOf hpath) with ⟨names, hnames⟩
  obtain rfl : Uri.component ("/" ++ "/".intercalate names) = u :=
    Except.ok.inj (hnames.pathOf_eq.symm.trans hpath)
  exact hnames.control_iff.symm

end Tree

/-! ## Replies -/

/-- A frame carries a path under its own key, or in a frame for one of the children. -/
inductive Frame.Carries : Frame → Uri → Prop where
  | own {f : Frame} {u : Uri} {info : Meta}
      (hpath : f.entry? "path" = some (.value (.ofUri u) info)) : Carries f u
  | child {f children g : Frame} {u : Uri} {key : String}
      (hchildren : f.entry? "children" = some (.frame children))
      (hmem : (key, .frame g) ∈ children.entries) (hg : Carries g u) : Carries f u

/-- The reply to a creation carries one path. -/
theorem Frame.carries_set_path_iff {u v : Uri} :
    (Frame.empty.set "path" (.ofUri u)).Carries v ↔ u = v := by
  constructor
  · intro h
    cases h with
    | own hpath =>
      cases hpath
      rfl
    | child hchildren _ _ => cases hchildren
  · rintro rfl
    exact .own rfl

namespace Tree

variable {t : Tree σ η} {id k : NodeId} {f : Frame} {u : Uri}

/-- The outline of a subtree carries the paths of its components, and no others. -/
theorem carries_frameFrom_iff {fuel : Nat} (h : t.frameFrom fuel id = .ok f) :
    f.Carries u ↔ ∃ k ∈ t.collect fuel id, t.pathOf k = .ok u := by
  -- the depth that is left: the children are outlined, and collected, with one less
  induction fuel generalizing id f with
  | zero => cases h
  | succ fuel ih =>
    rcases bind_eq_ok_iff.1 h with ⟨c, hc, h⟩
    rcases bind_eq_ok_iff.1 h with ⟨path, hpath, h⟩
    rcases bind_eq_ok_iff.1 h with ⟨children, hchildren, h⟩
    cases h
    rw [collect, component_eq_ok_iff.1 hc]
    constructor
    · intro hcarries
      cases hcarries with
      | own hown =>
        cases hown
        exact ⟨id, List.mem_cons_self .., hpath⟩
      | child hframe hmem hg =>
        cases hframe
        rcases List.mem_map.1 hmem with ⟨⟨key, g⟩, hresult, heq⟩
        cases heq
        rcases exists_of_mem_mapM hchildren hresult with ⟨p, hp, hstep⟩
        rcases bind_eq_ok_iff.1 hstep with ⟨g', hg', heq⟩
        cases heq
        rcases (ih hg').1 hg with ⟨k, hk, hku⟩
        exact ⟨k, List.mem_cons_of_mem _ (List.mem_flatMap.2 ⟨p, hp, hk⟩), hku⟩
    · rintro ⟨k, hk, hku⟩
      rcases List.mem_cons.1 hk with rfl | hk
      · obtain rfl : path = u := Except.ok.inj (hpath.symm.trans hku)
        exact .own rfl
      · rcases List.mem_flatMap.1 hk with ⟨p, hp, hk⟩
        rcases exists_mem_of_mapM hchildren hp with ⟨q, hq, hstep⟩
        rcases bind_eq_ok_iff.1 hstep with ⟨g, hg, heq⟩
        cases heq
        exact .child rfl (List.mem_map_of_mem hq) ((ih hg).2 ⟨k, hk, hku⟩)

/-- What can be outlined is there. -/
theorem contains_of_frameFrom {fuel : Nat} (h : t.frameFrom fuel id = .ok f) :
    t.contains id = true := by
  cases fuel with
  | zero => cases h
  | succ fuel =>
    rcases bind_eq_ok_iff.1 h with ⟨c, hc, _⟩
    exact contains_iff.2 ⟨c, component_eq_ok_iff.1 hc⟩

end Tree

namespace World

variable {w v : World σ η} {call : Call} {f : Frame} {u : Uri}

/-- The reply to a creation carries the path of the new component. -/
theorem carries_createComponent (h : w.runBuiltin .createComponent call = (.ok (some f), v)) :
    ∃ u type name, v = (w.createChild call.receiver type name).2 ∧
      v.tree.pathOf w.tree.next = .ok u ∧ ∀ u', f.Carries u' ↔ u = u' := by
  simp only [runBuiltin] at h
  unfold runCreate at h
  extract_lets arguments at h
  cases harguments : arguments with
  | error e => simp [harguments] at h
  | ok typeAndName =>
    rcases typeAndName with ⟨type, name⟩
    rcases hcreate : w.createChild call.receiver type name with ⟨result, w₁⟩
    cases result with
    | error e => simp [harguments, hcreate] at h
    | ok id =>
      simp only [harguments, hcreate, Prod.mk.injEq] at h
      rcases h with ⟨hreply, rfl⟩
      rcases map_eq_ok_iff.1 hreply with ⟨u, hu, hf⟩
      obtain rfl : id = w.tree.next := createChild_eq_next (congrArg Prod.fst hcreate)
      rw [← Option.some.inj hf]
      exact ⟨u, type, name, by rw [hcreate], hu, fun _ => Frame.carries_set_path_iff⟩

/-- The reply with a subtree carries the paths of its components. -/
theorem carries_listTree (h : w.runBuiltin .listTree call = (.ok (some f), v)) :
    v = w ∧ ∀ u, f.Carries u ↔ ∃ k ∈ w.tree.subtree call.receiver, w.tree.pathOf k = .ok u := by
  simp only [runBuiltin, Prod.mk.injEq] at h
  rcases h with ⟨hreply, rfl⟩
  rcases map_eq_ok_iff.1 hreply with ⟨g, hg, hf⟩
  cases hf
  refine ⟨rfl, fun u => ?_⟩
  rw [Tree.subtree, if_pos (Tree.contains_of_frameFrom hg)]
  exact Tree.carries_frameFrom_iff hg

/-- After every run the path of a component is read from its text exactly if no name on the way
holds a control character; otherwise it is refused.  This holds of the paths that `create_component`
and `list_tree` reply, since these are the path of the new component and those of the components of
the subtree. -/
theorem parse_pathOf_iff_of_run {rootName : String} {registry : Registry σ η} {env : Env σ}
    (hrun : Run ⟨Tree.new rootName registry, env⟩ w) :
    (∀ id, w.tree.contains id = true → ∃ u, w.tree.Refers id u) ∧
    (∀ call f v, w.runBuiltin .createComponent call = (.ok (some f), v) →
      ∃ u, v.tree.Refers w.tree.next u ∧ ∀ u', f.Carries u' ↔ u = u') ∧
    ∀ call f v, w.runBuiltin .listTree call = (.ok (some f), v) →
      v = w ∧ ∀ u, f.Carries u ↔ ∃ k ∈ w.tree.subtree call.receiver, w.tree.Refers k u := by
  have hrooted : w.tree.Rooted := rooted_of_run hrun
  refine ⟨?_, ?_, ?_⟩
  · intro id hid
    rcases hrooted.exists_names hid with ⟨names, hnames⟩
    exact ⟨_, hnames.refers⟩
  · intro call f v h
    rcases carries_createComponent h with ⟨u, type, name, rfl, hu, hcarries⟩
    -- the path is taken in the tree with the new component, which a run reaches too
    have hafter := rooted_of_run (hrun.createChild call.receiver type name)
    exact ⟨u, hafter.refers_iff.2 hu, hcarries⟩
  · intro call f v h
    rcases carries_listTree h with ⟨rfl, hcarries⟩
    refine ⟨rfl, fun u => ?_⟩
    rw [hcarries u]
    simp only [hrooted.refers_iff]

/-- A world with one child is reached by a run. -/
theorem outlineWorld_run (name : String) : Run rootAlone (outlineWorld name) :=
  .createChild 0 Builtin.groupType name (.start _)

/-- A call that asks for a group. -/
def groupCall (name : String) : Call :=
  ⟨0, "create_component", Frame.empty.set "name" (.ofString name)⟩

theorem parse_pathOf_outlineWorld :
    Run rootAlone (outlineWorld "a:b") ∧
      (∃ u, (outlineWorld "a:b").tree.pathOf 1 = .ok u ∧ u.ReadsBack) ∧
      (∃ f v, (outlineWorld "a:b").runBuiltin .createComponent (groupCall "c") =
        (.ok (some f), v) ∧ ∃ u, v.tree.pathOf 2 = .ok u ∧ f.Carries u) ∧
      ∃ f v, (outlineWorld "a:b").runBuiltin .listTree ⟨0, "list_tree", Frame.empty⟩ =
        (.ok (some f), v) ∧ f.Carries (.component "/a:b") := by
  have hrun := outlineWorld_run "a:b"
  rcases parse_pathOf_iff_of_run hrun with ⟨hpaths, hcreate, hlist⟩
  have hrefers : (outlineWorld "a:b").tree.Refers 1 (.component "/a:b") := by
    rcases hpaths 1 rfl with ⟨u, hu⟩
    obtain rfl : Uri.component "/a:b" = u := Except.ok.inj hu.path
    exact hu
  have hcontrol : ¬ (outlineWorld "a:b").tree.ControlAbove 1 := by
    rw [(rooted_of_run hrun).controlAbove_iff hrefers.path]
    rintro ⟨ch, hch, hcontrol⟩
    rw [(Text.isGraphic_of_all (by decide) hch).not_control] at hcontrol
    cases hcontrol
  have hmem : 1 ∈ (outlineWorld "a:b").tree.subtree 0 := by
    have hsubtree : (outlineWorld "a:b").tree.subtree 0 = [0, 1] := rfl
    simp [hsubtree]
  refine ⟨hrun, ⟨_, hrefers.path, hrefers.reads_iff.2 hcontrol⟩, ⟨_, _, rfl, ?_⟩, _, _, rfl, ?_⟩
  · rcases hcreate (groupCall "c") _ _ rfl with ⟨u, hu, hcarries⟩
    exact ⟨u, hu.path, (hcarries u).2 rfl⟩
  · rcases hlist ⟨0, "list_tree", Frame.empty⟩ _ _ rfl with ⟨-, hcarries⟩
    exact (hcarries _).2 ⟨1, hmem, hrefers⟩

/-- A component with a control character in its name, which a tree accepts: its path is not read
from its text. -/
theorem not_parse_pathOf_outlineWorld :
    Run rootAlone (outlineWorld "a\x7f") ∧ (outlineWorld "a\x7f").tree.contains 1 = true ∧
      (outlineWorld "a\x7f").tree.pathOf 1 = .ok (.component "/a\x7f") ∧
      Uri.parse (Uri.component "/a\x7f").text =
        .error (.format "path" "cpath:/a\x7f" "a URI may not contain whitespace") :=
  ⟨outlineWorld_run _, rfl, rfl, rfl⟩

end World
end SignalTree
