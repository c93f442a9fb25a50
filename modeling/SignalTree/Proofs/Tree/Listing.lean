import SignalTree.Proofs.Result
import SignalTree.Proofs.Tree.Removal
import SignalTree.Tree.Outline

/-!
# Listing — a subtree as a frame and as an outline

The frame of a component holds the frames of its children, and these hold those of their own.  Read
depth first it is a list of rows, one for each component of the subtree and in the same order as
the subtree is walked.  So are the lines of the outline, each as deep as its component stands below
the first one.

* `Frame.rows`: the rows of a frame, read depth first;
* `Tree.Describes`, `Tree.Outlines`: what a row, and what a line, has to be;
* `Grown.exists_rows_frameFrom`, `Grown.exists_lines_renderFrom`: the walks, level by level;
* `World.listing_of_course`: the frame and the outline of every component, after every course.
-/

namespace SignalTree

variable {σ η : Type}

/-! ## Rows -/

/-- What a frame says about one component. -/
structure Frame.Row where
  /-- The key under which the frame stands among the children of another one. -/
  key : Option String
  name : String
  type : String
  path : Uri

/-- What a frame says about its own component. -/
def Frame.row? (f : Frame) (key : Option String) : Option Frame.Row :=
  match f.value "name", f.value "type", f.value "path" with
  | .ok (.scalar (.string name)), .ok (.scalar (.string type)), .ok (.scalar (.path u)) =>
    some ⟨key, name, type, u⟩
  | _, _, _ => none

mutual

/-- What a frame says, read depth first: about its own component, then about those below. -/
def Frame.rows (key : Option String) : Frame → Option (List Frame.Row)
  | ⟨description, tier, entries⟩ => do
    let row ← Frame.row? ⟨description, tier, entries⟩ key
    let below ← Entry.rowsUnderChildren entries
    return row :: below

/-- The rows of the entry under `children`. -/
def Entry.rowsUnderChildren : List (String × Entry) → Option (List Frame.Row)
  | [] => none
  | (key, e) :: rest => if key = "children" then e.rowsBelow else Entry.rowsUnderChildren rest

/-- The rows of a frame of children.  No key stands twice in it. -/
def Entry.rowsBelow : Entry → Option (List Frame.Row)
  | .frame ⟨_, _, entries⟩ =>
    if Keyed.Distinct entries then Entry.rowsOfChildren entries else none
  | .value _ _ => none

/-- The rows of the frames of some children, one after the other. -/
def Entry.rowsOfChildren : List (String × Entry) → Option (List Frame.Row)
  | [] => some []
  | (key, .frame f) :: rest => do
    let first ← f.rows (some key)
    let others ← Entry.rowsOfChildren rest
    return first ++ others
  | (_, .value _ _) :: _ => none

end

/-- The frame of a component with the frames of its children. -/
def Frame.ofComponent (name type : String) (u : Uri) (children : List (String × Frame)) : Frame :=
  ⟨"", none, [
    ("name", .value (.ofString name) .none),
    ("type", .value (.ofString type) .none),
    ("path", .value (.ofUri u) .none),
    ("children", .frame ⟨"", none, children.map fun p => (p.1, .frame p.2)⟩)]⟩

/-- It lists the component, and then what the frames of the children list. -/
theorem Frame.rows_ofComponent {key : Option String} {name type : String} {u : Uri}
    {children : List (String × Frame)} {below : List Frame.Row}
    (hdistinct : Keyed.Distinct children)
    (hrows : Entry.rowsOfChildren (children.map fun p => (p.1, .frame p.2)) = some below) :
    (ofComponent name type u children).rows key = some (⟨key, name, type, u⟩ :: below) := by
  have hkeys : Keyed.Distinct (children.map fun p => (p.1, Entry.frame p.2)) := by
    simpa [Keyed.Distinct, Keyed.keys, Function.comp_def] using hdistinct
  have hrow : (ofComponent name type u children).row? key = some ⟨key, name, type, u⟩ := rfl
  rw [ofComponent] at hrow ⊢
  rw [rows, hrow]
  simp [Entry.rowsUnderChildren, Entry.rowsBelow, hkeys, hrows]

namespace Tree

variable {t : Tree σ η} {id k top : NodeId} {c : Component σ η}

/-- A row tells the name, the type and the path of a component.  Only that of the first component
stands under no key; the others stand under their names.  The path, as text, leads to the
component. -/
def Describes (t : Tree σ η) (top : NodeId) (key : Option String) (k : NodeId)
    (row : Frame.Row) : Prop :=
  ∃ c u, t.get? k = some c ∧ t.pathOf k = .ok u ∧
    row = ⟨if k = top then key else some c.name, c.name, c.type, u⟩ ∧
    ∀ origin, t.resolve origin u.text = .ok k

/-- A line is that of a component, so many levels deeper than `depth` as it stands below `top`. -/
def Outlines (t : Tree σ η) (top : NodeId) (depth : Nat) (k : NodeId) (line : String) : Prop :=
  ∃ c n, t.get? k = some c ∧ t.climb n k = some top ∧ line = outlineLine (depth + n) c

/-- A walk lists a component and then what is below its children. -/
theorem collect_eq_cons (hc : t.get? id = some c) (fuel : Nat) :
    t.collect (fuel + 1) id = id :: c.children.flatMap fun p => t.collect fuel p.2 := by
  simp [collect, hc]

namespace Grown

/-- A child is there, under its name. -/
theorem child_spec (h : t.Grown) (hc : t.get? id = some c) {p : String × NodeId}
    (hp : p ∈ c.children) :
    ∃ d, t.get? p.2 = some d ∧ d.name = p.1 ∧ t.parent? p.2 = some id := by
  rcases h.child_live id c p.1 p.2 hc hp with ⟨d, hd, hparent, hname⟩
  exact ⟨d, hd, hname, parent?_eq_some_iff.2 ⟨d, hd, hparent⟩⟩

/-- Below a child everything but the child itself stands under its name, and the child does too. -/
theorem describes_of_child (h : t.Grown) (hc : t.get? id = some c) {p : String × NodeId}
    (hp : p ∈ c.children) {fuel : Nat} {row : Frame.Row} (key : Option String)
    (hk : k ∈ t.collect fuel p.2) (hrow : t.Describes p.2 (some p.1) k row) :
    t.Describes id key k row := by
  rcases hrow with ⟨d, u, hd, hu, rfl, hresolve⟩
  rcases h.child_spec hc hp with ⟨d', hd', hname, hparent⟩
  have hne : k ≠ id := by
    rintro rfl
    rcases h.mem_collect_iff.1 hk with ⟨n, _, hclimb⟩
    exact absurd (h.climb_le hclimb) (not_le.2 (h.parent_lt hparent))
  refine ⟨d, u, hd, hu, ?_, hresolve⟩
  by_cases hkp : k = p.2
  · obtain rfl : d = d' := Option.some.inj (hd.symm.trans (hkp ▸ hd'))
    have hchild : p.2 ≠ id := hkp ▸ hne
    simp [hkp, hchild, hname]
  · simp [hne, hkp]

/-- A line below a child is a line of the whole outline. -/
theorem outlines_of_child (h : t.Grown) (hc : t.get? id = some c) {p : String × NodeId}
    (hp : p ∈ c.children) {depth : Nat} {line : String}
    (hline : t.Outlines p.2 (depth + 1) k line) : t.Outlines id depth k line := by
  rcases hline with ⟨d, n, hd, hclimb, rfl⟩
  rcases h.child_spec hc hp with ⟨_, _, _, hparent⟩
  exact ⟨d, n + 1, hd, climb_succ_eq_some_iff.2 ⟨p.2, hclimb, hparent⟩,
    by rw [Nat.add_assoc, Nat.add_comm 1 n]⟩

end Grown

/-! ## The walks -/

section Children

variable {R : NodeId → Frame.Row → Prop} {S : NodeId → String → Prop} {fuel depth : Nat}
  {children : List (String × NodeId)}

/-- The frames of some children, put together, list what the frames list one by one. -/
theorem exists_rows_children
    (h : ∀ p ∈ children, ∃ f rows, t.frameFrom fuel p.2 = .ok f ∧
      f.rows (some p.1) = some rows ∧ List.Forall₂ R (t.collect fuel p.2) rows) :
    ∃ frames rows,
      (children.mapM fun p => do return (p.1, ← t.frameFrom fuel p.2)) = .ok frames ∧
      Keyed.keys frames = Keyed.keys children ∧
      Entry.rowsOfChildren (frames.map fun p => (p.1, .frame p.2)) = some rows ∧
      List.Forall₂ R (children.flatMap fun p => t.collect fuel p.2) rows := by
  induction children with
  | nil => exact ⟨[], [], rfl, rfl, rfl, List.Forall₂.nil⟩
  | cons p rest ih =>
    rcases List.forall_mem_cons.1 h with ⟨⟨f, first, hf, hfirst, hR⟩, hrest⟩
    rcases ih hrest with ⟨frames, others, hframes, hkeys, hothers, hRs⟩
    refine ⟨(p.1, f) :: frames, first ++ others, ?_, ?_, ?_, ?_⟩
    · rw [List.mapM_cons, hframes, hf]
      rfl
    · exact congrArg (p.1 :: ·) hkeys
    · rw [List.map_cons, Entry.rowsOfChildren, hfirst, hothers]
      rfl
    · rw [List.flatMap_cons]
      exact List.rel_append hR hRs

/-- The same for their outlines. -/
theorem exists_lines_children
    (h : ∀ p ∈ children, ∃ lines, t.renderFrom fuel depth p.2 = String.join lines ∧
      List.Forall₂ S (t.collect fuel p.2) lines) :
    ∃ lines, String.join (children.map fun p => t.renderFrom fuel depth p.2) = String.join lines ∧
      List.Forall₂ S (children.flatMap fun p => t.collect fuel p.2) lines := by
  induction children with
  | nil => exact ⟨[], rfl, List.Forall₂.nil⟩
  | cons p rest ih =>
    rcases List.forall_mem_cons.1 h with ⟨⟨first, hfirst, hS⟩, hrest⟩
    rcases ih hrest with ⟨others, hothers, hSs⟩
    refine ⟨first ++ others, ?_, ?_⟩
    · rw [List.map_cons, String.join_cons, String.join_append, hfirst, hothers]
    · rw [List.flatMap_cons]
      exact List.rel_append hS hSs

end Children

/-- What the walk puts together for a component is made of the frames of its children. -/
theorem frameFrom_eq_ok {fuel : Nat} {u : Uri} {frames : List (String × Frame)}
    (hc : t.get? id = some c) (hu : t.pathOf id = .ok u)
    (hframes : (c.children.mapM fun p => do return (p.1, ← t.frameFrom fuel p.2)) = .ok frames) :
    t.frameFrom (fuel + 1) id = .ok (.ofComponent c.name c.type u frames) := by
  rw [frameFrom, component_eq_ok_iff.2 hc, hu]
  simp only [bind, Except.bind] at hframes ⊢
  rw [hframes]
  rfl

namespace Grown

/-- The frame of a component lists its subtree, if no component stands deeper than the walk goes. -/
theorem exists_rows_frameFrom (h : t.Grown) (hr : t.Rooted) {fuel : Nat} (key : Option String)
    (hid : t.contains id = true) (hdepth : ∀ k n, t.climb n k = some id → k ∈ t.ids → n < fuel) :
    ∃ f rows, t.frameFrom fuel id = .ok f ∧ f.rows key = some rows ∧
      List.Forall₂ (t.Describes id key) (t.collect fuel id) rows := by
  -- the walk goes one level down for each parent on the way up
  induction fuel generalizing id key with
  | zero => exact absurd (hdepth id 0 rfl (mem_ids_iff.2 (contains_iff.1 hid))) (Nat.not_lt_zero 0)
  | succ fuel ih =>
    rcases contains_iff.1 hid with ⟨c, hc⟩
    rcases hr.resolve_pathOf hid with ⟨u, hu, hresolve⟩
    have hbelow : ∀ p ∈ c.children, ∃ f rows, t.frameFrom fuel p.2 = .ok f ∧
        f.rows (some p.1) = some rows ∧
        List.Forall₂ (t.Describes id key) (t.collect fuel p.2) rows := by
      intro p hp
      rcases h.child_spec hc hp with ⟨d, hd, _, hparent⟩
      -- what is below the child stands one level deeper below its parent
      have hshallow : ∀ k n, t.climb n k = some p.2 → k ∈ t.ids → n < fuel := by
        intro k n hclimb hk
        have hover : t.climb (n + 1) k = some id := climb_succ_eq_some_iff.2 ⟨p.2, hclimb, hparent⟩
        exact Nat.lt_of_succ_lt_succ (hdepth k (n + 1) hover hk)
      rcases ih (some p.1) (contains_iff.2 ⟨d, hd⟩) hshallow with ⟨f, rows, hf, hrows, hall⟩
      refine ⟨f, rows, hf, hrows, ?_⟩
      have hmem : List.Forall₂ (fun k row => k ∈ t.collect fuel p.2 ∧
          t.Describes p.2 (some p.1) k row) (t.collect fuel p.2) rows :=
        (List.forall₂_and_left _ _).2 ⟨fun _ hk => hk, hall⟩
      exact hmem.imp fun k row hrow => h.describes_of_child hc hp key hrow.1 hrow.2
    rcases exists_rows_children hbelow with ⟨frames, rows, hframes, hkeys, hrows, hall⟩
    have hdistinct : Keyed.Distinct frames := by
      rw [Keyed.Distinct, hkeys]
      exact h.names_distinct id c hc
    refine ⟨.ofComponent c.name c.type u frames, ⟨key, c.name, c.type, u⟩ :: rows,
      frameFrom_eq_ok hc hu hframes, Frame.rows_ofComponent hdistinct hrows, ?_⟩
    rw [collect_eq_cons hc]
    exact List.Forall₂.cons ⟨c, u, hc, hu, by rw [if_pos rfl], hresolve⟩ hall

/-- The outline of a component has a line for each component of its subtree. -/
theorem exists_lines_renderFrom (h : t.Grown) {fuel : Nat} (depth : Nat)
    (hid : t.contains id = true) :
    ∃ lines, t.renderFrom fuel depth id = String.join lines ∧
      List.Forall₂ (t.Outlines id depth) (t.collect fuel id) lines := by
  induction fuel generalizing id depth with
  | zero => exact ⟨[], rfl, List.Forall₂.nil⟩
  | succ fuel ih =>
    rcases contains_iff.1 hid with ⟨c, hc⟩
    have hbelow : ∀ p ∈ c.children, ∃ lines, t.renderFrom fuel (depth + 1) p.2 = String.join lines ∧
        List.Forall₂ (t.Outlines id depth) (t.collect fuel p.2) lines := by
      intro p hp
      rcases h.child_spec hc hp with ⟨d, hd, _, _⟩
      rcases ih (depth + 1) (contains_iff.2 ⟨d, hd⟩) with ⟨lines, hlines, hall⟩
      exact ⟨lines, hlines, hall.imp fun _ _ => h.outlines_of_child hc hp⟩
    rcases exists_lines_children hbelow with ⟨lines, hlines, hall⟩
    refine ⟨outlineLine depth c :: lines, ?_, ?_⟩
    · rw [renderFrom, hc, String.join_cons, ← hlines]
    · rw [collect_eq_cons hc]
      exact List.Forall₂.cons ⟨c, 0, hc, rfl, rfl⟩ hall

end Grown
end Tree

/-! ## Courses -/

namespace World

variable {w : World σ η}

/-- After every course the frame of a component, which `list_tree` replies, lists its subtree: read
depth first it has a row for each component from which there is a way up to it, once and in the
order of the walk.  Each row tells the name, the type and the path of its component, and the path
leads there.  The outline has a line for each of them, in the same order. -/
theorem listing_of_course {rootName : String} {registry : Registry σ η} {env : Env σ}
    (hregistry : registry.Bare) (h : Course AddsBare ⟨Tree.new rootName registry, env⟩ w)
    {id : NodeId} (hid : w.tree.contains id = true) :
    (w.tree.subtree id).Nodup ∧
    (∀ k, k ∈ w.tree.subtree id ↔
      w.tree.contains k = true ∧ ∃ n, w.tree.climb n k = some id) ∧
    (∃ f rows, w.tree.toFrame id = .ok f ∧
      (∀ name arguments, w.runBuiltin .listTree ⟨id, name, arguments⟩ = (.ok (some f), w)) ∧
      f.rows none = some rows ∧
      List.Forall₂ (w.tree.Describes id none) (w.tree.subtree id) rows) ∧
    ∃ lines, w.tree.render id = String.join lines ∧
      List.Forall₂ (w.tree.Outlines id 0) (w.tree.subtree id) lines := by
  have hgrown : w.tree.Grown := (h.direct (.new rootName hregistry)).grown
  have hrooted : w.tree.Rooted := h.rooted (.new rootName registry)
  have hdepth : ∀ k n, w.tree.climb n k = some id → k ∈ w.tree.ids → n < w.tree.size + 1 :=
    fun k n hclimb hk => (hgrown.climb_lt_size hk hclimb).trans (Nat.lt_succ_self _)
  refine ⟨hgrown.subtree_nodup id, ?_, ?_, ?_⟩
  · intro k
    rw [hgrown.mem_subtree_iff, Tree.contains_iff, Tree.mem_ids_iff]
  · rcases hgrown.exists_rows_frameFrom hrooted none hid hdepth with ⟨f, rows, hf, hrows, hall⟩
    refine ⟨f, rows, hf, ?_, hrows, ?_⟩
    · intro name arguments
      have hframe : w.tree.toFrame id = .ok f := hf
      simp only [runBuiltin, hframe, Except.map]
    · rw [Tree.subtree_eq hid]
      exact hall
  · rw [Tree.subtree_eq hid]
    exact hgrown.exists_lines_renderFrom 0 hid

/-- A branch is listed from its first component on. -/
theorem listing_branchWorld :
    (Registry.standard : Registry Unit Unit).Bare ∧ Course AddsBare rootAlone branchWorld ∧
      branchWorld.tree.contains 1 = true ∧
      (∃ f, branchWorld.runBuiltin .listTree ⟨1, "list_tree", Frame.empty⟩ =
          (.ok (some f), branchWorld) ∧
        f.rows none = some [⟨none, "a", "Group", .component "/a"⟩,
          ⟨some "b", "b", "Group", .component "/a/b"⟩]) ∧
      branchWorld.tree.render 1 = String.join ["a (Group)\n", "  b (Group)\n"] := by
  have hcourse : Course AddsBare rootAlone branchWorld :=
    Course.performAll (by simp [branchActions, Action.Direct])
  have hlive : branchWorld.tree.contains 1 = true := rfl
  have hsubtree : branchWorld.tree.subtree 1 = [1, 2] := rfl
  rcases listing_of_course Registry.bare_standard hcourse hlive with
    ⟨-, -, ⟨f, rows, -, hreply, hrows, hall⟩, lines, hrender, hlines⟩
  refine ⟨Registry.bare_standard, hcourse, hlive, ⟨f, hreply _ _, ?_⟩, ?_⟩
  · rw [hsubtree] at hall
    rcases hall with _ | ⟨⟨a, u, ha, hu, rfl, -⟩, _ | ⟨⟨b, v, hb, hv, rfl, -⟩, _ | _⟩⟩
    obtain rfl := Option.some.inj ha
    obtain rfl := Option.some.inj hb
    obtain rfl : Uri.component "/a" = u := Except.ok.inj hu
    obtain rfl : Uri.component "/a/b" = v := Except.ok.inj hv
    exact hrows
  · have hgrown : branchWorld.tree.Grown :=
      (hcourse.direct (.new "Root" Registry.bare_standard)).grown
    rw [hsubtree] at hlines
    rcases hlines with _ | ⟨⟨a, m, ha, hm, rfl⟩, _ | ⟨⟨b, n, hb, hn, rfl⟩, _ | _⟩⟩
    obtain rfl := Option.some.inj ha
    obtain rfl := Option.some.inj hb
    obtain rfl : m = 0 := hgrown.climb_length_unique hm rfl
    obtain rfl : n = 1 := hgrown.climb_length_unique hn rfl
    exact hrender

end World
end SignalTree
