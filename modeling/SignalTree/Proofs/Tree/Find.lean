import SignalTree.Proofs.Tree.Address

/-!
# Find — component paths without their scheme

Finding a component path drops the scheme and resolves the rest, and resolving looks for a scheme
once more.  A path that holds a colon of its own is therefore read twice: what stands before the
colon counts as a scheme.

* `Tree.ColonAbove`: a component or one above it has a colon in its name;
* `find_eq_ok_iff`: what a component path leads to when it is found;
* `World.find_iff_of_run`: when finding agrees with the paths of the components, and with resolving.
-/

namespace SignalTree

variable {σ η : Type}

namespace Tree

variable {t : Tree σ η} {id k : NodeId} {names : List String} {u : Uri}

/-- The component, or one above it but the root, has a colon in its name. -/
def ColonAbove (t : Tree σ η) (id : NodeId) : Prop :=
  ∃ n a c, t.climb n id = some a ∧ a ≠ t.root ∧ t.get? a = some c ∧ ':' ∈ c.name.toList

/-- The names of a component are its own and those of the components above it. -/
theorem Names.mem_iff (h : t.Names k names) (n : String) :
    n ∈ names ↔ ∃ m a c, t.climb m k = some a ∧ a ≠ t.root ∧ t.get? a = some c ∧ c.name = n := by
  induction h with
  | @root r hr horphan =>
    have hparent : t.parent? t.root = none := by simp [parent?, hr, horphan]
    apply iff_of_false (by simp)
    rintro ⟨m, a, c, hclimb, hne, _⟩
    cases m with
    | zero => exact hne (Option.some.inj hclimb).symm
    | succ m => simp [climb, hparent] at hclimb
  | @child p k pc c names _ _ _ hc hne hp _ _ ih =>
    have hparent : t.parent? k = some p := parent?_eq_some_iff.2 ⟨c, hc, hp⟩
    rw [List.mem_append, List.mem_singleton, ih]
    constructor
    · rintro (⟨m, a, d, hclimb, hrest⟩ | rfl)
      · exact ⟨m + 1, a, d, by simpa [climb, hparent] using hclimb, hrest⟩
      · exact ⟨0, k, c, rfl, hne, hc, rfl⟩
    · rintro ⟨m, a, d, hclimb, hna, hd, hname⟩
      cases m with
      | zero =>
        right
        have hak : k = a := Option.some.inj hclimb
        rw [← hak, hc] at hd
        rw [← hname, Option.some.inj hd]
      | succ m =>
        left
        exact ⟨m, a, d, by simpa [climb, hparent] using hclimb, hna, hd, hname⟩

/-- What stands in a path besides slashes stands in the name of the component or of one above it. -/
theorem Names.mem_path_iff (h : t.Names k names) {ch : Char} (hch : ch ≠ '/') :
    ch ∈ ("/" ++ "/".intercalate names).toList ↔
      ∃ n a c, t.climb n k = some a ∧ a ≠ t.root ∧ t.get? a = some c ∧ ch ∈ c.name.toList := by
  have hpath : ch ∈ ("/" ++ "/".intercalate names).toList ↔
      ch ∈ ("/".intercalate names).toList := by simp [hch]
  rw [hpath, mem_intercalate_iff hch]
  constructor
  · rintro ⟨n, hn, hmem⟩
    rcases (h.mem_iff n).1 hn with ⟨m, a, c, hclimb, hne, hc, rfl⟩
    exact ⟨m, a, c, hclimb, hne, hc, hmem⟩
  · rintro ⟨m, a, c, hclimb, hne, hc, hmem⟩
    exact ⟨c.name, (h.mem_iff c.name).2 ⟨m, a, c, hclimb, hne, hc, rfl⟩, hmem⟩

/-- A path holds a colon if one of its names does. -/
theorem Names.colon_iff (h : t.Names k names) :
    ':' ∈ ("/" ++ "/".intercalate names).toList ↔ t.ColonAbove k :=
  h.mem_path_iff (by decide)

/-! ## Finding -/

/-- What a component path leads to when it is found. -/
theorem find_eq_ok_iff (hu : u.isComponent = true)
    (hblank : ∀ c ∈ u.path.toList, Text.isBlank c = false) :
    t.find u = .ok k ↔ (':' ∉ u.path.toList ∧ t.Route t.root u.path.toList k) ∨
      ∃ rest, u.path.toList = Uri.componentScheme.toList ++ ':' :: rest ∧
        t.Route t.root rest k := by
  have hfind : t.find u = t.resolve t.root u.path := by simp [find, hu]
  rw [hfind, resolve_eq_ok_iff_route]
  simp only [pathBody_eq_some_iff, Text.trim_of_no_blank hblank]
  constructor
  · rintro ⟨body, ⟨hcolon, rfl⟩ | hpath, hroute⟩
    · exact Or.inl ⟨hcolon, hroute⟩
    · exact Or.inr ⟨body, hpath, hroute⟩
  · rintro (⟨hcolon, hroute⟩ | ⟨rest, hpath, hroute⟩)
    · exact ⟨_, Or.inl ⟨hcolon, rfl⟩, hroute⟩
    · exact ⟨rest, Or.inr hpath, hroute⟩

/-- A path with a slash in front and a colon in it is not found. -/
theorem find_eq_notFound (hu : u.isComponent = true)
    (hblank : ∀ c ∈ u.path.toList, Text.isBlank c = false)
    (hslash : u.path.toList.head? = some '/') (hcolon : ':' ∈ u.path.toList) :
    t.find u = .error (.notFound u.path) := by
  have hbody : pathBody u.path = none := by
    cases hbody : pathBody u.path with
    | none => rfl
    | some body =>
      rw [pathBody_eq_some_iff, Text.trim_of_no_blank hblank] at hbody
      rcases hbody with ⟨hnone, _⟩ | hpath
      · exact absurd hcolon hnone
      · rw [hpath] at hslash
        exact absurd hslash (by simp [Uri.componentScheme])
  simp [find, hu, resolve, hbody]

/-- The path of a component is found if no name on the way holds a colon, and else it is not. -/
theorem Names.find_pathOf (h : t.Names k names) :
    (¬ t.ColonAbove k → t.find (.component ("/" ++ "/".intercalate names)) = .ok k) ∧
      (t.ColonAbove k → t.find (.component ("/" ++ "/".intercalate names)) =
        .error (.notFound ("/" ++ "/".intercalate names))) := by
  rw [← h.colon_iff]
  constructor
  · intro hcolon
    exact (find_eq_ok_iff rfl h.not_blank).2 (Or.inl ⟨hcolon, h.route t.root⟩)
  · intro hcolon
    exact find_eq_notFound rfl h.not_blank (by simp [Uri.component]) hcolon

/-- Finding a component path agrees with resolving its text exactly if a colon in the path, where
there is one, changes nothing: it is led to the same component with what stands before the colon
as a name and as a scheme. -/
theorem find_iff_resolve_iff (hu : u.isComponent = true)
    (hblank : ∀ c ∈ u.path.toList, Text.isBlank c = false) :
    (∀ k, t.find u = .ok k ↔ t.resolve t.root u.text = .ok k) ↔
      (':' ∈ u.path.toList → ∀ k, t.Route t.root u.path.toList k ↔
        ∃ rest, u.path.toList = Uri.componentScheme.toList ++ ':' :: rest ∧
          t.Route t.root rest k) := by
  simp only [find_eq_ok_iff hu hblank, resolve_text_eq_ok_iff hu hblank]
  by_cases hcolon : ':' ∈ u.path.toList
  · simp only [hcolon, not_true_eq_false, false_and, false_or, forall_const]
    exact forall_congr' fun k => iff_comm
  · have hscheme : ∀ rest, u.path.toList ≠ Uri.componentScheme.toList ++ ':' :: rest := by
      intro rest heq
      rw [heq] at hcolon
      exact hcolon (by simp)
    simp [hcolon, hscheme]

theorem contains_of_pathOf (h : t.pathOf id = .ok u) : t.contains id = true := by
  cases hget : t.get? id with
  | some c => exact contains_iff.2 ⟨c, hget⟩
  | none =>
    have hancestry : t.ancestry t.size id = .error removed := by
      cases t.size with
      | zero => rfl
      | succ fuel => simp [ancestry, component, hget, bind, Except.bind]
    simp [pathOf, hancestry, bind, Except.bind] at h

end Tree

/-! ## Runs -/

namespace World

variable {w : World σ η}

/-- The references that a program can come by: those that it reads, and the paths of components,
at any time and in any tree. -/
def Obtainable (σ η : Type) (u : Uri) : Prop :=
  u.IsParsed ∨ ∃ (rootName : String) (registry : Registry σ η) (env : Env σ) (v : World σ η)
    (id : NodeId), Run ⟨Tree.new rootName registry, env⟩ v ∧ v.tree.pathOf id = .ok u

theorem Obtainable.not_blank {u : Uri} (h : Obtainable σ η u) :
    ∀ c ∈ u.path.toList, Text.isBlank c = false := by
  rcases h with hparsed | ⟨rootName, registry, env, v, id, hrun, hpath⟩
  · intro c hc
    apply hparsed.not_blank_of_mem_text
    cases hscheme : u.scheme <;> simp [Uri.text, hscheme, hc]
  · rcases (rooted_of_run hrun).exists_names (Tree.contains_of_pathOf hpath) with ⟨names, hnames⟩
    rw [hnames.pathOf_eq] at hpath
    rw [← Except.ok.inj hpath]
    exact hnames.not_blank

/-- After every run the path of a component is found if no name on the way holds a colon, and not
found otherwise; and finding a component path agrees with resolving its text exactly if a colon in
the path, where there is one, leads to the same as it does when it is read as the end of a
scheme. -/
theorem find_iff_of_run {rootName : String} {registry : Registry σ η} {env : Env σ}
    (hrun : Run ⟨Tree.new rootName registry, env⟩ w) :
    (∀ id, w.tree.contains id = true → ∃ u, w.tree.pathOf id = .ok u ∧
      (w.tree.find u = .ok id ↔ ¬ w.tree.ColonAbove id) ∧
      (w.tree.ColonAbove id → w.tree.find u = .error (.notFound u.path))) ∧
    ∀ u, u.isComponent = true → Obtainable σ η u →
      ((∀ id, w.tree.find u = .ok id ↔ w.tree.resolve w.tree.root u.text = .ok id) ↔
        (':' ∈ u.path.toList → ∀ id, w.tree.Route w.tree.root u.path.toList id ↔
          ∃ rest, u.path.toList = Uri.componentScheme.toList ++ ':' :: rest ∧
            w.tree.Route w.tree.root rest id)) := by
  constructor
  · intro id hid
    rcases (rooted_of_run hrun).exists_names hid with ⟨names, hnames⟩
    rcases hnames.find_pathOf with ⟨hfound, hlost⟩
    refine ⟨_, hnames.pathOf_eq, ⟨?_, hfound⟩, hlost⟩
    intro hfind hcolon
    rw [hlost hcolon] at hfind
    cases hfind
  · intro u hu hobtains
    exact Tree.find_iff_resolve_iff hu hobtains.not_blank

theorem find_colonWorld :
    Run rootAlone colonWorld ∧ colonWorld.tree.find (.component "/plain") = .ok 3 ∧
      ∀ id, colonWorld.tree.find (.component "/plain/..") = .ok id ↔
        colonWorld.tree.resolve 0 "cpath:/plain/.." = .ok id := by
  have h := find_iff_of_run colonWorld_run
  have hplain : ¬ colonWorld.tree.ColonAbove 3 := by
    rintro ⟨n, a, c, hclimb, hne, hc, hcolon⟩
    have hparent : colonWorld.tree.parent? 3 = some 0 := rfl
    have hroot : colonWorld.tree.parent? 0 = none := rfl
    match n with
    | 0 =>
      have ha : 3 = a := Option.some.inj hclimb
      subst ha
      rw [← Option.some.inj hc] at hcolon
      revert hcolon
      decide
    | 1 =>
      rw [Tree.climb_one, hparent] at hclimb
      exact hne (Option.some.inj hclimb).symm
    | n + 2 => simp [Tree.climb, hparent, hroot] at hclimb
  rcases h.1 3 rfl with ⟨u, hu, hfind, _⟩
  have hpath : .component "/plain" = u := Except.ok.inj hu
  rw [← hpath] at hfind
  refine ⟨colonWorld_run, hfind.2 hplain, ?_⟩
  refine (h.2 (.component "/plain/..") rfl (Or.inl ⟨"cpath:/plain/..", rfl⟩)).2 ?_
  intro hcolon
  exact absurd hcolon (by decide)

/-- A component whose path is resolved to it and not found, since its name holds a colon. -/
theorem not_find_colonWorld :
    Run rootAlone colonWorld ∧ colonWorld.tree.contains 2 = true ∧
      colonWorld.tree.pathOf 2 = .ok (.component "/a:b") ∧
      colonWorld.tree.resolve colonWorld.tree.root (Uri.component "/a:b").text = .ok 2 ∧
      colonWorld.tree.find (.component "/a:b") = .error (.notFound "/a:b") :=
  ⟨colonWorld_run, rfl, rfl, rfl, rfl⟩

end World
end SignalTree
