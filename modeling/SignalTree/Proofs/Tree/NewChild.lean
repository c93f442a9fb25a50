import SignalTree.Proofs.Tree.Label

/-!
# NewChild — when a component gets a child, and what is new then

A creation looks for the builder of the type, checks the name, looks for the parent, looks into its
table and builds.  Each of these may refuse, in this order, and a refusal leaves the tree as it was.
What comes then cannot fail any more, although the child is put into the tree before the parent
hears of it.

* `World.AddsBare`, `Course.direct`, `Course.next_le`: what a program keeps true that adds bare
  components only;
* `Rooted.pathOf_eq_of_kept`: components that keep their names and parents keep their paths;
* `Tree.BadName`, `World.Denied`: why a creation is refused;
* `Tree.Gains`: what is new in a tree after a creation;
* `World.createChild_of_course`: the two together, after every course.
-/

namespace SignalTree

variable {σ η : Type}

/-! ## Courses that add bare components -/

namespace World

variable {u v w : World σ η}

/-- What comes into the tree is bare. -/
def AddsBare (_ : Tree σ η) (a : Action σ η) : Prop := a.Direct

theorem Attempts.addsBare {call : Call} {b : Builtin} {a : Action σ η} (h : w.Attempts call b a) :
    AddsBare w.tree a := by
  cases h <;> trivial

theorem Course.direct (h : Course AddsBare u v) (hu : u.tree.Direct) : v.tree.Direct :=
  h.keeps (P := Tree.Direct) (fun _ _ _ _ => Attempts.addsBare) (fun _ _ => direct_perform) hu

/-- No identifier is given again. -/
theorem Course.next_le (h : Course AddsBare u v) : u.tree.next ≤ v.tree.next := by
  refine h.keeps (P := fun t => u.tree.next ≤ t.next) (fun _ _ _ _ => Attempts.addsBare) ?_
    (le_refl _)
  exact fun w a _ hle => hle.trans (w.perform_effect a).next_le

/-- Actions carried out one after the other are a course, if what they add is bare. -/
theorem Course.performAll {actions : List (Action σ η)} (hactions : ∀ a ∈ actions, a.Direct) :
    Course AddsBare w (w.performAll actions) := by
  induction actions using List.reverseRecOn with
  | nil => exact .start w
  | append_singleton front a ih =>
    rw [performAll_append]
    exact (ih fun b hb => hactions b (List.mem_append_left _ hb)).act a
      (hactions a (List.mem_append_right _ (List.mem_singleton_self a)))

/-- What has been there is older than what comes next. -/
theorem Course.not_contains_next (h : Course AddsBare v w) (hv : v.tree.Direct) :
    v.tree.contains w.tree.next = false := by
  rw [Bool.eq_false_iff]
  intro hlive
  rcases Tree.contains_iff.1 hlive with ⟨c, hc⟩
  exact absurd (hv.grown.lt_next hc) (not_lt.2 h.next_le)

end World

/-- A bare component as it stands in a tree. -/
theorem Component.Bare.placed_eq {c : Component σ η} (h : c.Bare) (name : String)
    (parent : Option NodeId) (path : String) :
    c.placed name parent path =
      { name, type := c.type, parent
        children := []
        links := []
        options := { c.options with owner := path }
        signals := { c.signals with owner := path } } := by
  rw [placed, h.1, h.2]

namespace Tree

variable {t t' : Tree σ η} {k id parent : NodeId} {name : String} {names names' : List String}
  {c pc : Component σ η}

/-! ## Paths -/

/-- The names down to a component are read off the names and the parents on the way up. -/
theorem Names.eq_of_kept (hroot : t'.root = t.root)
    (hkept : ∀ j c d, t.get? j = some c → t'.get? j = some d →
      d.name = c.name ∧ d.parent = c.parent)
    (h : t.Names k names) (h' : t'.Names k names') : names' = names := by
  induction h generalizing names' with
  | root _ _ =>
    generalize hk : t.root = k at h'
    cases h' with
    | root _ _ => rfl
    | child _ _ _ _ hne _ _ _ => exact absurd (hk.symm.trans hroot.symm) hne
  | child _ _ _ hc hne hp _ _ ih =>
    cases h' with
    | root _ _ => exact absurd hroot hne
    | child hnames' _ _ hd _ hq _ _ =>
      rcases hkept _ _ _ hc hd with ⟨hname, hparent⟩
      obtain rfl := Option.some.inj (hq.symm.trans (hparent.trans hp))
      rw [ih hnames', hname]

/-- Components that keep their names and their parents keep their paths. -/
theorem Rooted.pathOf_eq_of_kept (h : t.Rooted) (h' : t'.Rooted) (hroot : t'.root = t.root)
    (hkept : ∀ j c d, t.get? j = some c → t'.get? j = some d →
      d.name = c.name ∧ d.parent = c.parent)
    (hk : t.contains k = true) (hk' : t'.contains k = true) : t'.pathOf k = t.pathOf k := by
  rcases h.exists_names hk with ⟨names, hnames⟩
  rcases h'.exists_names hk' with ⟨names', hnames'⟩
  rw [hnames.pathOf_eq, hnames'.pathOf_eq, hnames.eq_of_kept hroot hkept hnames']

/-- The path of a live component as text is the text of its path. -/
theorem pathText_of_pathOf {u : Uri} (h : t.pathOf k = .ok u) : t.pathText k = u.text := by
  rw [pathText, h]

/-! ## Names -/

/-- What is wrong with a name. -/
inductive BadName (name : String) : String → Prop where
  | empty (h : name = "") : BadName name "component names may not be empty"
  | slash (h : '/' ∈ name.toList) : BadName name "component names may not contain '/'"
  | dots (h : name = "." ∨ name = "..") : BadName name "'.' and '..' are reserved path segments"
  | blank {c : Char} (hslash : '/' ∉ name.toList) (hc : c ∈ name.toList)
      (h : Text.isBlank c = true) : BadName name "component names may not contain whitespace"

/-- The check of names finds what is wrong. -/
theorem BadName.nameFault_eq {reason : String} (h : BadName name reason) :
    nameFault name = some reason := by
  cases h with
  | empty h => simp [nameFault, h]
  | slash h =>
    have hempty : name ≠ "" := by
      rintro rfl
      cases h
    simp [nameFault, hempty, h]
  | dots h => rcases h with rfl | rfl <;> decide
  | @blank c hslash hc h =>
    have hempty : name ≠ "" := by
      rintro rfl
      cases hc
    have hdots : ¬ (name = "." ∨ name = "..") := by
      intro hdots
      have hdot : c = '.' := by rcases hdots with rfl | rfl <;> simpa using hc
      subst hdot
      exact absurd h (by decide)
    rw [not_or] at hdots
    have hany : ∃ c ∈ name.toList, Text.isBlank c = true := ⟨c, hc, h⟩
    simp [nameFault, hempty, hslash, hdots.1, hdots.2, hany]

/-- A name passes the check if nothing is wrong with it. -/
theorem nameFault_eq_none_iff_forall :
    nameFault name = none ↔ ∀ reason, ¬ BadName name reason := by
  constructor
  · intro hvalid reason hbad
    rw [hbad.nameFault_eq] at hvalid
    cases hvalid
  · intro h
    refine nameFault_eq_none_iff.2 ⟨fun he => h _ (.empty he), fun hs => h _ (.slash hs),
      fun hd => h _ (.dots (Or.inl hd)), fun hd => h _ (.dots (Or.inr hd)), ?_⟩
    intro c hc
    rw [Bool.eq_false_iff]
    exact fun hblank => h _ (.blank (fun hs => h _ (.slash hs)) hc hblank)

theorem component_of_not_contains (h : t.contains id = false) :
    t.component id = .error removed := by
  cases hget : t.get? id with
  | none => simp [component, hget]
  | some c => simp [contains, hget] at h

/-! ## What is new -/

/-- A tree gains a component: it is there under an identifier that was free, its parent has it last
in its table, and nothing else is new. -/
structure Gains (t t' : Tree σ η) (id parent : NodeId) (c : Component σ η) : Prop where
  free : t.get? id = none
  new : t'.get? id = some c
  table : ∃ pc, t.get? parent = some pc ∧
    t'.get? parent = some { pc with children := pc.children ++ [(c.name, id)] }
  others : ∀ k, k ≠ id → k ≠ parent → t'.get? k = t.get? k
  root : t'.root = t.root
  registry : t'.registry = t.registry

theorem Grown.gains_attachTo (h : t.Grown) (hpc : t.get? parent = some pc)
    (hname : pc.child? c.name = none) :
    t.Gains (t.attachTo parent c.name c) t.next parent c where
  free := h.next_free
  new := by rw [h.get?_attachTo_eq hpc hname, if_pos rfl]
  table := by
    refine ⟨pc, hpc, ?_⟩
    rw [h.get?_attachTo_eq hpc hname, if_neg (h.lt_next hpc).ne, if_pos rfl]
  others := by
    intro k hk hp
    rw [h.get?_attachTo_eq hpc hname, if_neg hk, if_neg hp]
  root := rfl
  registry := rfl

namespace Gains

/-- What was there before keeps its name and its parent. -/
theorem kept (h : t.Gains t' id parent c) (k : NodeId) (d d' : Component σ η)
    (hd : t.get? k = some d) (hd' : t'.get? k = some d') :
    d'.name = d.name ∧ d'.parent = d.parent := by
  have hne : k ≠ id := by
    rintro rfl
    rw [h.free] at hd
    cases hd
  by_cases hp : k = parent
  · subst hp
    rcases h.table with ⟨pc, hpc, hpc'⟩
    obtain rfl := Option.some.inj (hpc.symm.trans hd)
    obtain rfl := Option.some.inj (hpc'.symm.trans hd')
    exact ⟨rfl, rfl⟩
  · rw [h.others k hne hp, hd] at hd'
    rw [Option.some.inj hd']
    exact ⟨rfl, rfl⟩

/-- The path of the new component is that of its parent with the name behind it. -/
theorem pathText_eq (h : t.Gains t' id parent c) (ht : t.Rooted) (ht' : t'.Rooted)
    (hparent : c.parent = some parent) : t'.pathText id = t.childPath parent c.name := by
  rcases h.table with ⟨pc, hpc, _⟩
  rcases ht.exists_names (contains_iff.2 ⟨pc, hpc⟩) with ⟨names, hnames⟩
  rcases ht'.exists_names (contains_iff.2 ⟨c, h.new⟩) with ⟨names', hnames'⟩
  rw [hnames'.pathText_eq, childPath, hnames.pathText_eq,
    Plan.join_pathOfNames fun n hn => Plan.isSegment_of_nameFault (hnames.valid n hn)]
  cases hnames' with
  | root hr horphan =>
    obtain rfl := Option.some.inj (hr.symm.trans h.new)
    rw [hparent] at horphan
    cases horphan
  | child hup _ _ hc _ hp _ _ =>
    obtain rfl := Option.some.inj (hc.symm.trans h.new)
    obtain rfl := Option.some.inj (hp.symm.trans hparent)
    rw [hnames.eq_of_kept h.root h.kept hup]

end Gains

/-- A bare component that is attached is new under its path, and labelled by it. -/
theorem Direct.exists_gains (h : t.Direct) (ht : t.Rooted) (hpc : t.get? parent = some pc)
    (hname : pc.child? name = none) (hvalid : nameFault name = none) (hc : c.Bare) :
    ∃ u, t.childPath parent name = u.text ∧
      (t.attachTo parent name (c.placed name (some parent) (t.childPath parent name))).pathOf
        t.next = .ok u ∧
      t.Gains (t.attachTo parent name (c.placed name (some parent) (t.childPath parent name)))
        t.next parent
        { name, type := c.type, parent := some parent
          children := []
          links := []
          options := { c.options with owner := u.text }
          signals := { c.signals with owner := u.text } } := by
  have hgains := h.grown.gains_attachTo
    (c := c.placed name (some parent) (t.childPath parent name)) hpc hname
  have hafter := ht.attachTo (c := c.placed name (some parent) (t.childPath parent name))
    hpc hname hvalid rfl rfl
  rcases hafter.resolve_pathOf (contains_iff.2 ⟨_, hgains.new⟩) with ⟨u, hu, _⟩
  have htext : t.childPath parent name = u.text := by
    rw [← pathText_of_pathOf hu]
    exact (hgains.pathText_eq ht hafter rfl).symm
  refine ⟨u, htext, hu, ?_⟩
  rw [← htext, ← hc.placed_eq name (some parent)]
  exact hgains

end Tree

/-! ## Creations -/

theorem Component.child?_eq_none_of_forall {c : Component σ η} {name : String}
    (h : ∀ k, (name, k) ∉ c.children) : c.child? name = none := by
  cases hchild : c.child? name with
  | none => rfl
  | some k => exact absurd (Keyed.mem_of_lookup_eq_some hchild) (h k)

/-- A type is known, or there is no builder of it. -/
theorem Registry.builder_cases (r : Registry σ η) (type : String) :
    (r.knows type = true ∧ ∃ builder, r.builder type = .ok builder) ∨
      (r.knows type = false ∧ r.builder type = .error (.unknownType type)) := by
  unfold knows Keyed.has builder
  cases r.builders.lookup type with
  | none => exact Or.inr ⟨rfl, rfl⟩
  | some b => exact Or.inl ⟨rfl, b, rfl⟩

theorem Registry.exists_builder {r : Registry σ η} {type : String} (h : r.knows type = true) :
    ∃ builder, r.builder type = .ok builder := by
  rcases r.builder_cases type with ⟨_, hbuilder⟩ | ⟨hunknown, _⟩
  · exact hbuilder
  · rw [h] at hunknown
    cases hunknown

theorem Registry.bare_of_forall {r : Registry σ η}
    (h : ∀ p ∈ r.builders, ∀ name env c env', p.2 name env = (.ok c, env') → c.Bare) : r.Bare := by
  intro type builder name env c env' hbuilder hmade
  unfold Registry.builder at hbuilder
  cases hlookup : r.builders.lookup type with
  | none => simp [hlookup] at hbuilder
  | some b =>
    obtain rfl : b = builder := by simpa [hlookup] using hbuilder
    exact h _ (Keyed.mem_of_lookup_eq_some hlookup) name env c env' hmade

namespace World

variable {w w' : World σ η} {parent id : NodeId} {type name : String}

/-- Why a creation is refused, and the surroundings that are left then.  Of several reasons the
first one counts. -/
inductive Denied (w : World σ η) (parent : NodeId) (type name : String) : Error → Env σ → Prop where
  | unknownType (h : w.tree.registry.knows type = false) :
      Denied w parent type name (.unknownType type) w.env
  | badName {reason : String} (htype : w.tree.registry.knows type = true)
      (h : Tree.BadName name reason) : Denied w parent type name (.badName name reason) w.env
  | noParent (htype : w.tree.registry.knows type = true)
      (hname : ∀ reason, ¬ Tree.BadName name reason) (h : w.tree.contains parent = false) :
      Denied w parent type name Tree.removed w.env
  | nameTaken {pc : Component σ η} {k : NodeId} {u : Uri}
      (htype : w.tree.registry.knows type = true) (hname : ∀ reason, ¬ Tree.BadName name reason)
      (hpc : w.tree.get? parent = some pc) (hu : w.tree.pathOf parent = .ok u)
      (h : (name, k) ∈ pc.children) : Denied w parent type name (.nameTaken u.text name) w.env
  /-- The builder fails, and may have acted on the surroundings before. -/
  | failed {builder : Builder σ η} {pc : Component σ η} {e : Error} {env : Env σ}
      (htype : w.tree.registry.builder type = .ok builder)
      (hname : ∀ reason, ¬ Tree.BadName name reason) (hpc : w.tree.get? parent = some pc)
      (hfree : ∀ k, (name, k) ∉ pc.children) (h : builder name w.env = (.error e, env)) :
      Denied w parent type name e env

/-- A creation that is refused leaves the tree as it is. -/
theorem Denied.createChild_eq {e : Error} {env : Env σ} (h : w.Denied parent type name e env)
    (hw : w.tree.Grown) : w.createChild parent type name = (.error e, { w with env }) := by
  cases h with
  | unknownType h =>
    rcases w.tree.registry.builder_cases type with ⟨hknown, _⟩ | ⟨_, hbuilder⟩
    · rw [h] at hknown
      cases hknown
    · simp only [createChild, hbuilder]
  | badName htype h =>
    rcases Registry.exists_builder htype with ⟨builder, hbuilder⟩
    simp only [createChild, hbuilder, Tree.checkNewChild, h.nameFault_eq]
  | noParent htype hname h =>
    rcases Registry.exists_builder htype with ⟨builder, hbuilder⟩
    simp only [createChild, hbuilder, Tree.checkNewChild, Tree.nameFault_eq_none_iff_forall.2 hname,
      Tree.component_of_not_contains h, bind, Except.bind]
  | @nameTaken pc k u htype hname hpc hu h =>
    rcases Registry.exists_builder htype with ⟨builder, hbuilder⟩
    have htaken : pc.child? name = some k :=
      Keyed.lookup_eq_some_of_mem (hw.names_distinct parent pc hpc) h
    have hcheck := Tree.checkNewChild_eq (Tree.nameFault_eq_none_iff_forall.2 hname) hpc
    simp only [createChild, hbuilder, hcheck, htaken, Option.isSome_some, if_true,
      Tree.pathText_of_pathOf hu]
  | failed htype hname hpc hfree h =>
    have hcheck := Tree.checkNewChild_eq (Tree.nameFault_eq_none_iff_forall.2 hname) hpc
    have hnone := Component.child?_eq_none_of_forall hfree
    simp only [createChild, htype, hcheck, hnone, Option.isSome_none, h]
    rfl

/-- What nothing refuses is made, and attached under the next identifier. -/
theorem createChild_of_made {builder : Builder σ η} {pc made : Component σ η} {env : Env σ}
    (hbuilder : w.tree.registry.builder type = .ok builder) (hvalid : Tree.nameFault name = none)
    (hpc : w.tree.get? parent = some pc) (hfree : pc.child? name = none)
    (hmade : builder name w.env = (.ok made, env)) :
    w.createChild parent type name = (.ok w.tree.next,
      { tree := w.tree.attachTo parent name
          (({ made with type } : Component σ η).placed name (some parent)
            (w.tree.childPath parent name))
        env := env.emit (.componentCreated (w.tree.childPath parent name) type) }) := by
  have hcheck := Tree.checkNewChild_eq hvalid hpc
  simp only [createChild, hbuilder, hcheck, hfree, Option.isSome_none, hmade]
  rfl

/-- If nothing refuses a creation, then there is all that it needs. -/
theorem exists_made_of_not_denied (h : ∀ e env, ¬ w.Denied parent type name e env)
    (hw : w.tree.Rooted) :
    Tree.nameFault name = none ∧ ∃ builder pc made env, w.tree.registry.builder type = .ok builder ∧
      w.tree.get? parent = some pc ∧ pc.child? name = none ∧
      builder name w.env = (.ok made, env) := by
  have hknown : w.tree.registry.knows type = true := by
    by_contra hunknown
    exact h _ _ (.unknownType (Bool.eq_false_iff.2 hunknown))
  have hname : ∀ reason, ¬ Tree.BadName name reason := fun _ hbad => h _ _ (.badName hknown hbad)
  have hlive : w.tree.contains parent = true := by
    by_contra hgone
    exact h _ _ (.noParent hknown hname (Bool.eq_false_iff.2 hgone))
  rcases Registry.exists_builder hknown with ⟨builder, hbuilder⟩
  rcases Tree.contains_iff.1 hlive with ⟨pc, hpc⟩
  have hfree : ∀ k, (name, k) ∉ pc.children := by
    intro k hk
    rcases hw.resolve_pathOf hlive with ⟨u, hu, _⟩
    exact h _ _ (.nameTaken hknown hname hpc hu hk)
  refine ⟨Tree.nameFault_eq_none_iff_forall.2 hname, ?_⟩
  rcases hmade : builder name w.env with ⟨result, env⟩
  cases result with
  | error e => exact absurd (.failed hbuilder hname hpc hfree hmade) (h e env)
  | ok made =>
    exact ⟨builder, pc, made, env, hbuilder, hpc, Component.child?_eq_none_of_forall hfree, hmade⟩

/-- When a child may be created, and what is new then: a creation is refused for the first reason
there is, and leaves the tree as it is.  If there is none, then the tree gains a component under an
identifier that was never given before.  It has the name and the type that were asked for, and the
options and signals that the builder gave it, labelled by its path. -/
theorem createChild_of_course {rootName : String} {registry : Registry σ η} {env : Env σ}
    (hregistry : registry.Bare) (h : Course AddsBare ⟨Tree.new rootName registry, env⟩ w)
    (parent : NodeId) (type name : String) :
    (∀ e env', w.Denied parent type name e env' →
      w.createChild parent type name = (.error e, { w with env := env' })) ∧
    ((∀ e env', ¬ w.Denied parent type name e env') →
      ∃ id builder made env' u w', w.createChild parent type name = (.ok id, w') ∧
        (∀ v, Course AddsBare ⟨Tree.new rootName registry, env⟩ v → Course AddsBare v w →
          v.tree.contains id = false) ∧
        w.tree.registry.builder type = .ok builder ∧ builder name w.env = (.ok made, env') ∧
        w'.tree.pathOf id = .ok u ∧ w'.env = env'.emit (.componentCreated u.text type) ∧
        w.tree.Gains w'.tree id parent
          { name, type
            parent := some parent
            children := []
            links := []
            options := { made.options with owner := u.text }
            signals := { made.signals with owner := u.text } }) := by
  have hstart : (Tree.new rootName registry).Direct := .new rootName hregistry
  have hdirect : w.tree.Direct := h.direct hstart
  have hrooted : w.tree.Rooted := h.rooted (.new rootName registry)
  refine ⟨fun e env' hdenied => hdenied.createChild_eq hdirect.grown, ?_⟩
  intro hfree
  rcases exists_made_of_not_denied hfree hrooted with
    ⟨hvalid, builder, pc, made, env', hbuilder, hpc, hnone, hmade⟩
  have hbare : ({ made with type } : Component σ η).Bare :=
    hdirect.builders_bare type builder name w.env made env' hbuilder hmade
  rcases hdirect.exists_gains hrooted hpc hnone hvalid hbare with ⟨u, htext, hu, hgains⟩
  have hcreate := createChild_of_made hbuilder hvalid hpc hnone hmade
  refine ⟨_, builder, made, env', u, _, hcreate, ?_, hbuilder, hmade, hu, ?_, hgains⟩
  · exact fun v hv hvw => hvw.not_contains_next (hv.direct hstart)
  · rw [htext]

/-- Builders that name another component than they were asked for, or refuse to build. -/
def wilfulRegistry : Registry Unit Unit :=
  ⟨[("Mesh", fun _ env => (.ok (.new "other" "Other"), env)),
    ("Sealed", fun _ env => (.error (.other "sealed"), env))]⟩

def wilfulRoot : World Unit Unit := ⟨Tree.new "Root" wilfulRegistry, ⟨[], (), []⟩⟩

theorem bare_wilfulRegistry : wilfulRegistry.Bare := by
  refine Registry.bare_of_forall ?_
  intro p hp name env c env' hmade
  simp only [wilfulRegistry, List.mem_cons, List.not_mem_nil, or_false] at hp
  rcases hp with rfl | rfl
  · rw [← Except.ok.inj (Prod.mk.inj hmade).1]
    exact Component.bare_new _ _
  · cases (Prod.mk.inj hmade).1

/-- A root with one child. -/
def wilfulWorld : World Unit Unit := (wilfulRoot.createChild 0 "Mesh" "a").2

theorem createChild_of_course_wilful :
    wilfulRegistry.Bare ∧ Course AddsBare wilfulRoot wilfulWorld ∧
    wilfulWorld.createChild 0 "Mesh" "a" = (.error (.nameTaken "cpath:/" "a"), wilfulWorld) ∧
    wilfulWorld.createChild 1 "Sealed" "b" = (.error (.other "sealed"), wilfulWorld) ∧
    ∃ made u w', wilfulWorld.createChild 1 "Mesh" "b" = (.ok 2, w') ∧
      w'.tree.pathOf 2 = .ok u ∧
      wilfulWorld.tree.Gains w'.tree 2 1
        { name := "b"
          type := "Mesh"
          parent := some 1
          children := []
          links := []
          options := { (made : Component Unit Unit).options with owner := u.text }
          signals := { made.signals with owner := u.text } } := by
  have hcourse : Course AddsBare wilfulRoot wilfulWorld :=
    (Course.start wilfulRoot).act (.createChild 0 "Mesh" "a") trivial
  have hgood : ∀ name, Tree.nameFault name = none → ∀ reason, ¬ Tree.BadName name reason :=
    fun _ => Tree.nameFault_eq_none_iff_forall.1
  have htaken := (createChild_of_course bare_wilfulRegistry hcourse 0 "Mesh" "a").1 _ _
    (.nameTaken rfl (hgood _ (by decide)) rfl rfl (List.mem_singleton.2 rfl))
  have hsealed := (createChild_of_course bare_wilfulRegistry hcourse 1 "Sealed" "b").1 _ _
    (.failed rfl (hgood _ (by decide)) rfl (fun _ => List.not_mem_nil) rfl)
  rcases createChild_of_course bare_wilfulRegistry hcourse 1 "Mesh" "b" with ⟨hrefused, hmade⟩
  have hcreate : (wilfulWorld.createChild 1 "Mesh" "b").1 = .ok 2 := rfl
  have hfree : ∀ e env, ¬ wilfulWorld.Denied 1 "Mesh" "b" e env := by
    intro e env hdenied
    rw [hrefused e env hdenied] at hcreate
    cases hcreate
  rcases hmade hfree with ⟨id, _, made, _, u, w', heq, _, _, _, hu, _, hgains⟩
  obtain rfl : 2 = id := by
    rw [heq] at hcreate
    exact (Except.ok.inj hcreate).symm
  exact ⟨bare_wilfulRegistry, hcourse, htaken, hsealed, made, u, w', heq, hu, hgains⟩

end World
end SignalTree
