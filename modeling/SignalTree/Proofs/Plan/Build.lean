import SignalTree.Proofs.Plan.Failure
import SignalTree.Proofs.Plan.Mirror

/-!
# Build — whether a checked plan can be built

A plan without faults still fails to build for a reason of its structure if the tree cannot follow
one of its paths.  The check puts a path into its canonical form first, and this form forgets what
the tree stumbles over: a name that `..` takes back, and a colon in a path without a scheme.

While a plan is built, the declared paths stay the paths of the components (`Plan.Stage`), step by
step and along the whole run.

* `Plan.declaredAfter`: the declared paths after some components;
* `Plan.Follows`: the paths that the building comes to;
* `Plan.benign_build_iff`: exactly when no failure is one of the structure;
* `Plan.benign_build_of_direct`: the check is sound for paths that do not go up and have no foreign
  scheme.
-/

namespace SignalTree
namespace Plan

variable {σ η : Type}

/-! ## Faults in order -/

/-- The declared paths after some components. -/
def declaredAfter (declared : List String) (parts : List Part) : List String :=
  parts.foldl (fun declared p => p.path?.toList ++ declared) declared

theorem partFaults_snd (knows : String → Bool) (declared : List String) (parts : List Part) :
    (partFaults knows declared parts).2 = declaredAfter declared parts := by
  induction parts generalizing declared with
  | nil => rfl
  | cons p rest ih =>
    rw [partFaults, declaredAfter, List.foldl_cons]
    exact ih _

theorem partFaults_append (knows : String → Bool) (declared : List String)
    (front back : List Part) :
    (partFaults knows declared (front ++ back)).1 = (partFaults knows declared front).1 ++
      (partFaults knows (declaredAfter declared front) back).1 := by
  induction front generalizing declared with
  | nil => rfl
  | cons p rest ih =>
    have hrest := ih (p.path?.toList ++ declared)
    simp only [List.cons_append, partFaults, declaredAfter, List.foldl_cons] at hrest ⊢
    rw [hrest, List.append_assoc]

/-- A component without faults has a name, its path is new, and its type is known. -/
theorem Part.faults_eq_nil {knows : String → Bool} {declared : List String} {p : Part}
    (h : p.faults knows declared = []) :
    p.path? = some (Tree.join (normal p.parent) p.name) ∧ knows p.type = true ∧
      Tree.join (normal p.parent) p.name ∉ declared := by
  unfold Part.faults at h
  cases hpath : p.path? with
  | none => simp [hpath] at h
  | some path =>
    have hjoin : Tree.join (normal p.parent) p.name = path := by
      unfold Part.path? at hpath
      split at hpath
      · cases hpath
      · exact Option.some.inj hpath
    rw [hpath] at h
    rcases List.append_eq_nil_iff.1 h with ⟨hfront, htwice⟩
    rcases List.append_eq_nil_iff.1 hfront with ⟨_, htype⟩
    refine ⟨congrArg some hjoin.symm, ?_, ?_⟩
    · by_contra hunknown
      simp [hunknown] at htype
    · rw [hjoin]
      intro hmem
      simp [hmem] at htwice

theorem normal_mem_of_undeclaredFault {declared : List String} {path user : String}
    (h : undeclaredFault declared path user = []) : path ∈ declared := by
  unfold undeclaredFault at h
  by_contra hmem
  simp [hmem] at h

theorem Part.normal_mem_of_faults {knows : String → Bool} {declared : List String} {p : Part}
    (h : p.faults knows declared = []) : normal p.parent ∈ declared := by
  have hpath := (Part.faults_eq_nil h).1
  simp only [Part.faults, hpath] at h
  rcases List.append_eq_nil_iff.1 h with ⟨hfront, _⟩
  exact normal_mem_of_undeclaredFault (List.append_eq_nil_iff.1 hfront).1

theorem Link.normal_mem_of_faults {declared : List String} {l : Link}
    (h : l.faults declared = []) : normal l.owner ∈ declared ∧ normal l.target ∈ declared := by
  unfold Link.faults at h
  split at h
  · cases h
  · rcases List.append_eq_nil_iff.1 h with ⟨howner, htarget⟩
    exact ⟨normal_mem_of_undeclaredFault howner, normal_mem_of_undeclaredFault htarget⟩

/-! ## What stays true -/

/-- The world in the course of building: its components are those that were declared. -/
structure Stage (r : Registry σ η) (declared : List String) (w : World σ η) : Prop where
  registry_eq : w.tree.registry = r
  mirrors : Mirrors declared w.tree

/-- The same while the options of a component are set. -/
structure Setup (r : Registry σ η) (declared : List String) (id : NodeId) (w : World σ η) : Prop
    extends Stage r declared w where
  quiet : ∃ c, w.tree.get? id = some c ∧ c.options.Quiet

variable {r : Registry σ η} {declared : List String} {w : World σ η} {id : NodeId}

namespace Setup

theorem changeOptions (h : Setup r declared id w)
    {f : Settings σ → Env σ → Except Error Unit × Settings σ × Env σ}
    (hf : ∀ o env, o.Quiet → Benign (f o env).1 ∧ (f o env).2.1.Quiet) :
    Benign (w.changeOptions id f).1 ∧ Setup r declared id (w.changeOptions id f).2 := by
  rcases h.quiet with ⟨c, hc, hquiet⟩
  rcases hf c.options w.env hquiet with ⟨hbenign, hafter⟩
  have hcomponent : w.tree.component id = .ok c := Tree.component_eq_ok_iff.2 hc
  unfold World.changeOptions
  simp only [hcomponent]
  refine ⟨hbenign, ⟨h.registry_eq, ?_⟩, ?_⟩
  · exact h.mirrors.modify id (f := fun d => { d with options := (f c.options w.env).2.1 })
      fun _ => ⟨rfl, rfl, rfl⟩
  · refine ⟨{ c with options := (f c.options w.env).2.1 }, ?_, hafter⟩
    rw [Tree.get?_modify, if_pos rfl, hc]
    rfl

theorem addDeclared (h : Setup r declared id w) (d : String × Declaration) :
    Benign (addDeclared id d w).1 ∧ Setup r declared id (addDeclared id d w).2 := by
  unfold Plan.addDeclared
  cases hs : d.2.setting d.1 with
  | error e => exact ⟨.error (benign_setting d.1 d.2 e hs), h⟩
  | ok s =>
    apply h.changeOptions
    intro o env ho
    have hquiet : s.Quiet := by
      intro t ht
      rw [triggers_setting hs] at ht
      cases ht
    cases hinsert : o.insert s with
    | error e => exact ⟨.error (Settings.benign_insert o s e hinsert), ho⟩
    | ok o' => exact ⟨.ok (), ho.insert hquiet hinsert⟩

theorem benign_optionValue (h : Setup r declared id w) (name : String) (v : Yaml) :
    Benign (optionValue w id name v) := by
  rcases h.quiet with ⟨c, hc, _⟩
  have hcomponent : w.tree.component id = .ok c := Tree.component_eq_ok_iff.2 hc
  unfold optionValue
  rw [hcomponent]
  apply (Settings.benign_get c.options name).bind
  intro s
  exact (benign_toValue v s.kind).locatedAt name

theorem setOption (h : Setup r declared id w) (o : String × Yaml) :
    Benign (setOption id o w).1 ∧ Setup r declared id (setOption id o w).2 := by
  unfold Plan.setOption
  cases hv : optionValue w id o.1 o.2 with
  | error e => exact ⟨.error (h.benign_optionValue o.1 o.2 e hv), h⟩
  | ok v =>
    apply h.changeOptions
    intro options env hquiet
    exact ⟨Settings.benign_set hquiet o.1 v env, hquiet.set o.1 v env⟩

end Setup

/-- What each item keeps true, all of them keep true. -/
theorem forEach_benign {α : Type} {f : α → World σ η → Except Error Unit × World σ η}
    {P : World σ η → Prop} (hf : ∀ a w, P w → Benign (f a w).1 ∧ P (f a w).2) (items : List α)
    {w : World σ η} (hw : P w) : Benign (forEach f items w).1 ∧ P (forEach f items w).2 := by
  induction items generalizing w with
  | nil => exact ⟨.ok (), hw⟩
  | cons a rest ih =>
    have hstep := hf a w hw
    rcases ha : f a w with ⟨result, w'⟩
    rw [ha] at hstep
    cases result with
    | error e =>
      simp only [forEach, ha]
      exact hstep
    | ok u =>
      simp only [forEach, ha]
      exact ih hstep.2

namespace Stage

/-! ## A component -/

/-- A component under a free path is made, unless its name cannot be one. -/
theorem createChild (h : Stage r declared w) (hr : r.Reliable) {type name : String}
    (hknows : r.knows type = true) {names : List String} {parent : NodeId}
    (hnames : ∀ n ∈ names, IsSegment n) (hparent : w.tree.descend names = some parent)
    (hfree : Tree.join (pathOfNames names.reverse) name ∉ declared) :
    Benign (w.createChild parent type name).1 ∧
      ∀ id, (w.createChild parent type name).1 = .ok id →
        Setup r (Tree.join (pathOfNames names.reverse) name :: declared) id
          (w.createChild parent type name).2 := by
  rcases h.mirrors.grown.descend_live hparent with ⟨pc, hpc⟩
  have hcomponent : w.tree.component parent = .ok pc := Tree.component_eq_ok_iff.2 hpc
  rcases Option.isSome_iff_exists.1 hknows with ⟨builder, hlookup⟩
  have hbuilder : r.builder type = .ok builder := by simp [Registry.builder, hlookup]
  rw [← h.registry_eq] at hbuilder
  unfold World.createChild
  simp only [hbuilder]
  cases hfault : Tree.nameFault name with
  | some reason =>
    have hcheck : w.tree.checkNewChild parent name = .error (.badName name reason) := by
      simp [Tree.checkNewChild, hfault]
    simp only [hcheck]
    refine ⟨.error id, ?_⟩
    intro id hid
    cases hid
  | none =>
    have hsegment : IsSegment name := isSegment_of_nameFault hfault
    have hsegments : ∀ n ∈ name :: names, IsSegment n := by
      intro n hn
      rcases List.mem_cons.1 hn with rfl | hn
      · exact hsegment
      · exact hnames n hn
    have hpath : Tree.join (pathOfNames names.reverse) name
        = pathOfNames (name :: names).reverse := by
      rw [join_pathOfNames (fun n hn => hnames n (List.mem_reverse.1 hn)), List.reverse_cons]
    rw [hpath] at hfree ⊢
    -- a child of this name would have the path
    have hname : pc.child? name = none := by
      rw [← Tree.descend_cons hparent hpc]
      by_contra htaken
      rcases Option.ne_none_iff_exists'.1 htaken with ⟨k, hk⟩
      exact hfree ((h.mirrors.declared_iff _ hsegments).2 ⟨k, hk⟩)
    have hcheck : w.tree.checkNewChild parent name = .ok () := by
      simp [Tree.checkNewChild, hfault, hcomponent, hname, bind, Except.bind]
    rcases hr type builder (h.registry_eq ▸ hbuilder) name w.env with ⟨c, env, hc, hcc, hquiet⟩
    simp only [hcheck, hc]
    refine ⟨.ok _, ?_⟩
    intro id hid
    have hnext : w.tree.next = id := Except.ok.inj hid
    refine ⟨⟨h.registry_eq, ?_⟩, ?_⟩
    · exact h.mirrors.attachTo hparent hsegments hpc hname rfl rfl hcc
    · have hget := h.mirrors.grown.get?_attachTo_eq
        (c := Component.placed { c with type } name (some parent) (w.tree.childPath parent name))
        hpc hname id
      rw [if_pos hnext.symm] at hget
      exact ⟨_, hget, hquiet⟩

/-- A component without faults is made, as far as the structure goes, if its parent can be
reached. -/
theorem addPart_of_walkable (h : Stage r declared w) (hr : r.Reliable) {p : Part}
    (hfaults : p.faults r.knows declared = []) (hwalk : Walkable declared p.parent) :
    Benign (addPart p w).1 ∧
      ((addPart p w).1 = .ok () → Stage r (p.path?.toList ++ declared) (addPart p w).2) := by
  rcases h.mirrors.walkable_iff.1 hwalk with ⟨parent, hresolve⟩
  rcases h.mirrors.normal_of_resolve hresolve with ⟨names, hnames, hparent, hnormal⟩
  rcases Part.faults_eq_nil hfaults with ⟨hpath, hknows, hfree⟩
  rw [hnormal] at hfree
  rcases h.createChild hr hknows hnames hparent hfree with ⟨hbenign, hmade⟩
  have hdeclared : p.path?.toList ++ declared
      = Tree.join (pathOfNames names.reverse) p.name :: declared := by
    rw [hpath, hnormal]
    rfl
  rw [hdeclared]
  unfold addPart
  simp only [hresolve]
  -- the component first, then what it declares, then what is set
  rcases hcreate : w.createChild parent p.type p.name with ⟨result, w₁⟩
  rw [hcreate] at hbenign hmade
  cases result with
  | error e =>
    refine ⟨.error (hbenign e rfl), ?_⟩
    intro hok
    cases hok
  | ok id =>
    have hsetup : Setup r (Tree.join (pathOfNames names.reverse) p.name :: declared) id w₁ :=
      hmade id rfl
    have hdeclare := forEach_benign (P := Setup r _ id) (fun d w hw => hw.addDeclared d)
      p.declared hsetup
    rcases hoptions : forEach (addDeclared id) p.declared w₁ with ⟨result, w₂⟩
    rw [hoptions] at hdeclare
    cases result with
    | error e =>
      simp only [hoptions]
      refine ⟨hdeclare.1, ?_⟩
      intro hok
      cases hok
    | ok u =>
      have hset := forEach_benign (P := Setup r _ id) (fun o w hw => hw.setOption o)
        p.options hdeclare.2
      simp only [hoptions]
      exact ⟨hset.1, fun _ => hset.2.toStage⟩

theorem resolve_of_not_walkable (h : Stage r declared w) {path : String}
    (hwalk : ¬ Walkable declared path) :
    w.tree.resolve w.tree.root path = .error (.notFound path) := by
  cases hresolve : w.tree.resolve w.tree.root path with
  | ok k => exact absurd (h.mirrors.walkable_iff.2 ⟨k, hresolve⟩) hwalk
  | error e => rw [h.mirrors.grown.resolve_eq_error h.mirrors.grown.contains_root hresolve]

theorem addPart_of_not_walkable (h : Stage r declared w) {p : Part}
    (hwalk : ¬ Walkable declared p.parent) :
    (addPart p w).1 = .error (.notFound p.parent) := by
  unfold addPart
  rw [h.resolve_of_not_walkable hwalk]

/-! ## A link -/

/-- A link is made if both its ends can be reached. -/
theorem addLink_of_walkable (h : Stage r declared w) {l : Link}
    (howner : Walkable declared l.owner) (htarget : Walkable declared l.target) :
    (addLink l w).1 = .ok () ∧ Stage r declared (addLink l w).2 := by
  -- a path that can be followed leads to a live component
  have hlive : ∀ path, Walkable declared path → ∃ k c,
      w.tree.resolve w.tree.root path = .ok k ∧ w.tree.component k = .ok c := by
    intro path hwalk
    rcases h.mirrors.walkable_iff.1 hwalk with ⟨k, hk⟩
    rcases h.mirrors.normal_of_resolve hk with ⟨names, _, hdescend, _⟩
    rcases h.mirrors.grown.descend_live hdescend with ⟨c, hc⟩
    exact ⟨k, c, hk, Tree.component_eq_ok_iff.2 hc⟩
  rcases hlive _ howner with ⟨owner, oc, ho, hoc⟩
  rcases hlive _ htarget with ⟨target, tc, ht, htc⟩
  unfold addLink
  simp only [ho, ht, World.link, hoc, htc]
  refine ⟨trivial, h.registry_eq, ?_⟩
  exact h.mirrors.modify owner (f := fun c => { c with links := Keyed.put l.name target c.links })
    fun _ => ⟨rfl, rfl, rfl⟩

theorem addLink_of_not_walkable (h : Stage r declared w) {l : Link}
    (hwalk : ¬ (Walkable declared l.owner ∧ Walkable declared l.target)) :
    ∃ path, (addLink l w).1 = .error (.notFound path) := by
  unfold addLink
  by_cases howner : Walkable declared l.owner
  · have htarget : ¬ Walkable declared l.target := fun ht => hwalk ⟨howner, ht⟩
    rcases h.mirrors.walkable_iff.1 howner with ⟨owner, ho⟩
    exact ⟨l.target, by simp only [ho, h.resolve_of_not_walkable htarget]⟩
  · exact ⟨l.owner, by rw [h.resolve_of_not_walkable howner]⟩

/-! ## Runs -/

/-- Components that are made leave what they declare. -/
theorem parts (h : Stage r declared w) (hr : r.Reliable) {front : List Part} {w' : World σ η}
    (hfaults : (partFaults r.knows declared front).1 = [])
    (hrun : forEach addPart front w = (.ok (), w')) :
    Stage r (declaredAfter declared front) w' := by
  induction front generalizing declared w with
  | nil => exact (Prod.mk.inj hrun).2 ▸ h
  | cons p rest ih =>
    rcases List.append_eq_nil_iff.1 hfaults with ⟨hfirst, hrest⟩
    rcases hp : addPart p w with ⟨result, w₁⟩
    cases result with
    | error e => simp [forEach, hp] at hrun
    | ok u =>
      have hwalk : Walkable declared p.parent := by
        by_contra hwalk
        have herror := h.addPart_of_not_walkable hwalk
        rw [hp] at herror
        cases herror
      have hnext := (h.addPart_of_walkable hr hfirst hwalk).2
      rw [hp] at hnext
      simp only [forEach, hp] at hrun
      exact ih (hnext rfl) hrest hrun

/-- Links that are made leave the components alone. -/
theorem links (h : Stage r declared w) {front : List Link} {w' : World σ η}
    (hrun : forEach addLink front w = (.ok (), w')) : Stage r declared w' := by
  induction front generalizing w with
  | nil => exact (Prod.mk.inj hrun).2 ▸ h
  | cons l rest ih =>
    rcases hl : addLink l w with ⟨result, w₁⟩
    cases result with
    | error e => simp [forEach, hl] at hrun
    | ok u =>
      have hwalk : Walkable declared l.owner ∧ Walkable declared l.target := by
        by_contra hwalk
        rcases h.addLink_of_not_walkable hwalk with ⟨path, herror⟩
        rw [hl] at herror
        cases herror
      have hnext := (h.addLink_of_walkable hwalk.1 hwalk.2).2
      rw [hl] at hnext
      simp only [forEach, hl] at hrun
      exact ih hnext hrun

end Stage

/-! ## Whole plans -/

section ForEach

variable {α : Type} {f : α → World σ η → Except Error Unit × World σ η} {front back items : List α}
  {a : α} {w w' : World σ η} {e : Error}

theorem forEach_append (h : forEach f front w = (.ok (), w')) :
    forEach f (front ++ back) w = forEach f back w' := by
  induction front generalizing w with
  | nil => rw [(Prod.mk.inj h).2.symm, List.nil_append]
  | cons a rest ih =>
    rcases ha : f a w with ⟨result, w₁⟩
    cases result with
    | error e => simp [forEach, ha] at h
    | ok u =>
      simp only [List.cons_append, forEach, ha] at h ⊢
      exact ih h

/-- Items after those that succeeded decide. -/
theorem forEach_error_of_append (h : forEach f front w = (.ok (), w'))
    (ha : (f a w').1 = .error e) : (forEach f (front ++ a :: back) w).1 = .error e := by
  rw [forEach_append h, forEach]
  rcases hf : f a w' with ⟨result, w₁⟩
  rw [hf] at ha
  have herror : result = .error e := ha
  rw [herror]

/-- A failure is that of the first item that fails. -/
theorem forEach_eq_error (h : (forEach f items w).1 = .error e) :
    ∃ front a back w', items = front ++ a :: back ∧ forEach f front w = (.ok (), w') ∧
      (f a w').1 = .error e := by
  induction items generalizing w with
  | nil => cases h
  | cons a rest ih =>
    rcases ha : f a w with ⟨result, w₁⟩
    cases result with
    | error e' =>
      have herror : (f a w).1 = .error e := by
        rw [ha]
        simpa [forEach, ha] using h
      exact ⟨[], a, rest, w, rfl, rfl, herror⟩
    | ok u =>
      simp only [forEach, ha] at h
      rcases ih h with ⟨front, b, back, w', rfl, hfront, hb⟩
      exact ⟨a :: front, b, back, w', rfl, by simpa only [forEach, ha] using hfront, hb⟩

end ForEach

variable {p : Plan} {env : Env σ}

/-- The world in which the building starts. -/
def ground (root : String) (r : Registry σ η) (env : Env σ) : World σ η := ⟨Tree.new root r, env⟩

theorem stage_ground (root : String) (r : Registry σ η) (env : Env σ) :
    Stage r [normal ""] (ground root r env) := ⟨rfl, Mirrors.new root r⟩

theorem build_eq_ok_iff {root : String} {parts : List Part} {links : List Link} :
    (build ⟨root, parts, links⟩ r env).1 = .ok () ↔
      ∃ w₁ w₂, forEach addPart parts (ground root r env) = (.ok (), w₁) ∧
        forEach addLink links w₁ = (.ok (), w₂) := by
  unfold build ground
  rcases hparts : forEach addPart parts ⟨Tree.new root r, env⟩ with ⟨result, w₁⟩
  cases result with
  | error e => simp
  | ok u =>
    rcases hlinks : forEach addLink links w₁ with ⟨result, w₂⟩
    cases result with
    | error e => simp [hlinks]
    | ok u => simp [hlinks]

/-- The paths that the building of a plan comes to, with what is declared by then. -/
inductive Follows (p : Plan) (r : Registry σ η) (env : Env σ) : List String → String → Prop where
  | parent {front rest : List Part} {part : Part} (hparts : p.parts = front ++ part :: rest)
      (hfront : (build ⟨p.root, front, []⟩ r env).1 = .ok ()) :
      Follows p r env (declaredAfter [normal ""] front) part.parent
  | owner {front rest : List Link} {link : Link} (hlinks : p.links = front ++ link :: rest)
      (hfront : (build ⟨p.root, p.parts, front⟩ r env).1 = .ok ()) :
      Follows p r env (declaredAfter [normal ""] p.parts) link.owner
  | target {front rest : List Link} {link : Link} (hlinks : p.links = front ++ link :: rest)
      (hfront : (build ⟨p.root, p.parts, front⟩ r env).1 = .ok ()) :
      Follows p r env (declaredAfter [normal ""] p.parts) link.target

/-- The components before one whose turn has come are those of its declared paths. -/
theorem stage_of_build (hr : r.Reliable) {root : String} {front : List Part} {back : List Part}
    {links : List Link} (hfaults : (partFaults r.knows [normal ""] (front ++ back)).1 = [])
    (h : (build ⟨root, front, links⟩ r env).1 = .ok ()) :
    ∃ w₁ w₂, forEach addPart front (ground root r env) = (.ok (), w₁) ∧
      forEach addLink links w₁ = (.ok (), w₂) ∧
      Stage r (declaredAfter [normal ""] front) w₁ ∧
      Stage r (declaredAfter [normal ""] front) w₂ := by
  rcases build_eq_ok_iff.1 h with ⟨w₁, w₂, hparts, hlinks⟩
  rw [partFaults_append] at hfaults
  have hfront := (List.append_eq_nil_iff.1 hfaults).1
  have hstage := (stage_ground root r env).parts hr hfront hparts
  exact ⟨w₁, w₂, hparts, hlinks, hstage, hstage.links hlinks⟩

theorem stage_of_build_parts (hr : r.Reliable) (hfaults : p.faults r = []) {front : List Link}
    (h : (build ⟨p.root, p.parts, front⟩ r env).1 = .ok ()) :
    ∃ w₁ w₂, forEach addPart p.parts (ground p.root r env) = (.ok (), w₁) ∧
      forEach addLink front w₁ = (.ok (), w₂) ∧
      Stage r (declaredAfter [normal ""] p.parts) w₂ := by
  have hall : (partFaults r.knows [normal ""] (p.parts ++ [])).1 = [] := by
    rw [List.append_nil]
    exact (List.append_eq_nil_iff.1 hfaults).1
  rcases stage_of_build hr hall h with ⟨w₁, w₂, hmade, hlinked, _, hstage⟩
  exact ⟨w₁, w₂, hmade, hlinked, hstage⟩

theorem build_error_of_link (hr : r.Reliable) (hfaults : p.faults r = []) {front rest : List Link}
    {link : Link} (hsplit : p.links = front ++ link :: rest)
    (hfront : (build ⟨p.root, p.parts, front⟩ r env).1 = .ok ())
    (hends : ¬ (Walkable (declaredAfter [normal ""] p.parts) link.owner ∧
      Walkable (declaredAfter [normal ""] p.parts) link.target)) :
    ∃ path, (p.build r env).1 = .error (.notFound path) := by
  rcases stage_of_build_parts hr hfaults hfront with ⟨w₁, w₂, hmade, hlinked, hstage⟩
  rcases hstage.addLink_of_not_walkable hends with ⟨path, herror⟩
  have hrun : (forEach addLink p.links w₁).1 = .error (.notFound path) := by
    rw [hsplit]
    exact forEach_error_of_append hlinked herror
  rcases hresult : forEach addLink p.links w₁ with ⟨result, w⟩
  rw [hresult] at hrun
  unfold ground at hmade
  refine ⟨path, ?_⟩
  simp only [build, hmade, hresult]
  exact hrun

/-- A path that cannot be followed stops the building when its turn comes. -/
theorem build_error_of_follows (hr : r.Reliable) (hfaults : p.faults r = [])
    {declared : List String} {path : String} (hfollows : Follows p r env declared path)
    (hwalk : ¬ Walkable declared path) : ∃ path', (p.build r env).1 = .error (.notFound path') := by
  cases hfollows with
  | @parent front rest part hsplit hfront =>
    have hparts : (partFaults r.knows [normal ""] p.parts).1 = [] :=
      (List.append_eq_nil_iff.1 hfaults).1
    rw [hsplit] at hparts
    rcases stage_of_build hr hparts hfront with ⟨w₁, _, hmade, _, hstage, _⟩
    have herror : (forEach addPart (front ++ part :: rest) (ground p.root r env)).1
        = .error (.notFound part.parent) :=
      forEach_error_of_append hmade (hstage.addPart_of_not_walkable hwalk)
    rw [← hsplit] at herror
    rcases hresult : forEach addPart p.parts (ground p.root r env) with ⟨result, w⟩
    rw [hresult] at herror
    unfold ground at hresult
    have hfailed : result = .error (.notFound part.parent) := herror
    refine ⟨part.parent, ?_⟩
    simp only [build, hresult, hfailed]
  | @owner front rest link hsplit hfront =>
    apply build_error_of_link hr hfaults hsplit hfront
    intro hends
    exact hwalk hends.1
  | @target front rest link hsplit hfront =>
    apply build_error_of_link hr hfaults hsplit hfront
    intro hends
    exact hwalk hends.2

/-- If each path can be followed when its turn comes, no failure is one of the structure. -/
theorem benign_build_of_walkable (hr : r.Reliable) (hfaults : p.faults r = [])
    (hwalk : ∀ declared path, Follows p r env declared path → Walkable declared path) :
    Benign (p.build r env).1 := by
  have hparts : (partFaults r.knows [normal ""] p.parts).1 = [] :=
    (List.append_eq_nil_iff.1 hfaults).1
  intro e he
  unfold build at he
  rcases hmade : forEach addPart p.parts ⟨Tree.new p.root r, env⟩ with ⟨result, w₁⟩
  rw [hmade] at he
  cases result with
  | error e' =>
    -- a component failed: those before it were made, and its parent could be reached
    have hfailed : (forEach addPart p.parts (ground p.root r env)).1 = .error e := by
      rw [ground, hmade]
      exact he
    rcases forEach_eq_error hfailed with ⟨front, part, rest, w, hsplit, hfront, herror⟩
    rw [hsplit, partFaults_append] at hparts
    rcases List.append_eq_nil_iff.1 hparts with ⟨hbefore, hafter⟩
    have hstage := (stage_ground p.root r env).parts hr hbefore hfront
    have hbuilt : (build ⟨p.root, front, []⟩ r env).1 = .ok () :=
      build_eq_ok_iff.2 ⟨w, w, hfront, rfl⟩
    have hfault := (List.append_eq_nil_iff.1 hafter).1
    exact (hstage.addPart_of_walkable hr hfault (hwalk _ _ (.parent hsplit hbuilt))).1 e herror
  | ok u =>
    -- a link failed, but both its ends could be reached
    have hstage := (stage_ground p.root r env).parts hr hparts hmade
    rcases forEach_eq_error he with ⟨front, link, rest, w, hsplit, hfront, herror⟩
    have hbuilt : (build ⟨p.root, p.parts, front⟩ r env).1 = .ok () :=
      build_eq_ok_iff.2 ⟨w₁, w, hmade, hfront⟩
    have hlinked := (hstage.links hfront).addLink_of_walkable
      (hwalk _ _ (.owner hsplit hbuilt)) (hwalk _ _ (.target hsplit hbuilt))
    rw [herror] at hlinked
    cases hlinked.1

/-- A plan without faults is built, as far as its structure goes, exactly if each path can be
followed when its turn comes. -/
theorem benign_build_iff (p : Plan) (r : Registry σ η) (env : Env σ) (hr : r.Reliable)
    (hfaults : p.faults r = []) :
    Benign (p.build r env).1 ↔
      ∀ declared path, Follows p r env declared path → Walkable declared path := by
  constructor
  · intro hbenign declared path hfollows
    by_contra hwalk
    rcases build_error_of_follows hr hfaults hfollows hwalk with ⟨path', herror⟩
    exact hbenign _ herror trivial
  · intro hwalk
    exact benign_build_of_walkable hr hfaults hwalk

/-- A plan in which paths go up again and end in a slash. -/
def samplePlan : Plan where
  root := "Root"
  parts := [⟨"", "Tools", "Group", [], []⟩, ⟨"cpath:/Tools/./", "mesh", "Group", [], []⟩,
    ⟨" /Tools/mesh/../..", "fields", "Group", [], []⟩]
  links := [⟨"cpath:/Tools/mesh/..", "mesh", "cpath:/fields/../Tools//mesh"⟩]

theorem benign_build_samplePlan :
    (Registry.standard : Registry Unit Unit).Reliable ∧
      samplePlan.faults (Registry.standard : Registry Unit Unit) = [] ∧
      (Benign (samplePlan.build (Registry.standard : Registry Unit Unit) ⟨[], (), []⟩).1 ↔
        ∀ declared path,
          Follows samplePlan (Registry.standard : Registry Unit Unit) ⟨[], (), []⟩ declared path →
            Walkable declared path) := by
  have hfaults : samplePlan.faults (Registry.standard : Registry Unit Unit) = [] := by decide
  exact ⟨Registry.reliable_standard, hfaults,
    benign_build_iff samplePlan _ ⟨[], (), []⟩ Registry.reliable_standard hfaults⟩

/-- A plan whose only path takes a name back that was never declared. -/
def ghostPlan : Plan := ⟨"Root", [⟨"/ghost/..", "c", "Group", [], []⟩], []⟩

theorem ghostPlan_not_benign :
    (Registry.standard : Registry Unit Unit).Reliable ∧
      ghostPlan.faults (Registry.standard : Registry Unit Unit) = [] ∧
      ¬ Benign (ghostPlan.build (Registry.standard : Registry Unit Unit) ⟨[], (), []⟩).1 := by
  refine ⟨Registry.reliable_standard, by decide, ?_⟩
  have herror : (ghostPlan.build (Registry.standard : Registry Unit Unit) ⟨[], (), []⟩).1
      = .error (.notFound "/ghost/..") := rfl
  intro hbenign
  exact hbenign _ herror trivial

/-- What stands before a colon is a scheme to the tree, but not to the check. -/
example :
    let p : Plan := ⟨"Root", [⟨"", "a:b", "Group", [], []⟩, ⟨"/a:b", "c", "Group", [], []⟩], []⟩
    p.faults (Registry.standard : Registry Unit Unit) = [] ∧
      (p.build (Registry.standard : Registry Unit Unit) ⟨[], (), []⟩).1
        = .error (.notFound "/a:b") := by
  exact ⟨by decide, rfl⟩

/-! ## Direct paths -/

/-- The check is sound for plans whose paths do not go up and have no foreign scheme. -/
theorem benign_build_of_direct (hr : r.Reliable) (hfaults : p.faults r = [])
    (hparents : ∀ q ∈ p.parts, IsDirect q.parent)
    (hends : ∀ l ∈ p.links, IsDirect l.owner ∧ IsDirect l.target) :
    Benign (p.build r env).1 := by
  rcases List.append_eq_nil_iff.1 hfaults with ⟨hparts, hlinks⟩
  -- what stands before a link was built, and the link has no fault
  have hlink : ∀ front link rest, p.links = front ++ link :: rest →
      (build ⟨p.root, p.parts, front⟩ r env).1 = .ok () →
      Walkable (declaredAfter [normal ""] p.parts) link.owner ∧
        Walkable (declaredAfter [normal ""] p.parts) link.target := by
    intro front link rest hsplit hfront
    have hmem : link ∈ p.links := by simp [hsplit]
    rcases stage_of_build_parts hr hfaults hfront with ⟨_, _, _, _, hstage⟩
    have hfault := List.flatMap_eq_nil_iff.1 hlinks link hmem
    rw [partFaults_snd] at hfault
    rcases Link.normal_mem_of_faults hfault with ⟨howner, htarget⟩
    exact ⟨hstage.mirrors.walkable_of_direct (hends link hmem).1 howner,
      hstage.mirrors.walkable_of_direct (hends link hmem).2 htarget⟩
  apply benign_build_of_walkable hr hfaults
  intro declared path hfollows
  cases hfollows with
  | @parent front rest part hsplit hfront =>
    have hmem : part ∈ p.parts := by simp [hsplit]
    rw [hsplit] at hparts
    rcases stage_of_build hr hparts hfront with ⟨_, _, _, _, hstage, _⟩
    rw [partFaults_append] at hparts
    have hfault := (List.append_eq_nil_iff.1 (List.append_eq_nil_iff.1 hparts).2).1
    exact hstage.mirrors.walkable_of_direct (hparents part hmem) (Part.normal_mem_of_faults hfault)
  | @owner front rest link hsplit hfront => exact (hlink front link rest hsplit hfront).1
  | @target front rest link hsplit hfront => exact (hlink front link rest hsplit hfront).2

end Plan
end SignalTree
