import SignalTree.Proofs.Plan.Build
import SignalTree.Proofs.Plan.Step

/-!
# Alarm — the check finds nothing in a plan that can be built

Whatever the tree follows on its way to a component, the canonical form of the path has the names of
this component, and these are declared.  So a plan that is built shows, step by step, that the check
has no objection: each name was free, each type had a builder, and each path led somewhere.

* `Stage.faults_of_addPart`: a part that is made has no faults;
* `Stage.faults_of_addLink`: a link that is made has none, unless its name is blank;
* `Plan.faults_eq_nil_of_build`: the whole plan.
-/

namespace SignalTree
namespace Plan

variable {σ η : Type} {r : Registry σ η} {declared : List String} {w w' : World σ η}

theorem not_blank_of_nameFault {name : String} (h : Tree.nameFault name = none) :
    Text.blank name = false := by
  rcases Tree.nameFault_eq_none_iff.1 h with ⟨hempty, _, _, _, hblanks⟩
  rcases List.exists_mem_of_ne_nil name.toList (by simpa using hempty) with ⟨c, hc⟩
  rw [Text.blank, List.all_eq_false]
  exact ⟨c, hc, by simp [hblanks c hc]⟩

theorem knows_of_builder {type : String} {builder : Builder σ η}
    (h : r.builder type = .ok builder) : r.knows type = true := by
  unfold Registry.builder at h
  cases hlookup : r.builders.lookup type with
  | none => simp [hlookup] at h
  | some b => simp [Registry.knows, Keyed.has, hlookup]

theorem undeclaredFault_eq_nil {path : String} (h : path ∈ declared) (user : String) :
    undeclaredFault declared path user = [] := by
  simp [undeclaredFault, h]

namespace Stage

/-! ## Steps -/

/-- The canonical form of a path that leads to a component is declared. -/
theorem normal_mem (h : Stage r declared w) {path : String} {k : NodeId}
    (hk : w.tree.resolve w.tree.root path = .ok k) : normal path ∈ declared := by
  rcases h.mirrors.normal_of_resolve hk with ⟨names, hnames, hdescend, hnormal⟩
  rw [hnormal, h.mirrors.declared_iff names hnames]
  exact ⟨k, hdescend⟩

theorem faults_of_addPart (h : Stage r declared w) (hr : r.Plain) {p : Part}
    (hrun : addPart p w = (.ok (), w')) :
    p.faults r.knows declared = [] ∧ Stage r (p.path?.toList ++ declared) w' := by
  rcases adds_of_addPart h.mirrors.grown hrun with ⟨parent, c, hadds, hw'⟩
  rcases h.mirrors.normal_of_resolve hadds.parent_found with ⟨names, hnames, hparent, hnormal⟩
  rcases hadds.name_free with ⟨pc, hpc, hfree⟩
  have hsegments : ∀ n ∈ p.name :: names, IsSegment n :=
    List.forall_mem_cons.2 ⟨isSegment_of_nameFault hadds.name_valid, hnames⟩
  have hpath : p.path? = some (pathOfNames (p.name :: names).reverse) := by
    rw [Part.path?, not_blank_of_nameFault hadds.name_valid, hnormal,
      join_pathOfNames fun n hn => hnames n (List.mem_reverse.1 hn), List.reverse_cons]
    rfl
  have hknows : r.knows p.type = true := by
    rcases hadds.made with ⟨builder, _, _, _, _, _, hbuilder, _⟩
    rw [h.registry_eq] at hbuilder
    exact knows_of_builder hbuilder
  have hnew : pathOfNames (p.name :: names).reverse ∉ declared := by
    rw [h.mirrors.declared_iff _ hsegments, Tree.descend_cons hparent hpc, hfree]
    simp
  have hcc : c.children = [] := hadds.children_eq_nil (h.registry_eq ▸ hr)
  refine ⟨?_, ?_, ?_⟩
  · simp only [Part.faults, hpath, hknows, if_true,
      undeclaredFault_eq_nil (h.normal_mem hadds.parent_found)]
    simpa using hnew
  · rw [hw']
    exact h.registry_eq
  · rw [hw', hpath]
    exact h.mirrors.attachTo hparent hsegments hpc hfree hadds.name_eq hadds.parent_eq hcc

theorem faults_of_addLink (h : Stage r declared w) {l : Link} (hname : Text.blank l.name = false)
    (hrun : addLink l w = (.ok (), w')) : l.faults declared = [] := by
  rcases link_of_addLink hrun with ⟨owner, target, howner, htarget, _⟩
  simp [Link.faults, hname, undeclaredFault_eq_nil (h.normal_mem howner),
    undeclaredFault_eq_nil (h.normal_mem htarget)]

/-! ## Runs -/

theorem faults_of_parts (h : Stage r declared w) (hr : r.Plain) {parts : List Part}
    (hrun : forEach addPart parts w = (.ok (), w')) :
    (partFaults r.knows declared parts).1 = [] ∧ Stage r (declaredAfter declared parts) w' := by
  induction parts generalizing declared w with
  | nil => exact ⟨rfl, (Prod.mk.inj hrun).2 ▸ h⟩
  | cons p rest ih =>
    rcases hp : addPart p w with ⟨result, w₁⟩
    cases result with
    | error e => simp [forEach, hp] at hrun
    | ok u =>
      simp only [forEach, hp] at hrun
      rcases h.faults_of_addPart hr hp with ⟨hfirst, hnext⟩
      rcases ih hnext hrun with ⟨hrest, hlast⟩
      exact ⟨List.append_eq_nil_iff.2 ⟨hfirst, hrest⟩, hlast⟩

theorem faults_of_links (h : Stage r declared w) {links : List Link}
    (hnames : ∀ l ∈ links, Text.blank l.name = false)
    (hrun : forEach addLink links w = (.ok (), w')) :
    links.flatMap (Link.faults declared) = [] := by
  induction links generalizing w with
  | nil => rfl
  | cons l rest ih =>
    rcases hl : addLink l w with ⟨result, w₁⟩
    cases result with
    | error e => simp [forEach, hl] at hrun
    | ok u =>
      have hlink : forEach addLink [l] w = (.ok (), w₁) := by simp [forEach, hl]
      have hnext : Stage r declared w₁ := h.links hlink
      simp only [forEach, hl] at hrun
      rw [List.forall_mem_cons] at hnames
      exact List.append_eq_nil_iff.2 ⟨h.faults_of_addLink hnames.1 hl, ih hnext hnames.2 hrun⟩

end Stage

/-- The check has no objection to a plan that can be built, if its links have names. -/
theorem faults_eq_nil_of_build (p : Plan) (r : Registry σ η) (env : Env σ) (hr : r.Plain)
    (hnames : ∀ l ∈ p.links, Text.blank l.name = false) (hbuild : (p.build r env).1 = .ok ()) :
    p.faults r = [] := by
  rcases build_eq_ok_iff.1 hbuild with ⟨w₁, w₂, hparts, hlinks⟩
  rcases (stage_ground p.root r env).faults_of_parts hr hparts with ⟨hnone, hstage⟩
  refine List.append_eq_nil_iff.2 ⟨hnone, ?_⟩
  rw [partFaults_snd]
  exact hstage.faults_of_links hnames hlinks

theorem faults_samplePlan :
    (Registry.standard : Registry Unit Unit).Plain ∧
      (∀ l ∈ samplePlan.links, Text.blank l.name = false) ∧
      (samplePlan.build (Registry.standard : Registry Unit Unit) ⟨[], (), []⟩).1 = .ok () ∧
      samplePlan.faults (Registry.standard : Registry Unit Unit) = [] := by
  have hnames : ∀ l ∈ samplePlan.links, Text.blank l.name = false := by decide
  have hbuild : (samplePlan.build (Registry.standard : Registry Unit Unit) ⟨[], (), []⟩).1
      = .ok () := rfl
  exact ⟨Registry.plain_standard, hnames, hbuild,
    faults_eq_nil_of_build samplePlan _ ⟨[], (), []⟩ Registry.plain_standard hnames hbuild⟩

end Plan
end SignalTree
