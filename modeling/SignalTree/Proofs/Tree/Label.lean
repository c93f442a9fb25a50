import SignalTree.Proofs.Tree.Address
import SignalTree.Proofs.Tree.Lifetime

/-!
# Label — the errors of a component name its path

When a component comes into a tree, its options and its signals get a label, put together from the
path of the parent as it is then.  The path of a component, on the other hand, is put together when
somebody asks for it.  The two agree for ever, because nothing moves a component or renames it.

* `Component.Stays`: what nothing changes of a component while it is there;
* `Tree.Origin`, `origin_perform`: where the components after an action come from;
* `Tree.Labelled`: each label is that of the parent with the name behind it;
* `Labelled.eq_pathText`: then each label is the path;
* `Course.labelled`, `Course.stays`: what a course keeps true of labels, and of places.
-/

namespace SignalTree

variable {σ η : Type}

namespace Component

/-- The label of the options and of the signals, under which errors name the component. -/
structure Labelled (c : Component σ η) (path : String) : Prop where
  options : c.options.owner = path
  signals : c.signals.owner = path

/-- What stays the same of a component while it is there. -/
structure Stays (c d : Component σ η) : Prop where
  name : d.name = c.name
  type : d.type = c.type
  parent : d.parent = c.parent
  labels : ∀ path, c.Labelled path → d.Labelled path

namespace Stays

variable {c d e : Component σ η}

theorem refl (c : Component σ η) : c.Stays c := ⟨rfl, rfl, rfl, fun _ h => h⟩

theorem trans (h : c.Stays d) (h' : d.Stays e) : c.Stays e :=
  ⟨h'.name.trans h.name, h'.type.trans h.type, h'.parent.trans h.parent,
    fun path hc => h'.labels path (h.labels path hc)⟩

end Stays
end Component

namespace Tree

open World (KeepsLabels)

variable {t t' : Tree σ η} {k parent : NodeId} {name : String} {names : List String}
  {c d pc : Component σ η}

/-! ## What an action leaves and what it makes -/

/-- Where a component of the tree after an action comes from: it was there before, or it has come
under a parent that was there. -/
inductive Origin (t : Tree σ η) (k : NodeId) (d : Component σ η) : Prop where
  | kept {c : Component σ η} (hc : t.get? k = some c) (hstays : c.Stays d)
  | fresh {parent : NodeId} {pc : Component σ η} (hk : k = t.next)
      (hparent : d.parent = some parent)
      (hpc : t.get? parent = some pc) (hlabel : d.Labelled (t.childPath parent d.name))

theorem origin_modify {f : Component σ η → Component σ η} {id : NodeId}
    (hf : ∀ c, t.get? id = some c → c.Stays (f c)) (hd : (t.modify id f).get? k = some d) :
    t.Origin k d := by
  rcases get?_modify_eq_some_iff.1 hd with ⟨c, hc, rfl⟩
  split
  · rename_i hk
    exact .kept hc (hf c (hk ▸ hc))
  · exact .kept hc (.refl c)

theorem origin_attachTo (ht : t.Rooted) (hpc : t.get? parent = some pc)
    (hd : (t.attachTo parent name (c.placed name (some parent) (t.childPath parent name))).get? k =
      some d) : t.Origin k d := by
  rw [ht.get?_attachTo_eq hpc] at hd
  split at hd
  · rename_i hk
    have hparent : t.get? k = some pc := by rw [hk, hpc]
    rw [← Option.some.inj hd]
    exact .kept hparent ⟨rfl, rfl, rfl, fun _ h => ⟨h.options, h.signals⟩⟩
  · split at hd
    · rename_i hnext
      rw [← Option.some.inj hd]
      exact .fresh hnext rfl hpc ⟨rfl, rfl⟩
    · exact .kept hd (.refl d)

/-- An action that leaves the labels alone takes components as they are, or adds a new one. -/
theorem Effect.origin {a : World.Action σ η} {r : Except Error (Option NodeId)}
    (h : t.Effect a r t') (ha : KeepsLabels t a) (ht : t.Rooted) (hd : t'.get? k = some d) :
    t.Origin k d := by
  cases h with
  | failed a e => exact .kept hd (.refl d)
  | created _ hpc _ _ path hpath => exact origin_attachTo ht hpc (hpath ▸ hd)
  | added hpc _ _ path hpath => exact origin_attachTo ht hpc (hpath ▸ hd)
  | removed _ _ =>
    rcases get?_detachFrom_eq_some_iff.1 hd with ⟨_, c, hc, rfl⟩
    split
    · exact .kept hc ⟨rfl, rfl, rfl, fun _ h => ⟨h.options, h.signals⟩⟩
    · exact .kept hc (.refl c)
  | linked _ _ =>
    refine origin_modify ?_ hd
    exact fun c _ => ⟨rfl, rfl, rfl, fun _ h => ⟨h.options, h.signals⟩⟩
  | unlinked _ _ =>
    refine origin_modify ?_ hd
    exact fun c _ => ⟨rfl, rfl, rfl, fun _ h => ⟨h.options, h.signals⟩⟩
  | revised id options signals =>
    refine origin_modify ?_ hd
    intro c hc
    rcases ha c hc with ⟨hoptions, hsignals⟩
    exact ⟨rfl, rfl, rfl, fun _ h => ⟨hoptions.trans h.options, hsignals.trans h.signals⟩⟩
  | surrounded env => exact .kept hd (.refl d)
  | rebuilt r => exact .kept hd (.refl d)

theorem Effect.root_eq {a : World.Action σ η} {r : Except Error (Option NodeId)}
    (h : t.Effect a r t') : t'.root = t.root := by
  cases h <;> rfl

/-! ## Labels and paths -/

/-- The label of the root is its path, and every other label is that of the parent with the name
behind it. -/
structure Labelled (t : Tree σ η) : Prop where
  root : ∀ r, t.get? t.root = some r → r.Labelled (Plan.pathOfNames [])
  below : ∀ k c p pc, t.get? k = some c → k ≠ t.root → c.parent = some p → t.get? p = some pc →
    c.Labelled (join pc.options.owner c.name)

theorem Names.pathText_eq (h : t.Names k names) : t.pathText k = Plan.pathOfNames names := by
  rw [pathText, h.pathOf_eq]
  simp [Uri.component, Uri.text, Uri.componentScheme, Plan.pathOfNames, ← String.append_assoc]

namespace Labelled

theorem new (rootName : String) (registry : Registry σ η) :
    (Tree.new rootName registry).Labelled where
  root := by
    intro r hr
    rw [(get?_new hr).2]
    exact ⟨rfl, rfl⟩
  below := by
    intro k c p pc hc hne
    exact absurd (get?_new hc).1 hne

/-- The labels are put together on the way down as the path is on the way up. -/
theorem of_names (h : t.Labelled) (hnames : t.Names k names) (hc : t.get? k = some c) :
    c.Labelled (Plan.pathOfNames names) := by
  induction hnames generalizing c with
  | root hr _ => exact h.root c hc
  | @child p k pc c' names hparent hpc _ hc' hne hp _ _ ih =>
    obtain rfl : c' = c := Option.some.inj (hc'.symm.trans hc)
    have hsegments : ∀ n ∈ names, Plan.IsSegment n := fun n hn =>
      Plan.isSegment_of_nameFault (hparent.valid n hn)
    have hlabel := h.below k c' p pc hc hne hp hpc
    rw [(ih hpc).options, Plan.join_pathOfNames hsegments] at hlabel
    exact hlabel

/-- Every label is the path. -/
theorem eq_pathText (h : t.Labelled) (ht : t.Rooted) (hc : t.get? k = some c) :
    c.Labelled (t.pathText k) := by
  rcases ht.exists_names (contains_iff.2 ⟨c, hc⟩) with ⟨names, hnames⟩
  rw [hnames.pathText_eq]
  exact h.of_names hnames hc

/-- The path of a component is that of its parent with the name behind it. -/
theorem pathText_eq (h : t.Labelled) (ht : t.Rooted) (hd : t.get? k = some d)
    (hparent : d.parent = some parent) : t.pathText k = t.childPath parent d.name := by
  have hne : k ≠ t.root := by
    rintro rfl
    rw [ht.root_orphan d hd] at hparent
    cases hparent
  rcases ht.owned k d hd hne with ⟨_, p, pc, hp, _, hpc, _⟩
  obtain rfl : parent = p := Option.some.inj (hparent.symm.trans hp)
  rw [childPath, ← (h.eq_pathText ht hpc).options, ← (h.eq_pathText ht hd).options]
  exact (h.below k d parent pc hd hne hp hpc).options

/-- A component that keeps its labels keeps its path. -/
theorem pathOf_eq (h : t.Labelled) (ht : t.Rooted) (h' : t'.Labelled) (ht' : t'.Rooted)
    (hc : t.get? k = some c) (hd : t'.get? k = some d) (hstays : c.Stays d) :
    t'.pathOf k = t.pathOf k := by
  rcases ht.exists_names (contains_iff.2 ⟨c, hc⟩) with ⟨names, hnames⟩
  rcases ht'.exists_names (contains_iff.2 ⟨d, hd⟩) with ⟨names', hnames'⟩
  have hlabel := hstays.labels _ (h.of_names hnames hc)
  have hpaths : Plan.pathOfNames names = Plan.pathOfNames names' :=
    hlabel.options.symm.trans (h'.of_names hnames' hd).options
  have hsame : names = names' := Plan.pathOfNames_injective
    (fun n hn => Plan.isSegment_of_nameFault (hnames.valid n hn))
    (fun n hn => Plan.isSegment_of_nameFault (hnames'.valid n hn)) hpaths
  rw [hnames.pathOf_eq, hnames'.pathOf_eq, hsame]

/-- The step lemma. -/
theorem of_origin (h : t.Labelled) (ht : t.Rooted) (hroot : t'.root = t.root)
    (horigin : ∀ k d, t'.get? k = some d → t.Origin k d) : t'.Labelled := by
  -- what was there before has its label still
  have hkept : ∀ {k c}, t.get? k = some c → ∀ d, t'.get? k = some d → c.Stays d := by
    intro k c hc d hd
    cases horigin k d hd with
    | kept hc' hstays =>
      rw [Option.some.inj (hc.symm.trans hc')]
      exact hstays
    | fresh hk _ _ _ => exact absurd hk (ht.ids_lt_next k c hc).ne
  refine ⟨?_, ?_⟩
  · intro r hr
    rw [hroot] at hr
    cases horigin _ r hr with
    | kept hc hstays => exact hstays.labels _ (h.root _ hc)
    | fresh hk _ _ _ => exact absurd hk ht.root_lt_next.ne
  · intro k d p pd hd hne hp hpd
    rw [hroot] at hne
    cases horigin k d hd with
    | kept hc hstays =>
      rename_i c
      rcases ht.owned k c hc hne with ⟨_, q, qc, hq, _, hqc, _⟩
      obtain rfl : p = q := Option.some.inj (hp.symm.trans (hstays.parent.trans hq))
      have hlabel := hstays.labels _ (h.below k c p qc hc hne hq hqc)
      rw [hstays.name, ((hkept hqc pd hpd).labels _ (h.eq_pathText ht hqc)).options,
        ← (h.eq_pathText ht hqc).options]
      exact hlabel
    | fresh _ hparent hpc hlabel =>
      obtain rfl := Option.some.inj (hp.symm.trans hparent)
      rw [((hkept hpc pd hpd).labels _ (h.eq_pathText ht hpc)).options]
      exact hlabel

end Labelled

/-- A later state of a tree: what was there, or has come and gone, is as it was or gone. -/
structure Later (t t' : Tree σ η) : Prop where
  next_le : t.next ≤ t'.next
  stays : ∀ k d, t'.get? k = some d → k < t.next → ∃ c, t.get? k = some c ∧ c.Stays d

theorem Later.refl (t : Tree σ η) : t.Later t := ⟨le_refl _, fun _ d hd _ => ⟨d, hd, .refl d⟩⟩

/-- The step lemma. -/
theorem Later.of_origin {t'' : Tree σ η} (h : t.Later t') (hnext : t'.next ≤ t''.next)
    (horigin : ∀ k d, t''.get? k = some d → t'.Origin k d) : t.Later t'' where
  next_le := h.next_le.trans hnext
  stays := by
    intro k d hd hold
    cases horigin k d hd with
    | kept hc hstays =>
      rcases h.stays k _ hc hold with ⟨c, hc, hstays'⟩
      exact ⟨c, hc, hstays'.trans hstays⟩
    | fresh hk _ _ _ => exact absurd hk (hold.trans_le h.next_le).ne

end Tree

/-! ## Courses -/

namespace World

variable {u v w : World σ η}

/-- A course that leaves the labels alone keeps them true. -/
theorem Course.labelled (h : Course KeepsLabels u v) (hu : u.tree.Rooted ∧ u.tree.Labelled) :
    v.tree.Rooted ∧ v.tree.Labelled := by
  refine h.keeps (P := fun t => t.Rooted ∧ t.Labelled)
    (fun w call b a => Attempts.keepsLabels) ?_ hu
  rintro w a ha ⟨hrooted, hlabelled⟩
  have heffect := w.perform_effect a
  refine ⟨rooted_perform a hrooted, ?_⟩
  exact hlabelled.of_origin hrooted heffect.root_eq fun k d hd => heffect.origin ha hrooted hd

/-- It leaves components as they were, as far as they are still there. -/
theorem Course.later (h : Course KeepsLabels u v) (hu : u.tree.Rooted) : u.tree.Later v.tree := by
  have hkept : v.tree.Rooted ∧ u.tree.Later v.tree := by
    refine h.keeps (P := fun t => t.Rooted ∧ u.tree.Later t)
      (fun w call b a => Attempts.keepsLabels) ?_ ⟨hu, .refl _⟩
    rintro w a ha ⟨hrooted, hlater⟩
    have heffect := w.perform_effect a
    refine ⟨rooted_perform a hrooted, ?_⟩
    exact hlater.of_origin heffect.next_le fun k d hd => heffect.origin ha hrooted hd
  exact hkept.2

end World
end SignalTree
