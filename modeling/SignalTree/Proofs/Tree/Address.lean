import SignalTree.Proofs.Plan.Path
import SignalTree.Proofs.Tree.Rooted
import SignalTree.Proofs.Tree.Route
import SignalTree.Proofs.Wire.RoundTrip

/-!
# Address — the path of a component leads back to it

The path of a component is put together from names on the way up, and a path is followed name by
name on the way down.  In a rooted tree the two ways are one, so a path is the address of one
component only, from wherever it is followed.

* `Tree.Names`: the names from below the root down to a component;
* `Rooted.exists_names`: every live component has such names;
* `Names.pathOf_eq`, `Names.leads`: they make up its path, and they lead to it;
* `Rooted.resolve_pathOf`: the path is resolved to the component;
* `World.resolve_pathOf_of_run`: so it is after every run, also for the path in a reply.
-/

namespace SignalTree

variable {σ η : Type}

namespace Tree

variable {t : Tree σ η} {id j k p origin : NodeId} {name : String} {names : List String}
  {c pc : Component σ η}

/-! ## Names -/

/-- The characters between the slashes of a path are those of the names. -/
theorem mem_intercalate_iff {c : Char} (hc : c ≠ '/') :
    c ∈ ("/".intercalate names).toList ↔ ∃ n ∈ names, c ∈ n.toList := by
  induction names with
  | nil => simp
  | cons n rest ih =>
    by_cases hrest : rest = []
    · simp [hrest]
    · rw [String.intercalate_cons_of_ne_nil hrest, String.toList_append, List.mem_append, ih,
        String.toList_append]
      simp [hc]

/-- The names from below the root down to a component, each of them in the table of its owner. -/
inductive Names (t : Tree σ η) : NodeId → List String → Prop where
  | root {r : Component σ η} (hr : t.get? t.root = some r) (horphan : r.parent = none) :
      Names t t.root []
  | child {p k : NodeId} {pc c : Component σ η} {names : List String} (hnames : Names t p names)
      (hpc : t.get? p = some pc) (hchild : pc.child? c.name = some k) (hc : t.get? k = some c)
      (hne : k ≠ t.root) (hp : c.parent = some p) (hlt : p < k) (hvalid : nameFault c.name = none) :
      Names t k (names ++ [c.name])

/-- Every live component has names that lead to it. -/
theorem Rooted.exists_names (h : t.Rooted) (hk : t.contains k = true) :
    ∃ names, t.Names k names := by
  induction k using Nat.strong_induction_on with
  | _ k ih =>
    rcases contains_iff.1 hk with ⟨c, hc⟩
    by_cases hroot : k = t.root
    · subst hroot
      exact ⟨[], .root hc (h.root_orphan c hc)⟩
    · rcases h.owned k c hc hroot with ⟨hvalid, p, pc, hp, hlt, hpc, hchild⟩
      rcases ih p hlt (contains_iff.2 ⟨pc, hpc⟩) with ⟨names, hnames⟩
      exact ⟨names ++ [c.name], .child hnames hpc hchild hc hroot hp hlt hvalid⟩

namespace Names

theorem valid (h : t.Names k names) : ∀ n ∈ names, nameFault n = none := by
  induction h with
  | root _ _ => simp
  | child _ _ _ _ _ _ _ hvalid ih =>
    intro n hn
    rcases List.mem_append.1 hn with hn | hn
    · exact ih n hn
    · rw [List.mem_singleton.1 hn]
      exact hvalid

/-- The way up passes components that are older and older, so it ends in time. -/
theorem ancestry_eq (h : t.Names k names) {fuel : Nat} (hfuel : Grown.elders t k ≤ fuel) :
    t.ancestry fuel k = .ok names := by
  induction h generalizing fuel with
  | @root r hr horphan =>
    have hpos : 0 < Grown.elders t t.root :=
      List.countP_pos_iff.2 ⟨t.root, mem_ids_iff.2 ⟨r, hr⟩, by simp⟩
    obtain ⟨fuel, rfl⟩ := Nat.exists_eq_add_of_lt (hpos.trans_le hfuel)
    have hcomponent : t.component t.root = .ok r := component_eq_ok_iff.2 hr
    simp [ancestry, hcomponent, horphan, bind, Except.bind, pure, Except.pure]
  | @child p k pc c names _ _ _ hc _ hp hlt _ ih =>
    have hless : Grown.elders t p < Grown.elders t k :=
      Grown.elders_lt_elders t (mem_ids_iff.2 ⟨c, hc⟩) hlt
    obtain ⟨fuel, rfl⟩ := Nat.exists_eq_add_one_of_ne_zero (by omega : fuel ≠ 0)
    have hrest : t.ancestry fuel p = .ok names := ih (by omega)
    have hcomponent : t.component k = .ok c := component_eq_ok_iff.2 hc
    simp [ancestry, hcomponent, hp, hrest, bind, Except.bind, pure, Except.pure]

/-- The names make up the path. -/
theorem pathOf_eq (h : t.Names k names) :
    t.pathOf k = .ok (.component ("/" ++ "/".intercalate names)) := by
  rw [pathOf, h.ancestry_eq (Grown.elders_le_size t k)]
  rfl

theorem goes_nil (id : NodeId) : t.Goes id [] id := by simp [Goes]

/-- A valid name leads to the child of that name. -/
theorem goes_of_child? (hvalid : nameFault name = none) (hpc : t.get? p = some pc)
    (hchild : pc.child? name = some k) : t.Goes p name.toList k := by
  rcases nameFault_eq_none_iff.1 hvalid with ⟨hempty, _, hdot, hdots, _⟩
  have hstay : ¬ (name.toList = [] ∨ name.toList = ['.']) := by
    rintro (h | h)
    · exact hempty (String.toList_eq_nil_iff.1 h)
    · exact hdot (String.toList_inj.1 h)
  have hup : ¬ name.toList = ['.', '.'] := fun h => hdots (String.toList_inj.1 h)
  rw [Goes, if_neg hstay]
  exact ⟨pc, hpc, by rw [if_neg hup, String.ofList_toList]; exact hchild⟩

/-- The names lead to the component. -/
theorem leads (h : t.Names k names) : t.Leads t.root (names.map String.toList) k := by
  induction h with
  | root _ _ => exact .arrive _
  | child _ hpc hchild _ _ _ _ hvalid ih =>
    rw [List.map_append]
    exact ih.append (.go (goes_of_child? hvalid hpc hchild) (.arrive _))

/-- So does the path that they make up, because no name holds a slash or is empty. -/
theorem route (h : t.Names k names) (origin : NodeId) :
    t.Route origin ("/" ++ "/".intercalate names).toList k := by
  have htext : ("/" ++ "/".intercalate names).toList = '/' :: ("/".intercalate names).toList := by
    simp
  rw [Route, htext, if_pos List.head?_cons, segments, if_pos rfl]
  refine .go (goes_nil t.root) ?_
  by_cases hnames : names = []
  · subst hnames
    exact .go (goes_nil t.root) h.leads
  · rw [segments_intercalate hnames fun n hn => (nameFault_eq_none_iff.1 (h.valid n hn)).2.1]
    exact h.leads

/-- The path holds no blanks. -/
theorem not_blank (h : t.Names k names) :
    ∀ c ∈ ("/" ++ "/".intercalate names).toList, Text.isBlank c = false := by
  intro c hc
  by_cases hslash : c = '/'
  · subst hslash
    decide
  · have hc' : c ∈ ("/".intercalate names).toList := by simpa [hslash] using hc
    rcases (mem_intercalate_iff hslash).1 hc' with ⟨n, hn, hcn⟩
    exact (nameFault_eq_none_iff.1 (h.valid n hn)).2.2.2.2 c hcn

end Names

/-! ## Paths -/

/-- A component path is read without its scheme. -/
theorem pathBody_text {u : Uri} (hu : u.isComponent = true)
    (hblank : ∀ c ∈ u.path.toList, Text.isBlank c = false) :
    pathBody u.text = some u.path.toList := by
  have hcomponent : u = .component u.path := by
    rcases u with ⟨scheme, path⟩
    have hscheme : scheme = some Uri.componentScheme := by simpa [Uri.isComponent] using hu
    rw [hscheme]
    rfl
  have htext : u.text.toList = Uri.componentScheme.toList ++ ':' :: u.path.toList := by
    rw [hcomponent]
    exact Uri.toList_text_component u.path
  have htrim : Text.trim u.text.toList = u.text.toList := by
    apply Text.trim_of_no_blank
    intro c hc
    rw [hcomponent] at hc
    rcases Uri.mem_text_component hc with hc | hc
    · exact hc.not_blank
    · exact hblank c hc
  rw [pathBody_eq_some_iff, htrim, htext]
  exact Or.inr rfl

theorem resolve_text_eq_ok_iff {u : Uri} (hu : u.isComponent = true)
    (hblank : ∀ c ∈ u.path.toList, Text.isBlank c = false) :
    t.resolve origin u.text = .ok k ↔ t.Route origin u.path.toList k := by
  rw [resolve_eq_ok_iff_route, pathBody_text hu hblank]
  simp

/-- The path of a component is resolved to it, from wherever it is followed. -/
theorem Rooted.resolve_pathOf (h : t.Rooted) (hk : t.contains k = true) :
    ∃ u, t.pathOf k = .ok u ∧ ∀ origin, t.resolve origin u.text = .ok k := by
  rcases h.exists_names hk with ⟨names, hnames⟩
  refine ⟨_, hnames.pathOf_eq, ?_⟩
  intro origin
  exact (resolve_text_eq_ok_iff rfl hnames.not_blank).2 (hnames.route origin)

/-- The text of its path too. -/
theorem Rooted.resolve_pathText (h : t.Rooted) (hk : t.contains k = true) (origin : NodeId) :
    t.resolve origin (t.pathText k) = .ok k := by
  rcases h.resolve_pathOf hk with ⟨u, hu, hresolve⟩
  rw [pathText, hu]
  exact hresolve origin

/-- Two components that are there have different paths. -/
theorem Rooted.pathOf_injective (h : t.Rooted) (hj : t.contains j = true)
    (hk : t.contains k = true) (hsame : t.pathOf j = t.pathOf k) : j = k := by
  rcases h.resolve_pathOf hj with ⟨u, hu, hresolve⟩
  rcases h.resolve_pathOf hk with ⟨v, hv, hresolve'⟩
  have huv : u = v := Except.ok.inj ((hu.symm.trans hsame).trans hv)
  rw [← huv] at hresolve'
  exact Except.ok.inj ((hresolve t.root).symm.trans (hresolve' t.root))

end Tree

/-! ## Replies -/

namespace World

variable {u w w' : World σ η}

/-- A reply names the signal and the component that was called, and holds the signal's reply. -/
theorem dispatchDocument_eq_ok {behaviour : Behaviour σ η} {d reply : Wire.Document}
    (h : w.dispatchDocument behaviour d = (.ok reply, w')) :
    ∃ id f, w.tree.resolve w.tree.root d.receiver = .ok id ∧
      w.callSignal behaviour id d.target d.frame = (.ok f, w') ∧
      reply = ⟨d.target, w'.tree.pathText id, f.getD Frame.empty⟩ := by
  unfold dispatchDocument at h
  cases hresolve : w.tree.resolve w.tree.root d.receiver with
  | error e => simp [hresolve] at h
  | ok id =>
    rcases hcall : w.callSignal behaviour id d.target d.frame with ⟨result, v⟩
    cases result with
    | error e => simp [hresolve, hcall] at h
    | ok f =>
      simp only [hresolve, hcall, Prod.mk.injEq, Except.ok.injEq] at h
      rcases h with ⟨rfl, rfl⟩
      exact ⟨id, f, rfl, hcall, rfl⟩

/-- A text that is a document is dispatched like the document, after some messages. -/
theorem dispatchText_of_read {behaviour : Behaviour σ η} {text : String} {d : Wire.Document}
    (hread : Wire.readDocument text = .ok d) :
    w.dispatchText behaviour text =
      let result := (w.emitAll (Wire.documentMessages text)).dispatchDocument behaviour d
      (result.1.map fun reply => String.ofList (Wire.writeDocument reply), result.2) := by
  simp only [dispatchText, hread]

/-- A text that is answered is a document, and the answer is one too. -/
theorem dispatchText_eq_ok {behaviour : Behaviour σ η} {text out : String}
    (h : w.dispatchText behaviour text = (.ok out, w')) :
    ∃ d reply, Wire.readDocument text = .ok d ∧
      (w.emitAll (Wire.documentMessages text)).dispatchDocument behaviour d = (.ok reply, w') ∧
      out = String.ofList (Wire.writeDocument reply) := by
  cases hread : Wire.readDocument text with
  | error e => simp [dispatchText, hread] at h
  | ok d =>
    rw [dispatchText_of_read hread] at h
    rcases hcall : (w.emitAll (Wire.documentMessages text)).dispatchDocument behaviour d with
      ⟨result, v⟩
    cases result with
    | error e => simp [hcall, Except.map] at h
    | ok reply =>
      simp only [hcall, Prod.mk.injEq, Except.map, Except.ok.injEq] at h
      rcases h with ⟨rfl, rfl⟩
      exact ⟨d, reply, rfl, hcall, rfl⟩

/-- Messages change nothing but the surroundings. -/
theorem emitAll_eq (w : World σ η) (ms : List Message) : ∃ env, w.emitAll ms = { w with env } := by
  induction ms generalizing w with
  | nil => exact ⟨w.env, rfl⟩
  | cons m rest ih => exact ih (w.emit m)

/-- After every run a path is the address of one component, whatever its name is made of: it is
resolved to the component from everywhere, no other component has it, and the path in a reply leads
to the component that replied, as long as this is there. -/
theorem resolve_pathOf_of_run {rootName : String} {registry : Registry σ η} {env : Env σ}
    (hrun : Run ⟨Tree.new rootName registry, env⟩ w) :
    (∀ id, w.tree.contains id = true →
      ∃ u, w.tree.pathOf id = .ok u ∧ ∀ origin, w.tree.resolve origin u.text = .ok id) ∧
    (∀ a b, w.tree.contains a = true → w.tree.contains b = true →
      w.tree.pathOf a = w.tree.pathOf b → a = b) ∧
    (∀ behaviour, (∀ h call v, Run v (behaviour h call v).2) →
      ∀ text out w', w.dispatchText behaviour text = (.ok out, w') →
      ∃ d id reply, Wire.readDocument text = .ok d ∧
        w.tree.resolve w.tree.root d.receiver = .ok id ∧
        out = String.ofList (Wire.writeDocument reply) ∧
        (w'.tree.contains id = true →
          ∀ origin, w'.tree.resolve origin reply.receiver = .ok id)) := by
  have h : w.tree.Rooted := rooted_of_run hrun
  refine ⟨fun id hid => h.resolve_pathOf hid, fun a b ha hb => h.pathOf_injective ha hb, ?_⟩
  intro behaviour hbehaviour text out w' hdispatch
  rcases dispatchText_eq_ok hdispatch with ⟨d, reply, hread, hreply, hout⟩
  rcases w.emitAll_eq (Wire.documentMessages text) with ⟨env', hemit⟩
  rw [hemit] at hreply
  rcases dispatchDocument_eq_ok hreply with ⟨id, f, hresolve, _, hcall⟩
  refine ⟨d, id, reply, hread, hresolve, hout, ?_⟩
  intro hid origin
  -- the call is one step more of the run, so the tree is rooted after it too
  have hafter := (hrun.surroundings env').dispatchDocument (d := d)
    fun id h _ => hbehaviour h ⟨id, d.target, d.frame⟩ _
  rw [hreply] at hafter
  rw [hcall]
  exact (rooted_of_run hafter).resolve_pathText hid origin

/-- A component with a colon in its name, made after another one was removed, and one without. -/
def colonWorld : World Unit Unit :=
  let w := (rootAlone.createChild 0 Builtin.groupType "old").2
  let w := (w.removeChild 0 "old").2
  let w := (w.createChild 0 Builtin.groupType "a:b").2
  (w.createChild 0 Builtin.groupType "plain").2

theorem colonWorld_run : Run rootAlone colonWorld :=
  .createChild 0 _ "plain" (.createChild 0 _ "a:b" (.removeChild 0 "old"
    (.createChild 0 _ "old" (.start _))))

/-- A signal for it. -/
def colonCall : Wire.Document := ⟨"list_options", "cpath:/a:b", Frame.empty⟩

theorem resolve_pathOf_colonWorld :
    Run rootAlone colonWorld ∧ colonWorld.tree.pathOf 2 = .ok (.component "/a:b") ∧
      colonWorld.tree.resolve 1 "cpath:/a:b" = .ok 2 ∧
      ∃ out reply w',
        colonWorld.dispatchText (fun _ _ v => (.ok none, v))
          (String.ofList (Wire.writeDocument colonCall)) = (.ok out, w') ∧
        out = String.ofList (Wire.writeDocument reply) ∧
        w'.tree.resolve 1 reply.receiver = .ok 2 := by
  have h := resolve_pathOf_of_run colonWorld_run
  have hsendable : colonCall.Sendable := by
    refine ⟨by decide, by decide, ?_⟩
    simp only [colonCall, Frame.Sendable, Frame.empty, Entry.AllSendable]
    decide
  have hread := Wire.readDocument_received hsendable
  obtain ⟨out, w', hdispatch, htree⟩ : ∃ out w', colonWorld.dispatchText
      (fun _ _ v => (.ok none, v)) (String.ofList (Wire.writeDocument colonCall)) = (.ok out, w') ∧
        w'.tree = colonWorld.tree := by
    rcases colonWorld.emitAll_eq (Wire.documentMessages (String.ofList
      (Wire.writeDocument colonCall))) with ⟨env, hemit⟩
    rw [dispatchText_of_read hread, hemit]
    exact ⟨_, _, rfl, rfl⟩
  have hid : ∀ origin, colonWorld.tree.resolve origin "cpath:/a:b" = .ok 2 := by
    rcases h.1 2 rfl with ⟨u, hu, hresolve⟩
    have hpath : .component "/a:b" = u := Except.ok.inj hu
    rw [← hpath] at hresolve
    exact hresolve
  rcases h.2.2 _ (fun _ _ v => .start v) _ _ _ hdispatch with
    ⟨d, id, reply, hd, hresolve, hout, hreply⟩
  have hsame := Except.ok.inj (hread.symm.trans hd)
  rw [← hsame] at hresolve
  have hid2 : 2 = id := Except.ok.inj ((hid _).symm.trans hresolve)
  rw [← hid2, htree] at hreply
  refine ⟨colonWorld_run, rfl, hid 1, out, reply, w', hdispatch, hout, ?_⟩
  rw [htree]
  exact hreply rfl 1

end World
end SignalTree
