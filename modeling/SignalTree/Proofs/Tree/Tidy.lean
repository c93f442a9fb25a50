import SignalTree.Proofs.Settings.Run
import SignalTree.Proofs.Tree.Rooted

/-!
# Tidy — trees whose options were declared and changed

The options of a component, and those that describe the arguments of its signals, are declared one
by one, and changed or overwritten by name.  A program does so in builders, in components that it
adds, and in place.  If what it puts into a tree is made of such options, then all options in the
tree are.

* `Signal.Orderly`, `Component.Orderly`, `Registry.Orderly`: what is made of such options;
* `Tree.Orderly`, `Effect.orderly`: what an action keeps true;
* `World.Tidy`: the condition on what a program puts into a tree;
* `Course.orderly`: under this condition every course keeps it true.
-/

namespace SignalTree

variable {σ η : Type}

/-! ## Signals and components -/

/-- The options that describe the arguments of a signal, kept or to be built. -/
structure Signal.Orderly (s : Signal σ η) : Prop where
  built : ∀ o, s.built = some o → o.Orderly
  builder : ∀ f, s.signature = some f → ∀ owner env o env',
    f (.empty owner) env = (.ok o, env') → o.Orderly

/-- The options of a component and those of its signals. -/
structure Component.Orderly (c : Component σ η) : Prop where
  options : c.options.Orderly
  signals : ∀ p ∈ c.signals.items, p.2.Orderly

/-- The builders make such components. -/
def Registry.Orderly (r : Registry σ η) : Prop :=
  ∀ type builder name env c env', r.builder type = .ok builder →
    builder name env = (.ok c, env') → c.Orderly

/-- The description that is built is made of such options, and so is the one that is kept. -/
theorem Signal.Orderly.buildSignature {s : Signal σ η} (h : s.Orderly) (owner : String)
    (env : Env σ) :
    (s.buildSignature owner env).2.1.Orderly ∧
      ∀ o, (s.buildSignature owner env).1 = .ok o → o.Orderly := by
  unfold Signal.buildSignature
  cases hbuilt : s.built with
  | some o =>
    refine ⟨h, ?_⟩
    rintro _ ⟨⟩
    exact (h.built o hbuilt).relabel owner
  | none =>
    cases hsignature : s.signature with
    | none =>
      have hempty := Settings.Holds.empty (σ := σ) (P := fun _ s => s.Made) owner
      refine ⟨⟨?_, by simp⟩, ?_⟩
      · rintro _ ⟨⟩
        exact hempty
      · rintro _ ⟨⟩
        exact hempty
    | some builder =>
      rcases hresult : builder (.empty owner) env with ⟨result, env'⟩
      cases result with
      | error e =>
        simp only [hresult]
        exact ⟨h, by simp⟩
      | ok o =>
        have ho := h.builder builder hsignature owner env o env' hresult
        simp only [hresult]
        refine ⟨⟨?_, fun f hf => h.builder f (hsignature.trans hf)⟩, ?_⟩
        · rintro _ ⟨⟩
          exact ho
        · rintro _ ⟨⟩
          exact ho.relabel owner

/-- A signal that every component answers describes its arguments by declaring them. -/
theorem Builtin.orderly_signal (b : Builtin) : (b.signal : Signal σ η).Orderly := by
  have hname : ∀ f, some (nameSignature (σ := σ)) = some f → ∀ owner env o env',
      f (.empty owner) env = (.ok o, env') → o.Orderly := by
    rintro _ ⟨⟩ owner env o env' h
    exact (Settings.Holds.empty owner).add (fun _ hs => hs) (Prod.mk.inj h).1
  refine ⟨by simp [signal], ?_⟩
  cases b with
  | createComponent =>
    rintro _ ⟨⟩ owner env o env' h
    rcases bind_eq_ok_iff.1 (Prod.mk.inj h).1 with ⟨o₁, ho₁, ho⟩
    exact ((Settings.Holds.empty owner).add (fun _ hs => hs) ho₁).add (fun _ hs => hs) ho
  | deleteComponent => exact hname
  | signature => exact hname
  | _ => simp [signal, signatureBuilder]

theorem Component.orderly_new (name type : String) :
    (Component.new name type : Component σ η).Orderly := by
  refine ⟨.empty name, ?_⟩
  intro p hp
  rcases List.mem_map.1 hp with ⟨b, -, rfl⟩
  exact b.orderly_signal

theorem Component.Orderly.placed {c : Component σ η} (h : c.Orderly) (name : String)
    (parent : Option NodeId) (path : String) : (c.placed name parent path).Orderly :=
  ⟨h.options.relabel path, h.signals⟩

theorem Registry.orderly_standard : (Registry.standard : Registry σ η).Orderly := by
  intro type builder name env c env' hb hc
  rw [builder_standard hb] at hc
  have hnew : Component.new name Builtin.groupType = c := by
    simpa [groupBuilder] using (Prod.mk.inj hc).1
  exact hnew ▸ Component.orderly_new name Builtin.groupType

/-! ## Trees -/

/-- What a program puts into a tree is made of options that were declared and changed. -/
def World.Tidy (t : Tree σ η) : World.Action σ η → Prop
  | .addChild _ c => c.Orderly
  | .builders r => r.Orderly
  | .revise id options signals => ∀ c, t.get? id = some c → c.Orderly →
      ({ c with options := options c.options, signals := signals c.signals } :
        Component σ η).Orderly
  | _ => True

namespace Tree

variable {t t' : Tree σ η} {id : NodeId}

/-- All components of the tree, and those that its builders may make. -/
structure Orderly (t : Tree σ η) : Prop where
  components : ∀ id c, t.get? id = some c → c.Orderly
  registry : t.registry.Orderly

namespace Orderly

theorem new (rootName : String) {registry : Registry σ η} (hregistry : registry.Orderly) :
    (Tree.new rootName registry).Orderly where
  components := by
    intro id c hc
    rw [(get?_new hc).2]
    exact (Component.orderly_new _ _).placed _ _ _
  registry := hregistry

theorem modify (h : t.Orderly) {f : Component σ η → Component σ η}
    (hf : ∀ c, t.get? id = some c → c.Orderly → (f c).Orderly) : (t.modify id f).Orderly where
  components := by
    intro k d hd
    rcases get?_modify_eq_some_iff.1 hd with ⟨c, hc, rfl⟩
    split
    · rename_i hk
      exact hf c (hk ▸ hc) (h.components k c hc)
    · exact h.components k c hc
  registry := h.registry

theorem attachTo (h : t.Orderly) (ht : t.Rooted) {parent : NodeId} {pc c : Component σ η}
    (hpc : t.get? parent = some pc) (hc : c.Orderly) (name : String) :
    (t.attachTo parent name c).Orderly where
  components := by
    intro k d hd
    rw [ht.get?_attachTo_eq hpc] at hd
    split at hd
    · have hparent := h.components parent pc hpc
      rw [← Option.some.inj hd]
      exact ⟨hparent.options, hparent.signals⟩
    · split at hd
      · rw [← Option.some.inj hd]
        exact hc
      · exact h.components k d hd
  registry := h.registry

end Orderly

/-- The step lemma. -/
theorem Effect.orderly {a : World.Action σ η} {r : Except Error (Option NodeId)}
    (h : t.Effect a r t') (ha : World.Tidy t a) (ht : t.Rooted) (horderly : t.Orderly) :
    t'.Orderly := by
  cases h with
  | failed a e => exact horderly
  | @created parent type name c pc hmakes hpc _ _ path _ =>
    have hc : c.Orderly := by
      rcases hmakes with ⟨builder, name, env, made, env', hbuilder, hmade, rfl⟩
      have hmade := horderly.registry type builder name env made env' hbuilder hmade
      exact ⟨hmade.options, hmade.signals⟩
    exact horderly.attachTo ht hpc (hc.placed _ _ path) name
  | added hpc _ _ path _ => exact horderly.attachTo ht hpc (.placed ha _ _ path) _
  | removed _ _ =>
    refine ⟨fun k d hd => ?_, horderly.registry⟩
    rcases get?_detachFrom_eq_some_iff.1 hd with ⟨_, c, hc, rfl⟩
    have hold := horderly.components k c hc
    split
    · exact ⟨hold.options, hold.signals⟩
    · exact hold
  | linked _ _ => exact horderly.modify fun c _ hc => ⟨hc.options, hc.signals⟩
  | unlinked _ _ => exact horderly.modify fun c _ hc => ⟨hc.options, hc.signals⟩
  | revised id options signals => exact horderly.modify ha
  | surrounded env => exact horderly
  | rebuilt r => exact ⟨horderly.components, ha⟩

end Tree

/-! ## Courses -/

namespace World

variable {u v w : World σ η}

/-- Built-in signals change options by name and keep descriptions that they have built. -/
theorem Attempts.tidy {call : Call} {b : Builtin} {a : Action σ η} (h : w.Attempts call b a) :
    Tidy w.tree a := by
  cases h with
  | configure hc =>
    intro c hc' horderly
    rw [Option.some.inj (hc.symm.trans hc')]
    exact ⟨horderly.options.setEntries Settings.kept_made _ _, horderly.signals⟩
  | create type name => trivial
  | delete name => trivial
  | describe owner hc hs =>
    intro c hc' horderly
    obtain rfl := Option.some.inj (hc.symm.trans hc')
    have hold := horderly.signals _ (Keyed.mem_of_lookup_eq_some hs)
    refine ⟨horderly.options, fun p hp => ?_⟩
    rcases Keyed.mem_of_mem_modify hp with hp | ⟨_, _, rfl⟩
    · exact horderly.signals p hp
    · exact (hold.buildSignature owner w.env).1

/-- A course under this condition keeps all options in the tree in order. -/
theorem Course.orderly (h : Course Tidy u v) (hu : u.tree.Rooted ∧ u.tree.Orderly) :
    v.tree.Rooted ∧ v.tree.Orderly := by
  refine h.keeps (P := fun t => t.Rooted ∧ t.Orderly) (fun w call b a => Attempts.tidy) ?_ hu
  rintro w a ha ⟨hrooted, horderly⟩
  exact ⟨rooted_perform a hrooted, (w.perform_effect a).orderly ha hrooted horderly⟩

end World
end SignalTree
