import SignalTree.Plan.Build
import SignalTree.Proofs.Plan.Reading
import SignalTree.Proofs.Settings.Run
import SignalTree.Proofs.Tree.Operation

/-!
# Failure — why the building of a plan fails

The check of a plan is about its structure: paths, types, and names that are taken.  Whatever else
fails while a plan is built concerns the value of an option, or the text of a name.  This file says
so for everything that the building does with options.

* `Error.IsStructural`: the failures that the check is there to exclude;
* `Plan.Benign`: a result that does not fail for such a reason;
* `Settings.Quiet`: options whose triggers never fail;
* `Registry.Reliable`: builders that never fail, and make such options.
-/

namespace SignalTree

/-- A path that leads nowhere, a type without a builder, or a name that is taken. -/
def Error.IsStructural : Error → Prop
  | .notFound _ => True
  | .unknownType _ => True
  | .nameTaken _ _ => True
  | _ => False

theorem Error.isStructural_located (segment : String) (e : Error) :
    (e.located segment).IsStructural ↔ e.IsStructural := by
  cases e <;> rfl

namespace Plan

variable {σ η α β : Type}

/-- If the result is a failure, it is none of the structure. -/
def Benign (r : Except Error α) : Prop := ∀ e, r = .error e → ¬ e.IsStructural

namespace Benign

theorem ok (a : α) : Benign (.ok a : Except Error α) := by
  intro e he
  cases he

theorem error {e : Error} (h : ¬ e.IsStructural) : Benign (.error e : Except Error α) := by
  intro e' he
  cases he
  exact h

theorem bind {r : Except Error α} (h : Benign r) {f : α → Except Error β}
    (hf : ∀ a, Benign (f a)) : Benign (r >>= f) := by
  cases r with
  | ok a => exact hf a
  | error e => exact error (h e rfl)

theorem map {r : Except Error α} (h : Benign r) (f : α → β) : Benign (r.map f) := by
  cases r with
  | ok a => exact ok (f a)
  | error e => exact error (h e rfl)

theorem located {e : Error} (h : ¬ e.IsStructural) (segment : String) :
    Benign (.error (e.located segment) : Except Error α) := by
  apply error
  rw [Error.isStructural_located]
  exact h

theorem locatedAt {r : Except Error α} (h : Benign r) (name : String) :
    Benign (locatedAt name r) := by
  cases r with
  | ok a => exact ok a
  | error e => exact located (h e rfl) name

end Benign

/-- A text that cannot be read is no failure of the structure. -/
theorem Benign.of_gives {P : α → Prop} {r : Except Error α} (h : Gives P r) : Benign r := by
  intro e he hstructural
  have hunreadable := h.of_eq_error he
  cases e <;> first | exact hunreadable.elim | exact hstructural.elim

theorem benign_toValue (v : Yaml) (kind : Kind) : Benign (v.toValue kind) :=
  .of_gives (Yaml.gives_toValue v kind)

/-! ## Declared options -/

theorem benign_allowedValues (kind : Kind) (i : Nat) (items : List Yaml) :
    Benign (allowedValues kind i items) := by
  induction items generalizing i with
  | nil => exact .ok _
  | cons v rest ih =>
    unfold allowedValues
    cases hv : v.toValue kind with
    | error e => exact .located (benign_toValue v kind e hv) _
    | ok value => exact (ih (i + 1)).map _

theorem benign_newSetting (name description : String) (default : Value) :
    Benign (Setting.new name description default : Except Error (Setting σ)) := by
  unfold Setting.new
  split
  · exact .error id
  · exact .ok _

theorem benign_checkKinds (s : Setting σ) (values : List Value) :
    Benign (values.forM s.checkKind) := by
  induction values with
  | nil => exact .ok _
  | cons v rest ih =>
    refine Benign.bind ?_ fun _ => ih
    unfold Setting.checkKind
    split
    · exact .ok _
    · exact .error id

theorem benign_restrictTo (s : Setting σ) (values : List Value) : Benign (s.restrictTo values) := by
  unfold Setting.restrictTo
  apply (benign_checkKinds s values).bind
  intro _
  extract_lets restricted
  split
  · exact .ok _
  · exact .error id

theorem benign_setting (name : String) (d : Declaration) :
    Benign (d.setting name : Except Error (Setting σ)) := by
  have hkind : Benign d.readKind := by
    unfold Declaration.readKind
    split
    · exact .ok _
    · exact .error id
  have hdefault : ∀ kind, Benign (d.readDefault kind) := by
    intro kind
    unfold Declaration.readDefault
    split
    · exact benign_toValue _ kind
    · exact .ok _
  unfold Declaration.setting
  apply (hkind.locatedAt name).bind
  intro kind
  apply ((hdefault kind).locatedAt name).bind
  intro default
  apply (benign_newSetting name d.description default).bind
  intro s
  extract_lets s
  split
  · exact .ok _
  · apply ((benign_allowedValues kind 0 d.restricted).locatedAt name).bind
    intro values
    exact benign_restrictTo s values

theorem triggers_restrictTo {s s' : Setting σ} {values : List Value}
    (h : s.restrictTo values = .ok s') : s'.triggers = s.triggers := by
  rw [(Setting.restrictTo_eq_ok_iff.1 h).2.1]

/-- A declared option has no triggers. -/
theorem triggers_setting {name : String} {d : Declaration} {s : Setting σ}
    (h : d.setting name = .ok s) : s.triggers = [] := by
  unfold Declaration.setting at h
  rcases bind_eq_ok_iff.1 h with ⟨kind, _, h⟩
  rcases bind_eq_ok_iff.1 h with ⟨default, _, h⟩
  rcases bind_eq_ok_iff.1 h with ⟨s₀, hnew, h⟩
  have hs₀ : s₀.triggers = [] := by rw [(Setting.new_eq_ok_iff.1 hnew).2]
  extract_lets s₁ at h
  split at h
  · exact (Except.ok.inj h) ▸ hs₀
  · rcases bind_eq_ok_iff.1 h with ⟨values, _, h⟩
    exact (triggers_restrictTo h).trans hs₀

end Plan

/-! ## Triggers -/

variable {σ η : Type}

namespace Setting

theorem triggers_set (s : Setting σ) (v : Value) (env : Env σ) :
    (s.set v env).2.1.triggers = s.triggers := by
  unfold set
  split
  · rfl
  · rfl

theorem benign_check (s : Setting σ) (v : Value) : Plan.Benign (s.check v) := by
  unfold check
  split
  · exact .error id
  · split
    · exact .error id
    · split
      · exact .error id
      · exact .ok _

theorem benign_set {s : Setting σ} (h : s.Quiet) (v : Value) (env : Env σ) :
    Plan.Benign (s.set v env).1 := by
  unfold set
  cases hcheck : s.check v with
  | error e => exact .error (benign_check s v e hcheck)
  | ok u =>
    have hrun : (s.commit v env).1 = .ok () := h.runTriggers_eq_ok s.name v 0 _
    rw [hrun]
    exact .ok _

end Setting

namespace Settings

/-- The triggers of the options never fail. -/
def Quiet (o : Settings σ) : Prop := ∀ p ∈ o.items, p.2.Quiet

theorem benign_get (o : Settings σ) (name : String) : Plan.Benign (o.get name) := by
  unfold get
  split
  · exact .ok _
  · exact .error id

theorem Quiet.of_get {o : Settings σ} (h : o.Quiet) {name : String} {s : Setting σ}
    (hs : o.get name = .ok s) : s.Quiet := by
  unfold get at hs
  cases hget : o.get? name with
  | none => simp [hget] at hs
  | some s' =>
    have hsame : s' = s := by simpa [hget] using hs
    exact hsame ▸ h (name, s') (Keyed.mem_of_lookup_eq_some hget)

theorem Quiet.replace {o : Settings σ} (h : o.Quiet) {s : Setting σ} (hs : s.Quiet)
    (name : String) : (o.replace name s).Quiet := by
  intro p hp
  rcases Keyed.mem_of_mem_modify hp with hold | ⟨q, _, hq⟩
  · exact h p hold
  · rw [hq]
    exact hs

theorem benign_set {o : Settings σ} (h : o.Quiet) (name : String) (v : Value) (env : Env σ) :
    Plan.Benign (o.set name v env).1 := by
  unfold set
  cases hget : o.get name with
  | error e => exact .error (benign_get o name e hget)
  | ok s => exact Setting.benign_set (h.of_get hget) v env

theorem Quiet.set {o : Settings σ} (h : o.Quiet) (name : String) (v : Value) (env : Env σ) :
    (o.set name v env).2.1.Quiet := by
  unfold Settings.set
  cases hget : o.get name with
  | error e => exact h
  | ok s =>
    have hs : (s.set v env).2.1.Quiet := by
      unfold Setting.Quiet
      rw [Setting.triggers_set]
      exact h.of_get hget
    exact h.replace hs name

theorem benign_insert (o : Settings σ) (s : Setting σ) : Plan.Benign (o.insert s) := by
  unfold insert
  split
  · exact .error id
  · exact .ok _

theorem Quiet.insert {o o' : Settings σ} (h : o.Quiet) {s : Setting σ} (hs : s.Quiet)
    (ho : o.insert s = .ok o') : o'.Quiet := by
  unfold Settings.insert at ho
  split at ho
  · cases ho
  · rw [← Except.ok.inj ho]
    intro p hp
    rcases List.mem_append.1 hp with hp | hp
    · exact h p hp
    · rw [List.mem_singleton.1 hp]
      exact hs

end Settings

/-- Builders that never fail, and make components without children whose triggers never fail. -/
def Registry.Reliable (r : Registry σ η) : Prop :=
  ∀ type builder, r.builder type = .ok builder → ∀ name env, ∃ c env',
    builder name env = (.ok c, env') ∧ c.children = [] ∧ c.options.Quiet

theorem Registry.reliable_standard : (Registry.standard : Registry σ η).Reliable := by
  intro type builder hbuilder name env
  rw [builder_standard hbuilder]
  refine ⟨.new name Builtin.groupType, env, rfl, rfl, ?_⟩
  intro p hp
  cases hp

end SignalTree
