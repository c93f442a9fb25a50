import SignalTree.Proofs.Keyed
import SignalTree.Proofs.Setting.Run
import SignalTree.Settings

/-!
# Run — options that declarations and changes lead to

The options of a component are declared one by one, each of them made on its own before, and they
are changed by name.  An option that is handed out to be changed can also be overwritten as a whole,
by an option that may have any name.  Whatever the order, and whichever of the changes fail, no two
options stand under one key, and each of them was made and changed.  They stand under their own
names as long as none is overwritten by an option of another name.

* `Setting.Made`: an option that was made and changed;
* `Settings.ReachedBy`, `Settings.Reached`: the options that the operations lead to;
* `Settings.Holds`: distinct keys, and a property of each option and its key;
* `ReachedBy.holds`: the run lemma, with `Settings.Orderly` and `Settings.Own` as instances.
-/

namespace SignalTree

variable {σ : Type}

namespace Setting

variable {s s' t : Setting σ} {env env' : Env σ} {c : Change σ} {r : Except Error Unit}

/-! ## One option -/

theorem Effect.name_eq (h : Effect s env r s' env') : s'.name = s.name := by
  cases h <;> rfl

theorem Run.name_eq (h : Run s t) : t.name = s.name := by
  induction h with
  | start => rfl
  | @change t c env hfits _ ih => exact (t.perform_effect hfits).name_eq.trans ih

/-- The option was made with a default, and changed since. -/
def Made (s : Setting σ) : Prop :=
  ∃ name description default s₀, Setting.new name description default = .ok s₀ ∧ Run s₀ s

theorem made_new {name description : String} {default : Value}
    (h : Setting.new name description default = .ok s) : s.Made :=
  ⟨name, description, default, s, h, .start⟩

namespace Made

theorem perform (h : s.Made) (env : Env σ) (hfits : c.Fits env) : (s.perform c env).2.1.Made := by
  rcases h with ⟨name, description, default, s₀, hnew, hrun⟩
  exact ⟨name, description, default, s₀, hnew, .change c env hfits hrun⟩

theorem name_filled (h : s.Made) : Text.blank s.name = false := by
  rcases h with ⟨name, description, default, s₀, hnew, hrun⟩
  rcases new_eq_ok_iff.1 hnew with ⟨hblank, rfl⟩
  rw [hrun.name_eq]
  exact hblank

theorem consistent (h : s.Made) : Consistent s.kind s := by
  rcases h with ⟨name, description, default, s₀, hnew, hrun⟩
  have hconsistent := hrun.consistent (consistent_new hnew)
  have hkind : s.kind = default.kind := hconsistent.default_kind
  rw [hkind]
  exact hconsistent

end Made
end Setting

namespace Settings

variable {o o' : Settings σ} {s : Setting σ} {name : String} {env : Env σ}

/-! ## Operations -/

theorem get_eq_ok_iff : o.get name = .ok s ↔ o.items.lookup name = some s := by
  cases h : o.items.lookup name with
  | none => simp [get, get?, h]
  | some t => simp [get, get?, h]

theorem insert_eq_ok_iff :
    o.insert s = .ok o' ↔
      o.items.lookup s.name = none ∧ o' = { o with items := o.items ++ [(s.name, s)] } := by
  cases h : o.items.lookup s.name with
  | none => simp [insert, Keyed.has, h, eq_comm]
  | some t => simp [insert, Keyed.has, h]

/-! ## Owners -/

theorem owner_set (o : Settings σ) (name : String) (v : Value) (env : Env σ) :
    (o.set name v env).2.1.owner = o.owner := by
  unfold Settings.set
  cases o.get name with
  | error e => rfl
  | ok s => rfl

theorem owner_setText (o : Settings σ) (name text : String) (env : Env σ) :
    (o.setText name text env).2.1.owner = o.owner := by
  unfold Settings.setText
  cases o.get name with
  | error e => rfl
  | ok s => rfl

theorem owner_setEntries (o : Settings σ) (entries : List (String × Entry)) (env : Env σ) :
    (o.setEntries env entries).2.1.owner = o.owner := by
  induction entries generalizing o env with
  | nil => rfl
  | cons p rest ih =>
    rcases p with ⟨key, e⟩
    have hset := o.owner_set key e.toValue env
    rcases hresult : o.set key e.toValue env with ⟨result, o', env'⟩
    rw [hresult] at hset
    cases result with
    | error e =>
      simp only [Settings.setEntries, hresult]
      exact hset
    | ok u =>
      simp only [Settings.setEntries, hresult]
      exact (ih o' env').trans hset

/-- The options that the operations on them lead to.  Each operation succeeds or fails, in some
surroundings.  `stored` says which options may overwrite the one under a name. -/
inductive ReachedBy (stored : String → Setting σ → Prop) : Settings σ → Prop where
  | empty (owner : String) : ReachedBy stored (.empty owner)
  | relabel {o : Settings σ} (owner : String) (h : ReachedBy stored o) :
      ReachedBy stored { o with owner }
  | insert {o o' : Settings σ} {s : Setting σ} (hs : s.Made) (ho : o.insert s = .ok o')
      (h : ReachedBy stored o) : ReachedBy stored o'
  | add {o o' : Settings σ} (name description : String) (default : Value)
      (ho : o.add name description default = .ok o') (h : ReachedBy stored o) : ReachedBy stored o'
  /-- An option is changed by itself, and put back into its place. -/
  | change {o : Settings σ} {s : Setting σ} (name : String) (hs : o.get name = .ok s)
      (c : Setting.Change σ) (env : Env σ) (hfits : c.Fits env) (h : ReachedBy stored o) :
      ReachedBy stored (o.replace name (s.perform c env).2.1)
  /-- An option is overwritten by another one.  It keeps its place and its key. -/
  | store {o : Settings σ} {s : Setting σ} (name : String) (hs : s.Made) (hstored : stored name s)
      (h : ReachedBy stored o) : ReachedBy stored (o.replace name s)
  | set {o : Settings σ} (name : String) (v : Value) (env : Env σ) (h : ReachedBy stored o) :
      ReachedBy stored (o.set name v env).2.1
  | setText {o : Settings σ} (name text : String) (env : Env σ) (h : ReachedBy stored o) :
      ReachedBy stored (o.setText name text env).2.1
  | configure {o : Settings σ} (f : Frame) (env : Env σ) (h : ReachedBy stored o) :
      ReachedBy stored (o.configure f env).2.1
  | ofFrame {o : Settings σ} (owner : String) (f : Frame) (env : Env σ)
      (ho : Settings.ofFrame owner f = .ok o) : ReachedBy stored o

/-- The options that all operations lead to. -/
abbrev Reached : Settings σ → Prop := ReachedBy fun _ _ => True

/-! ## What stays true -/

/-- The options stand under distinct keys, and each has the property together with its key. -/
structure Holds (P : String → Setting σ → Prop) (o : Settings σ) : Prop where
  names_distinct : Keyed.Distinct o.items
  each : ∀ p ∈ o.items, P p.1 p.2

/-- The options stand under distinct keys, and each of them was made and changed. -/
abbrev Orderly : Settings σ → Prop := Holds fun _ s => s.Made

/-- Each option stands under its own name. -/
def Own (o : Settings σ) : Prop := ∀ p ∈ o.items, p.2.name = p.1

/-- A change of an option keeps the property. -/
def Kept (P : String → Setting σ → Prop) : Prop :=
  ∀ ⦃name : String⦄ ⦃s : Setting σ⦄ ⦃c : Setting.Change σ⦄ (env : Env σ), c.Fits env →
    P name s → P name (s.perform c env).2.1

theorem kept_made : Kept (fun _ s => s.Made : String → Setting σ → Prop) :=
  fun _ _ _ env hfits h => h.perform env hfits

theorem kept_name : Kept (fun name s => s.name = name : String → Setting σ → Prop) :=
  fun _ s _ _ hfits h => (s.perform_effect hfits).name_eq.trans h

namespace Holds

variable {P : String → Setting σ → Prop}

theorem empty (owner : String) : (Settings.empty owner : Settings σ).Holds P :=
  ⟨List.nodup_nil, by simp [Settings.empty]⟩

theorem relabel (h : o.Holds P) (owner : String) : ({ o with owner } : Settings σ).Holds P :=
  ⟨h.names_distinct, h.each⟩

theorem of_get (h : o.Holds P) (hs : o.get name = .ok s) : P name s :=
  h.each (name, s) (Keyed.mem_of_lookup_eq_some (get_eq_ok_iff.1 hs))

theorem insert (h : o.Holds P) (hs : P s.name s) (ho : o.insert s = .ok o') : o'.Holds P := by
  rcases insert_eq_ok_iff.1 ho with ⟨hfree, rfl⟩
  refine ⟨Keyed.distinct_append_of_lookup_eq_none h.names_distinct hfree, ?_⟩
  intro p hp
  rcases List.mem_append.1 hp with hp | hp
  · exact h.each p hp
  · rw [List.mem_singleton.1 hp]
    exact hs

theorem replace (h : o.Holds P) (hs : P name s) : (o.replace name s).Holds P := by
  refine ⟨Keyed.distinct_modify h.names_distinct name _, ?_⟩
  intro p hp
  rcases Keyed.mem_of_mem_modify hp with hold | ⟨_, _, rfl⟩
  · exact h.each p hold
  · exact hs

/-- A change of one option does not touch the others. -/
theorem change (h : o.Holds P) (hP : Kept P) (hs : o.get name = .ok s) (env : Env σ)
    {c : Setting.Change σ} (hfits : c.Fits env) :
    (o.replace name (s.perform c env).2.1).Holds P :=
  h.replace (hP env hfits (h.of_get hs))

theorem set (h : o.Holds P) (hP : Kept P) (name : String) (v : Value) (env : Env σ) :
    (o.set name v env).2.1.Holds P := by
  unfold Settings.set
  cases hs : o.get name with
  | error e => exact h
  | ok s => exact h.change hP hs env (c := .set v) trivial

theorem setText (h : o.Holds P) (hP : Kept P) (name text : String) (env : Env σ) :
    (o.setText name text env).2.1.Holds P := by
  unfold Settings.setText
  cases hs : o.get name with
  | error e => exact h
  | ok s => exact h.change hP hs env (c := .setText text) trivial

theorem setEntries (h : o.Holds P) (hP : Kept P) (entries : List (String × Entry))
    (env : Env σ) : (o.setEntries env entries).2.1.Holds P := by
  induction entries generalizing o env with
  | nil => exact h
  | cons p rest ih =>
    rcases p with ⟨key, e⟩
    have hset := h.set hP key e.toValue env
    rcases hresult : o.set key e.toValue env with ⟨result, o', env'⟩
    rw [hresult] at hset
    cases result with
    | error e =>
      simp only [Settings.setEntries, hresult]
      exact hset
    | ok u =>
      simp only [Settings.setEntries, hresult]
      exact ih hset env'

end Holds

theorem Orderly.made_of_mem_all (h : o.Orderly) (hs : s ∈ o.all) : s.Made := by
  rcases List.mem_map.1 hs with ⟨p, hp, rfl⟩
  exact h.each p hp

/-! ## Options from a description -/

/-- What a description describes is made like any other option. -/
theorem made_ofEntry (env : Env σ) {key : String} {e : Entry} (h : ofEntry key e = .ok s) :
    s.Made := by
  cases e with
  | value v info =>
    rcases bind_eq_ok_iff.1 h with ⟨s₀, hnew, h⟩
    extract_lets s₁ s₂ at h
    have hs₁ : s₁.Made := by
      by_cases hpretty : info.pretty ≠ key
      · have hs₁ : s₁ = { s₀ with pretty := info.pretty } := if_pos hpretty
        rw [hs₁]
        exact (Setting.made_new hnew).perform env (c := .rename info.pretty) trivial
      · have hs₁ : s₁ = s₀ := if_neg hpretty
        rw [hs₁]
        exact Setting.made_new hnew
    have hs₂ : s₂.Made := hs₁.perform env (c := .place (info.tier.getD .advanced)) trivial
    split at h
    · rw [← Except.ok.inj h]
      exact hs₂
    · have hperform : s₂.perform (.restrictTo info.restricted) env = (.ok (), s, env) := by
        simp [Setting.perform, h]
      have hmade := hs₂.perform env (c := .restrictTo info.restricted) trivial
      rw [hperform] at hmade
      exact hmade
  | frame f =>
    rcases bind_eq_ok_iff.1 h with ⟨s₀, hnew, h⟩
    rw [← Except.ok.inj h]
    exact (Setting.made_new hnew).perform env (c := .place (f.tier.getD .advanced)) trivial

section
variable {P : String → Setting σ → Prop} (hmade : ∀ s : Setting σ, s.Made → P s.name s)

include hmade

theorem Holds.add (h : o.Holds P) {description : String} {default : Value}
    (ho : o.add name description default = .ok o') : o'.Holds P := by
  rcases bind_eq_ok_iff.1 ho with ⟨s, hnew, ho⟩
  exact h.insert (hmade s (Setting.made_new hnew)) ho

theorem Holds.addEntries (env : Env σ) {entries : List (String × Entry)} (h : o.Holds P)
    (ho : o.addEntries entries = .ok o') : o'.Holds P := by
  induction entries generalizing o with
  | nil => exact (Except.ok.inj ho) ▸ h
  | cons p rest ih =>
    rcases p with ⟨key, e⟩
    rcases bind_eq_ok_iff.1 ho with ⟨s, hs, ho⟩
    rcases bind_eq_ok_iff.1 ho with ⟨o₁, ho₁, ho⟩
    exact ih (h.insert (hmade s (made_ofEntry env hs)) ho₁) ho

/-- The run lemma: what new options and options that overwrite others have, and what no change of an
option takes away, all options have. -/
theorem ReachedBy.holds {stored : String → Setting σ → Prop} (hP : Kept P)
    (hstored : ∀ name s, s.Made → stored name s → P name s) (h : ReachedBy stored o) :
    o.Holds P := by
  induction h with
  | empty owner => exact .empty owner
  | relabel owner _ ih => exact ih.relabel owner
  | insert hs ho _ ih => exact ih.insert (hmade _ hs) ho
  | add name description default ho _ ih => exact ih.add hmade ho
  | change name hs c env hfits _ ih => exact ih.change hP hs env hfits
  | store name hs hs' _ ih => exact ih.replace (hstored name _ hs hs')
  | set name v env _ ih => exact ih.set hP name v env
  | setText name text env _ ih => exact ih.setText hP name text env
  | configure f env _ ih => exact ih.setEntries hP f.entries env
  | ofFrame owner f env ho => exact Holds.addEntries hmade env (.empty owner) ho

end

variable {stored : String → Setting σ → Prop}

/-- Whatever overwrites an option was made before. -/
theorem ReachedBy.orderly (h : ReachedBy stored o) : o.Orderly :=
  h.holds (fun _ hs => hs) kept_made fun _ _ hs _ => hs

/-- Options stand under their own names if none is overwritten by one of another name. -/
theorem ReachedBy.own (h : ReachedBy (fun name s => s.name = name) o) : o.Own :=
  (h.holds (P := fun name s => s.name = name) (fun _ _ => rfl) kept_name fun _ _ _ hs => hs).each

end Settings
end SignalTree
