import Mathlib.Data.List.Basic
import SignalTree.Proofs.Result
import SignalTree.Proofs.Setting.Trigger

/-!
# Run — settings that changes lead to

A setting is changed in many ways, and a change may fail.  What it does to the setting is said once
(`Setting.Effect`); from this follows what stays true in every run.

* `Setting.Change`, `Setting.perform`: the changes, and how they are carried out;
* `perform_effect`: what a change does, for every change;
* `Setting.Consistent`: kinds, and values that are allowed;
* `consistent_of_run`: every run keeps a setting consistent, and no failure but that of a trigger
  changes anything.
-/

namespace SignalTree
namespace Setting

variable {σ : Type}

/-! ## Changes -/

/-- A change of a setting. -/
inductive Change (σ : Type) where
  | set (v : Value)
  | setText (text : String)
  | reset
  | restrictTo (values : List Value)
  | link (slot : Slot)
  | attach (t : Trigger σ)
  | describe (description : String)
  | rename (pretty : String)
  | place (tier : Tier)

/-- A cell that is linked holds what the type of its slot holds. -/
def Change.Fits (env : Env σ) : Change σ → Prop
  | .link slot => ∀ v, env.cell? slot.cell = some v → v.kind = slot.view.kind
  | _ => True

/-- Carries out a change. -/
def perform (s : Setting σ) (c : Change σ) (env : Env σ) :
    Except Error Unit × Setting σ × Env σ :=
  match c with
  | .set v => s.set v env
  | .setText text => s.setText text env
  | .reset => s.reset env
  | .restrictTo values =>
    match s.restrictTo values with
    | .ok s => (.ok (), s, env)
    | .error e => (.error e, s, env)
  | .link slot =>
    match s.link slot env with
    | .ok (s, env) => (.ok (), s, env)
    | .error e => (.error e, s, env)
  | .attach t => (.ok (), s.attach t, env)
  | .describe description => (.ok (), { s with description }, env)
  | .rename pretty => (.ok (), { s with pretty }, env)
  | .place tier => (.ok (), { s with tier }, env)

/-! ## Taking a value over -/

variable {s s' t : Setting σ} {env env' : Env σ} {c : Change σ} {v : Value} {e : Error}
  {r : Except Error Unit}

/-- Writing the slots leaves the embedding program alone. -/
theorem writeSlots_host (slots : List Slot) (v : Value) (env : Env σ) :
    (writeSlots slots v env).host = env.host := by
  induction slots generalizing env with
  | nil => rfl
  | cons slot rest ih =>
    have hstep : (writeSlot v env slot).host = env.host := by
      unfold writeSlot
      split <;> rfl
    exact (ih _).trans hstep

/-- A value that was taken over fails only in a trigger. -/
theorem stops_of_commit (h : (s.commit v env).1 = .error e) : Stops v e s.triggers env.host := by
  have hstops := stops_of_runTriggers h
  rwa [writeSlots_host] at hstops

/-! ## Making a setting -/

theorem new_eq_ok_iff {name description : String} {default : Value} :
    Setting.new name description default = .ok s ↔ Text.blank name = false ∧
      s = ⟨name, description, "", default, default, [], .advanced, [], []⟩ := by
  by_cases hblank : Text.blank name = true
  · simp [Setting.new, hblank]
  · simp [Setting.new, hblank, eq_comm]

theorem forM_checkKind_eq_ok_iff {values : List Value} :
    values.forM s.checkKind = .ok () ↔ ∀ v ∈ values, v.kind = s.kind := by
  induction values with
  | nil => simp [pure, Except.pure]
  | cons v rest ih =>
    change (s.checkKind v >>= fun _ => rest.forM s.checkKind) = .ok () ↔ _
    rw [List.forall_mem_cons, ← ih, bind_eq_ok_iff]
    by_cases hv : v.kind = s.kind
    · simp [checkKind, hv]
    · simp [checkKind, hv]

theorem restrictTo_eq_ok_iff {values : List Value} :
    s.restrictTo values = .ok t ↔ (∀ v ∈ values, v.kind = s.kind) ∧
      t = { s with
        restricted := if s.default.isIn values then values else s.default :: values } ∧
      t.value.isIn t.restricted = true := by
  rw [← forM_checkKind_eq_ok_iff]
  constructor
  · intro h
    rcases bind_eq_ok_iff.1 h with ⟨_, hkinds, h⟩
    extract_lets restricted at h
    split at h
    · rename_i hvalue
      rw [← Except.ok.inj h]
      exact ⟨hkinds, rfl, hvalue⟩
    · cases h
  · rintro ⟨hkinds, rfl, hvalue⟩
    refine bind_eq_ok_iff.2 ⟨(), hkinds, ?_⟩
    exact if_pos hvalue

/-! ## Effects -/

/-- What a change does to a setting, and its result. -/
inductive Effect (s : Setting σ) (env : Env σ) :
    Except Error Unit → Setting σ → Env σ → Prop where
  | failed (e : Error) : Effect s env (.error e) s env
  | valued {v : Value} {r : Except Error Unit} (hcheck : s.check v = .ok ())
      (hr : ∀ e, r = .error e → Stops v e s.triggers env.host) (env' : Env σ) :
      Effect s env r { s with value := v } env'
  | restricted {restricted : List Value} (hkinds : ∀ v ∈ restricted, v.kind = s.kind)
      (hvalue : s.value.isIn restricted = true)
      (hdefault : s.default.same s.default = true → s.default.isIn restricted = true) :
      Effect s env (.ok ()) { s with restricted } env
  | linked {v : Value} (hkind : v = s.value ∨ v.kind = s.kind) (hallowed : s.allows v = true)
      (slot : Slot) (env' : Env σ) :
      Effect s env (.ok ()) { s with default := v, value := v, slots := s.slots ++ [slot] } env'
  | attached (t : Trigger σ) : Effect s env (.ok ()) (s.attach t) env
  | labelled (description pretty : String) (tier : Tier) :
      Effect s env (.ok ()) { s with description, pretty, tier } env

theorem set_effect (s : Setting σ) (v : Value) (env : Env σ) :
    Effect s env (s.set v env).1 (s.set v env).2.1 (s.set v env).2.2 := by
  unfold set
  cases hcheck : s.check v with
  | error e => exact .failed e
  | ok u =>
    exact .valued hcheck (fun e he => stops_of_commit he) _

theorem restrictTo_effect (env : Env σ) {values : List Value} (h : s.restrictTo values = .ok s') :
    Effect s env (.ok ()) s' env := by
  rcases restrictTo_eq_ok_iff.1 h with ⟨hkinds, rfl, hvalue⟩
  refine .restricted ?_ hvalue ?_
  · intro v hv
    split at hv
    · exact hkinds v hv
    · rcases List.mem_cons.1 hv with rfl | hv
      · rfl
      · exact hkinds v hv
  · intro hself
    split
    · assumption
    · simp [Value.isIn, hself]

theorem link_effect {slot : Slot} (hfits : (Change.link slot : Change σ).Fits env)
    (h : s.link slot env = .ok (s', env')) : Effect s env (.ok ()) s' env' := by
  unfold link at h
  split at h
  · cases h
  · rename_i hkind
    extract_lets initial at h
    split at h
    · cases h
    · rename_i hallowed
      simp only [Except.ok.injEq, Prod.mk.injEq] at h
      rcases h with ⟨rfl, rfl⟩
      refine .linked ?_ (by simpa using hallowed) slot _
      cases hcell : env.cell? slot.cell with
      | none =>
        left
        simp [initial, hcell]
      | some v =>
        right
        have hv : initial = v := by simp [initial, hcell]
        rw [hv]
        exact (hfits v hcell).trans (not_not.1 hkind)

/-- What a change does, for every change. -/
theorem perform_effect (s : Setting σ) (hfits : c.Fits env) :
    Effect s env (s.perform c env).1 (s.perform c env).2.1 (s.perform c env).2.2 := by
  cases c with
  | set v => exact s.set_effect v env
  | setText text =>
    simp only [perform, setText]
    cases Value.decode text s.kind with
    | error e => exact .failed _
    | ok v => exact s.set_effect v env
  | reset => exact s.set_effect s.default env
  | restrictTo values =>
    simp only [perform]
    cases h : s.restrictTo values with
    | error e => exact .failed e
    | ok s' => exact restrictTo_effect env h
  | link slot =>
    simp only [perform]
    cases h : s.link slot env with
    | error e => exact .failed e
    | ok p => exact link_effect hfits h
  | attach t => exact .attached t
  | describe description => exact .labelled description s.pretty s.tier
  | rename pretty => exact .labelled s.description pretty s.tier
  | place tier => exact .labelled s.description s.pretty tier

/-! ## What stays true -/

/-- The kind of a setting is fixed, and what it holds is allowed. -/
structure Consistent (k : Kind) (s : Setting σ) : Prop where
  value_kind : s.value.kind = k
  default_kind : s.default.kind = k
  members_kind : ∀ v ∈ s.restricted, v.kind = k
  value_allowed : s.restricted ≠ [] → s.value.isIn s.restricted = true
  /-- A default with `nan` inside is in no list, for it is not the same as itself. -/
  default_allowed : s.restricted ≠ [] → s.default.same s.default = true →
    s.default.isIn s.restricted = true

theorem Consistent.kind_of_mem {k : Kind} (h : Consistent k s) (hv : v ∈ s.restricted) :
    v.kind = s.value.kind :=
  (h.members_kind v hv).trans h.value_kind.symm

theorem isIn_of_allows (h : s.allows v = true) (hne : s.restricted ≠ []) :
    v.isIn s.restricted = true := by
  simpa [allows, hne] using h

/-- What passes the checks has the kind and is allowed. -/
theorem check_eq_ok (h : s.check v = .ok ()) : v.kind = s.kind ∧ s.allows v = true := by
  unfold check at h
  split at h
  · cases h
  · rename_i hkind
    split at h
    · cases h
    · rename_i hallowed
      exact ⟨not_not.1 hkind, by simpa using hallowed⟩

theorem consistent_new {name description : String} {default : Value}
    (h : Setting.new name description default = .ok s) : Consistent default.kind s := by
  rw [(new_eq_ok_iff.1 h).2]
  exact ⟨rfl, rfl, by simp, fun hne => absurd rfl hne, fun hne => absurd rfl hne⟩

namespace Effect

variable {k : Kind}

theorem consistent (h : Effect s env r s' env') (hs : Consistent k s) : Consistent k s' := by
  have hkind : s.kind = k := hs.default_kind
  cases h with
  | failed e => exact hs
  | valued hcheck _ env' =>
    rcases check_eq_ok hcheck with ⟨hv, hallowed⟩
    exact ⟨hv.trans hkind, hs.default_kind, hs.members_kind, isIn_of_allows hallowed,
      hs.default_allowed⟩
  | restricted hkinds hvalue hdefault =>
    exact ⟨hs.value_kind, hs.default_kind, fun v hv => (hkinds v hv).trans hkind, fun _ => hvalue,
      fun _ => hdefault⟩
  | linked hv hallowed slot env' =>
    have hvk : _ = k := hv.elim (fun heq => heq ▸ hs.value_kind) fun heq => heq.trans hkind
    exact ⟨hvk, hvk, hs.members_kind, isIn_of_allows hallowed, fun hne _ =>
      isIn_of_allows hallowed hne⟩
  | attached t =>
    exact ⟨hs.value_kind, hs.default_kind, hs.members_kind, hs.value_allowed, hs.default_allowed⟩
  | labelled description pretty tier =>
    exact ⟨hs.value_kind, hs.default_kind, hs.members_kind, hs.value_allowed, hs.default_allowed⟩

/-- The list of allowed values is not emptied. -/
theorem restricted_ne_nil (h : Effect s env r s' env') (hne : s.restricted ≠ []) :
    s'.restricted ≠ [] := by
  cases h with
  | restricted _ hvalue _ =>
    rintro hnil
    have hempty : s.value.isIn [] = true := hnil ▸ hvalue
    cases hempty
  | _ => exact hne

/-- A failure changes nothing, or it is that of a trigger, and the value alone is new. -/
theorem unchanged_or_stops (h : Effect s env (.error e) s' env') :
    (s' = s ∧ env' = env) ∨
      ∃ v, s.check v = .ok () ∧ Stops v e s.triggers env.host ∧ s' = { s with value := v } := by
  cases h with
  | failed e => exact Or.inl ⟨rfl, rfl⟩
  | valued hcheck hr env' => exact Or.inr ⟨_, hcheck, hr e rfl, rfl⟩

end Effect

/-! ## Runs -/

/-- `Run s t`: some changes lead from `s` to `t`, each of them in some surroundings, and each of
them succeeding or failing. -/
inductive Run (s : Setting σ) : Setting σ → Prop where
  | start : Run s s
  | change {t : Setting σ} (c : Change σ) (env : Env σ) (hfits : c.Fits env) (hrun : Run s t) :
      Run s (t.perform c env).2.1

namespace Run

/-- The run lemma. -/
theorem consistent {k : Kind} (h : Run s t) (hs : Consistent k s) : Consistent k t := by
  induction h with
  | start => exact hs
  | @change t c env hfits _ ih => exact (t.perform_effect hfits).consistent ih

theorem restricted_ne_nil (h : Run s t) (hne : s.restricted ≠ []) : t.restricted ≠ [] := by
  induction h with
  | start => exact hne
  | @change t c env hfits _ ih => exact (t.perform_effect hfits).restricted_ne_nil ih

end Run

/-- In every run the kind of a setting stays what it was when it was made, its value is allowed, and
so is its default; allowed values are not taken back altogether; and a change that fails leaves
everything as it was, unless it is a trigger that fails, after the value was taken over. -/
theorem consistent_of_run {name description : String} {default : Value} {s₀ s : Setting σ}
    (hnew : Setting.new name description default = .ok s₀) (hrun : Run s₀ s) :
    Consistent default.kind s ∧
      (∀ s', Run s s' → s.restricted ≠ [] → s'.restricted ≠ []) ∧
      ∀ c env e, c.Fits env → (s.perform c env).1 = .error e →
        s.perform c env = (.error e, s, env) ∨
          ∃ v, s.check v = .ok () ∧ Stops v e s.triggers env.host ∧
            (s.perform c env).2.1 = { s with value := v } := by
  refine ⟨hrun.consistent (consistent_new hnew), fun s' h => h.restricted_ne_nil, ?_⟩
  intro c env e hfits he
  have heffect := s.perform_effect hfits
  rw [he] at heffect
  rcases heffect.unchanged_or_stops with ⟨hs, henv⟩ | ⟨v, hcheck, hstops, hs⟩
  · left
    rw [← he]
    exact Prod.ext rfl (Prod.ext hs henv)
  · exact Or.inr ⟨v, hcheck, hstops, hs⟩

/-- Levels from one to three, as a cell of the embedding program holds them. -/
def level : Int64 → Value := fun n => .scalar (.integer n)

/-- A program that stops a setting at its third level. -/
def refuseThree : Trigger Unit := fun v _ host =>
  (if v.same (level 3) then .error (.notAllowed "level" "3") else .ok (), host)

/-- The surroundings of a setting whose cell holds two. -/
def levelEnv : Env Unit := ⟨[level 2], (), []⟩

theorem consistent_levels :
    ∃ s₀ s t : Setting Unit, Setting.new "level" "" (level 1) = .ok s₀ ∧ Run s₀ s ∧ Run s₀ t ∧
      s.perform (.set (level 7)) levelEnv = (.error (s.violation (level 7)), s, levelEnv) ∧
      (t.value = level 3 ∧ t.default = level 2 ∧ t.restricted = [level 1, level 2, level 3]) ∧
      Consistent (level 1).kind t := by
  obtain ⟨s₀, hnew⟩ : ∃ s₀ : Setting Unit, Setting.new "level" "" (level 1) = .ok s₀ := ⟨_, rfl⟩
  have hfits : (Change.link ⟨0, .scalar .int32⟩ : Change Unit).Fits levelEnv := by
    intro v hv
    rw [← Option.some.inj hv]
    rfl
  have hrun : Run s₀ _ := .change (.link ⟨0, .scalar .int32⟩) levelEnv hfits
    (.change (.restrictTo [level 2, level 3]) levelEnv trivial .start)
  -- the trigger refuses the value, which stays all the same
  have hmore : Run s₀ _ := .change (.set (level 3)) levelEnv trivial
    (.change (.attach refuseThree) levelEnv trivial hrun)
  have h := consistent_of_run hnew hrun
  have hafter := consistent_of_run hnew hmore
  cases hnew
  refine ⟨_, _, _, rfl, hrun, hmore, ?_, ⟨rfl, rfl, rfl⟩, hafter.1⟩
  rcases h.2.2 (.set (level 7)) levelEnv _ trivial rfl with hunchanged | ⟨v, _, hstops, _⟩
  · exact hunchanged
  · cases hstops

end Setting
end SignalTree
