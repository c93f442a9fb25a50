import Mathlib.Data.List.Basic
import SignalTree.Setting

/-!
# Trigger — what runs when a setting has a new value

Triggers run one after the other, each on the new value, on the cells as they are and on the state
of the program that the one before it has left.  The first that fails is the last that runs.

* `Setting.Passes`: triggers that run without a failure;
* `Setting.Notified`: how a list of triggers ends;
* `runTriggers_notified`: `runTriggers` ends like this, and writes no cell;
* `Setting.Stops`: a trigger that fails, and the ones before it that do not;
* `Setting.Passing`, `Setting.Quiet`: triggers that do not fail on a value, or on none;
* `Setting.Steady`: triggers that fail on certain values, and always on these.
-/

namespace SignalTree
namespace Setting

variable {σ : Type} {s : Setting σ} {name : String} {v : Value} {e : Error} {i : Nat}
  {cells : List Value} {triggers : List (Trigger σ)} {host host' : σ} {env : Env σ}

/-! ## All of them, or up to the first that fails -/

/-- Triggers run one after the other, and none of them fails.  They lead the program from one state
to the other. -/
inductive Passes (v : Value) (cells : List Value) : List (Trigger σ) → σ → σ → Prop where
  | done (host : σ) : Passes v cells [] host host
  | next {t : Trigger σ} {rest : List (Trigger σ)} {host host' host'' : σ}
      (hpasses : t v cells host = (.ok (), host')) (hrest : Passes v cells rest host' host'') :
      Passes v cells (t :: rest) host host''

/-- How running triggers ends, of which `i` others come first: the result, the state of the program
after it, and what is reported.  All of them pass, or one fails after those before it have passed;
those behind it do not run. -/
inductive Notified (name : String) (v : Value) (cells : List Value) (i : Nat)
    (triggers : List (Trigger σ)) (host : σ) :
    Except Error Unit → σ → List Message → Prop where
  | all {host' : σ} (hall : Passes v cells triggers host host') :
      Notified name v cells i triggers host (.ok ()) host' []
  | stopped {front back : List (Trigger σ)} {t : Trigger σ} {mid host' : σ} {e : Error}
      (hsplit : triggers = front ++ t :: back) (hfront : Passes v cells front host mid)
      (hfails : t v cells mid = (.error e, host')) :
      Notified name v cells i triggers host (.error e) host'
        [.triggerFailed name (i + front.length) e]

/-- Running triggers writes no cell, and ends in one of the two ways. -/
theorem runTriggers_notified (name : String) (v : Value) (i : Nat) (triggers : List (Trigger σ))
    (env : Env σ) :
    ∃ r host messages, Notified name v env.cells i triggers env.host r host messages ∧
      runTriggers name v i triggers env = (r, ⟨env.cells, host, env.log ++ messages⟩) := by
  induction triggers generalizing i env with
  | nil => exact ⟨_, _, _, .all (.done _), by simp [runTriggers]⟩
  | cons t rest ih =>
    rcases ht : t v env.cells env.host with ⟨result, host⟩
    cases result with
    | error e =>
      have hsplit : t :: rest = [] ++ t :: rest := rfl
      refine ⟨_, _, _, .stopped hsplit (.done _) ht, ?_⟩
      simp [runTriggers, ht, Env.emit]
    | ok u =>
      rcases ih (i + 1) { env with host } with ⟨r, host', messages, hnotified, hrun⟩
      refine ⟨r, host', messages, ?_, by simpa only [runTriggers, ht] using hrun⟩
      cases hnotified with
      | all hall => exact .all (.next ht hall)
      | @stopped front back t' mid _ e hsplit hfront hfails =>
        have hplace : i + 1 + front.length = i + (t :: front).length := by
          simp only [List.length_cons]
          omega
        have hlonger : t :: rest = (t :: front) ++ t' :: back := by rw [hsplit, List.cons_append]
        rw [hplace]
        exact .stopped hlonger (.next ht hfront) hfails

theorem Passes.passes_append {front back : List (Trigger σ)} {mid : σ}
    (h : Passes v cells front host mid) (hall : Passes v cells (front ++ back) host host') :
    Passes v cells back mid host' := by
  induction h with
  | done host => exact hall
  | next hpasses _ ih =>
    cases hall with
    | next hpasses' hrest =>
      rw [hpasses] at hpasses'
      cases hpasses'
      exact ih hrest

/-- The result is a success if and only if no trigger fails. -/
theorem Notified.eq_ok_iff {r : Except Error Unit} {messages : List Message}
    (h : Notified name v cells i triggers host r host' messages) :
    r = .ok () ↔ ∃ after, Passes v cells triggers host after := by
  cases h with
  | all hall => exact iff_of_true rfl ⟨_, hall⟩
  | stopped hsplit hfront hfails =>
    refine iff_of_false (by simp) ?_
    rintro ⟨after, hall⟩
    rw [hsplit] at hall
    cases hfront.passes_append hall with
    | next hpasses _ => simp [hfails] at hpasses

/-- Triggers write no cell. -/
theorem runTriggers_cells (name : String) (v : Value) (i : Nat) (triggers : List (Trigger σ))
    (env : Env σ) : (runTriggers name v i triggers env).2.cells = env.cells := by
  rcases runTriggers_notified name v i triggers env with ⟨r, host, messages, _, hrun⟩
  rw [hrun]

/-! ## A failure -/

/-- One of the triggers fails on a value, and those before it do not. -/
inductive Stops (v : Value) (e : Error) : List (Trigger σ) → σ → Prop where
  | here {t : Trigger σ} {rest : List (Trigger σ)} {cells : List Value} {host host' : σ}
      (hfails : t v cells host = (.error e, host')) : Stops v e (t :: rest) host
  | later {t : Trigger σ} {rest : List (Trigger σ)} {cells : List Value} {host host' : σ}
      (hpasses : t v cells host = (.ok (), host')) (hrest : Stops v e rest host') :
      Stops v e (t :: rest) host

theorem Passes.stops {front back : List (Trigger σ)} (h : Passes v cells front host host')
    (hback : Stops v e back host') : Stops v e (front ++ back) host := by
  induction h with
  | done host => exact hback
  | next hpasses _ ih => exact .later hpasses (ih hback)

theorem stops_of_runTriggers (h : (runTriggers name v i triggers env).1 = .error e) :
    Stops v e triggers env.host := by
  rcases runTriggers_notified name v i triggers env with ⟨r, host, messages, hnotified, hrun⟩
  obtain rfl : r = .error e := by rwa [hrun] at h
  cases hnotified with
  | stopped hsplit hfront hfails =>
    rw [hsplit]
    exact hfront.stops (.here hfails)

theorem Stops.exists_trigger (h : Stops v e triggers host) :
    ∃ t ∈ triggers, ∃ cells host₀ host₁, t v cells host₀ = (.error e, host₁) := by
  induction h with
  | here hfails => exact ⟨_, List.mem_cons_self .., _, _, _, hfails⟩
  | later _ _ ih =>
    rcases ih with ⟨t, ht, hfails⟩
    exact ⟨t, List.mem_cons_of_mem _ ht, hfails⟩

/-! ## No failure -/

/-- The triggers do not fail on a value, whatever they find. -/
def Passing (v : Value) (triggers : List (Trigger σ)) : Prop :=
  ∀ t ∈ triggers, ∀ cells host, (t v cells host).1 = .ok ()

theorem Passing.not_stops (h : Passing v triggers) : ¬ Stops v e triggers host := by
  intro hstops
  rcases hstops.exists_trigger with ⟨t, ht, cells, host₀, host₁, hfails⟩
  have hok := h t ht cells host₀
  rw [hfails] at hok
  cases hok

/-- Such triggers run to the end. -/
theorem Passing.runTriggers_eq_ok (h : Passing v triggers) (name : String) (i : Nat) (env : Env σ) :
    (runTriggers name v i triggers env).1 = .ok () := by
  cases hrun : (runTriggers name v i triggers env).1 with
  | ok u => rfl
  | error e => exact absurd (stops_of_runTriggers hrun) h.not_stops

/-- The triggers of the option never fail. -/
def Quiet (s : Setting σ) : Prop := ∀ t ∈ s.triggers, ∀ v cells host, (t v cells host).1 = .ok ()

theorem quiet_of_triggers_eq_nil (h : s.triggers = []) : s.Quiet := by
  intro t ht
  rw [h] at ht
  cases ht

theorem Quiet.passing (h : s.Quiet) (v : Value) : Passing v s.triggers := fun t ht => h t ht v

theorem Quiet.not_stops (h : s.Quiet) : ¬ Stops v e s.triggers host :=
  (h.passing v).not_stops

/-- Such triggers run to the end. -/
theorem Quiet.runTriggers_eq_ok (h : s.Quiet) (name : String) (v : Value) (i : Nat) (env : Env σ) :
    (runTriggers name v i s.triggers env).1 = .ok () :=
  (h.passing v).runTriggers_eq_ok name i env

/-! ## Triggers that look at the value alone -/

/-- Whether a trigger of the option fails depends on the value that it gets, and on nothing else. -/
def Steady (s : Setting σ) : Prop :=
  ∀ t ∈ s.triggers, ∀ v cells host cells' host',
    (t v cells host).1 = .ok () → (t v cells' host').1 = .ok ()

theorem Passes.exists_of_mem (h : Passes v cells triggers host host') {t : Trigger σ}
    (ht : t ∈ triggers) : ∃ host₀, (t v cells host₀).1 = .ok () := by
  induction h with
  | done host => cases ht
  | next hpasses _ ih =>
    rcases List.mem_cons.1 ht with rfl | hrest
    · exact ⟨_, congrArg Prod.fst hpasses⟩
    · exact ih hrest

/-- Triggers that pass once pass always. -/
theorem Steady.runTriggers_eq_ok_iff (h : s.Steady) (name : String) (v : Value) (i : Nat)
    (env : Env σ) :
    (runTriggers name v i s.triggers env).1 = .ok () ↔ Passing v s.triggers := by
  constructor
  · intro hrun t ht cells host
    rcases runTriggers_notified name v i s.triggers env with ⟨r, after, messages, hnotified, heq⟩
    obtain rfl : r = .ok () := by rwa [heq] at hrun
    rcases hnotified.eq_ok_iff.1 rfl with ⟨_, hpasses⟩
    rcases hpasses.exists_of_mem ht with ⟨host₀, hok⟩
    exact h t ht v _ _ _ _ hok
  · intro hpassing
    exact hpassing.runTriggers_eq_ok name i env

end Setting
end SignalTree
