import SignalTree.Proofs.Setting.Mirror

/-!
# Assign — check, commit, notify

A value that is set passes three checks, and nothing has happened until then.  After that the value
is taken over, it is written to every slot, and only then the triggers run, which see the cells as
they were written.  A trigger that fails ends this, but nothing is taken back.

* `Setting.Refusal`: the first check that a value does not pass;
* `check_eq_error_iff`, `check_eq_ok_iff`: the checks report exactly this;
* `Setting.Written`: the cells after a value was written to every slot;
* `written_writeSlots`: so they are when slots that can hold the value are written;
* `set_outcome`: setting a value, in every case.
-/

namespace SignalTree
namespace Setting

variable {σ : Type} {s : Setting σ} {env : Env σ} {slot : Slot} {slots : List Slot} {v w : Value}
  {e : Error} {i : Nat}

/-! ## The checks -/

/-- The first of three checks that a value does not pass, by the error that reports it: it has the
kind of the setting, it is one of the allowed values if there are any, and every slot can hold
it. -/
inductive Refusal (s : Setting σ) (v : Value) : Error → Prop where
  | kind (hkind : v.kind ≠ s.kind) : Refusal s v (.mismatch s.name s.kind v.kind)
  | restricted (hkind : v.kind = s.kind) (hne : s.restricted ≠ [])
      (hout : v.isIn s.restricted = false) : Refusal s v (.notAllowed s.name v.encode)
  | slot {slot : Slot} (hkind : v.kind = s.kind)
      (hallowed : s.restricted = [] ∨ v.isIn s.restricted = true) (hslot : slot ∈ s.slots)
      (hnarrow : slot.view.read v = none) :
      Refusal s v (.mismatch (s.name ++ " (linked slot)") s.kind v.kind)

theorem allows_iff : s.allows v = true ↔ s.restricted = [] ∨ v.isIn s.restricted = true := by
  simp [allows]

theorem allows_eq_false_iff :
    s.allows v = false ↔ s.restricted ≠ [] ∧ v.isIn s.restricted = false := by
  simp [allows]

theorem all_accepts_eq_false_iff :
    slots.all (accepts · v) = false ↔ ∃ slot ∈ slots, slot.view.read v = none := by
  simp [accepts]

/-- What passes the three checks. -/
theorem check_eq_ok_iff : s.check v = .ok () ↔ v.kind = s.kind ∧
    (s.restricted = [] ∨ v.isIn s.restricted = true) ∧
    ∀ slot ∈ s.slots, ∃ w, slot.view.read v = some w := by
  constructor
  · intro h
    rcases check_eq_ok h with ⟨hkind, hallowed⟩
    exact ⟨hkind, allows_iff.1 hallowed, fun slot hslot => check_accepts h hslot⟩
  · rintro ⟨hkind, hallowed, hslots⟩
    have hall : s.slots.all (accepts · v) = true :=
      List.all_eq_true.2 fun slot hslot => Option.isSome_iff_exists.2 (hslots slot hslot)
    simp [check, hkind, allows_iff.2 hallowed, hall]

/-- What does not pass is reported by the first check that it does not pass. -/
theorem check_eq_error_iff : s.check v = .error e ↔ s.Refusal v e := by
  constructor
  · intro h
    unfold check at h
    split at h
    · rename_i hkind
      exact Except.error.inj h ▸ .kind hkind
    · rename_i hkind
      replace hkind : v.kind = s.kind := not_not.1 hkind
      split at h
      · rename_i hout
        replace hout : s.allows v = false := by simpa using hout
        rcases allows_eq_false_iff.1 hout with ⟨hne, hout⟩
        exact Except.error.inj h ▸ .restricted hkind hne hout
      · rename_i hallowed
        replace hallowed : s.allows v = true := by simpa using hallowed
        split at h
        · rename_i hall
          replace hall : s.slots.all (accepts · v) = false := by simpa using hall
          rcases all_accepts_eq_false_iff.1 hall with ⟨slot, hslot, hnarrow⟩
          exact Except.error.inj h ▸ .slot hkind (allows_iff.1 hallowed) hslot hnarrow
        · cases h
  · intro h
    cases h with
    | kind hkind => simp [check, hkind]
    | restricted hkind hne hout =>
      simp [check, hkind, allows_eq_false_iff.2 ⟨hne, hout⟩, violation]
    | slot hkind hallowed hslot hnarrow =>
      have hall := all_accepts_eq_false_iff.2 ⟨_, hslot, hnarrow⟩
      simp [check, hkind, allows_iff.2 hallowed, hall]

/-- A value that is refused changes nothing at all. -/
theorem Refusal.set_eq (h : s.Refusal v e) (env : Env σ) : s.set v env = (.error e, s, env) := by
  rw [set, check_eq_error_iff.2 h]

theorem check_eq_ok_of_not_refusal (h : ∀ e, ¬ s.Refusal v e) : s.check v = .ok () := by
  cases hcheck : s.check v with
  | ok u => rfl
  | error e => exact absurd (check_eq_error_iff.1 hcheck) (h e)

theorem not_refusal_of_check (h : s.check v = .ok ()) (e : Error) : ¬ s.Refusal v e := by
  intro he
  rw [check_eq_error_iff.2 he] at h
  cases h

/-- Any other value is taken over. -/
theorem set_eq_commit (h : ∀ e, ¬ s.Refusal v e) (env : Env σ) : s.set v env = s.commit v env := by
  rw [set, check_eq_ok_of_not_refusal h]

/-! ## The slots -/

/-- The cells after a value was written to every slot: a linked cell holds what its type holds of
the value, and the other cells are as they were. -/
structure Written (slots : List Slot) (v : Value) (cells cells' : List Value) : Prop where
  linked : ∀ slot ∈ slots, cells'[slot.cell]? = slot.view.read v
  others : ∀ i, (∀ slot ∈ slots, slot.cell ≠ i) → cells'[i]? = cells[i]?

theorem cell?_writeSlots_of_unlinked (h : ∀ slot ∈ slots, slot.cell ≠ i) :
    (writeSlots slots v env).cell? i = env.cell? i := by
  induction slots generalizing env with
  | nil => rfl
  | cons slot rest ih =>
    rw [List.forall_mem_cons] at h
    refine (ih h.2).trans ?_
    unfold writeSlot
    split
    · exact Env.cell?_writeCell_of_ne h.1
    · rfl

/-- Slots that can all hold a value are all written. -/
theorem written_writeSlots (h : Tracked slots env)
    (hholds : ∀ slot ∈ slots, ∃ w, slot.view.read v = some w) :
    Written slots v env.cells (writeSlots slots v env).cells where
  linked := by
    intro slot hslot
    obtain ⟨w, hw⟩ := hholds slot hslot
    rw [hw]
    exact cell?_writeSlots h hslot hw
  others := fun i hi => cell?_writeSlots_of_unlinked hi

/-! ## Setting a value -/

theorem writeSlots_log (slots : List Slot) (v : Value) (env : Env σ) :
    (writeSlots slots v env).log = env.log := by
  induction slots generalizing env with
  | nil => rfl
  | cons slot rest ih =>
    have hstep : (writeSlot v env slot).log = env.log := by
      unfold writeSlot
      split <;> rfl
    exact (ih _).trans hstep

/-- The surroundings in which the triggers start: every slot is written, and nothing else is new but
a message. -/
def written (s : Setting σ) (v : Value) (env : Env σ) : Env σ :=
  writeSlots s.slots v (env.emit (.optionChanged s.name v))

/-- What the triggers start with, and how they end. -/
theorem commit_notified (s : Setting σ) (v : Value) (env : Env σ) :
    ∃ r host messages,
      Notified s.name v (s.written v env).cells 0 s.triggers env.host r host messages ∧
      s.commit v env = (r, { s with value := v },
        ⟨(s.written v env).cells, host, env.log ++ .optionChanged s.name v :: messages⟩) := by
  rcases runTriggers_notified s.name v 0 s.triggers (s.written v env) with
    ⟨r, host, messages, hnotified, hrun⟩
  have hhost : (s.written v env).host = env.host := writeSlots_host _ _ _
  have hlog : (s.written v env).log = env.log ++ [.optionChanged s.name v] := writeSlots_log _ _ _
  rw [hhost] at hnotified
  rw [hlog, List.append_assoc, List.singleton_append] at hrun
  refine ⟨r, host, messages, hnotified, ?_⟩
  rw [written] at hrun
  simp only [commit, hrun, written]

/-- Setting a value, in every case.  A value that does not pass the checks changes nothing at all.
A value that passes them is taken over and is in every slot before a trigger runs; the triggers run
on it in order, once each, up to the first that fails, whose error is the result; whether or not one
fails, the value and the slots stay, and nothing else of the setting changes. -/
theorem set_outcome (s : Setting σ) (v : Value) (env : Env σ) :
    (∀ e, s.Refusal v e → s.set v env = (.error e, s, env)) ∧
    ((∀ e, ¬ s.Refusal v e) → ∃ cells r host messages,
      (Tracked s.slots env → Written s.slots v env.cells cells) ∧
      Notified s.name v cells 0 s.triggers env.host r host messages ∧
      (r = .ok () ↔ ∃ host', Passes v cells s.triggers env.host host') ∧
      s.set v env = (r, { s with value := v },
        ⟨cells, host, env.log ++ .optionChanged s.name v :: messages⟩)) := by
  refine ⟨fun e he => he.set_eq env, ?_⟩
  intro hpasses
  rcases s.commit_notified v env with ⟨r, host, messages, hnotified, hcommit⟩
  refine ⟨_, r, host, messages, ?_, hnotified, hnotified.eq_ok_iff, ?_⟩
  · intro htracked
    have htracked' : Tracked s.slots (env.emit (.optionChanged s.name v)) :=
      htracked.congr fun _ _ => rfl
    exact written_writeSlots htracked' (check_eq_ok_iff.1 (check_eq_ok_of_not_refusal hpasses)).2.2
  · rw [set_eq_commit hpasses, hcommit]

/-- A trigger that keeps the cells as it finds them. -/
def watch : Trigger (List (List Value)) := fun _ cells host => (.ok (), host ++ [cells])

/-- The same, but it refuses the third level. -/
def watchAndRefuse : Trigger (List (List Value)) := fun v cells host =>
  (if v.same (level 3) then .error (.other "refused") else .ok (), host ++ [cells])

/-- A level from one to three in two cells, with three triggers. -/
def watched : Setting (List (List Value)) where
  name := "level"
  description := ""
  pretty := ""
  value := level 1
  default := level 1
  restricted := [level 1, level 2, level 3]
  tier := .advanced
  triggers := [watch, watchAndRefuse, watch]
  slots := [⟨0, .scalar .int64⟩, ⟨2, .scalar .int32⟩]

theorem set_outcome_watched :
    Tracked watched.slots (⟨[level 1, level 1, level 1], [], []⟩ : Env (List (List Value))) ∧
      (∀ e, ¬ watched.Refusal (level 3) e) ∧
      (∃ cells r host messages,
        Written watched.slots (level 3) [level 1, level 1, level 1] cells ∧
        Notified "level" (level 3) cells 0 watched.triggers [] r host messages ∧
        watched.set (level 3) ⟨[level 1, level 1, level 1], [], []⟩ =
          (r, { watched with value := level 3 },
            ⟨cells, host, .optionChanged "level" (level 3) :: messages⟩)) ∧
      -- the first two triggers find both cells written, and the third does not run
      watched.set (level 3) ⟨[level 1, level 1, level 1], [], []⟩ =
        (.error (.other "refused"), { watched with value := level 3 },
          ⟨[level 3, level 1, level 3],
            [[level 3, level 1, level 3], [level 3, level 1, level 3]],
            [.optionChanged "level" (level 3), .triggerFailed "level" 1 (.other "refused")]⟩) := by
  have htracked : Tracked watched.slots
      (⟨[level 1, level 1, level 1], [], []⟩ : Env (List (List Value))) := by
    refine ⟨?_, by decide⟩
    intro slot hslot
    rcases List.mem_pair.1 hslot with rfl | rfl
    · exact ⟨_, rfl⟩
    · exact ⟨_, rfl⟩
  have hcheck : watched.check (level 3) = .ok () := rfl
  have hpasses : ∀ e, ¬ watched.Refusal (level 3) e := by
    intro e he
    rw [check_eq_error_iff.2 he] at hcheck
    cases hcheck
  have h := set_outcome watched (level 3) ⟨[level 1, level 1, level 1], [], []⟩
  rcases h.2 hpasses with ⟨cells, r, host, messages, hwritten, hnotified, _, hset⟩
  exact ⟨htracked, hpasses, ⟨cells, r, host, messages, hwritten htracked, hnotified, hset⟩, rfl⟩

end Setting
end SignalTree
