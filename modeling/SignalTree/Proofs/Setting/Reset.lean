import SignalTree.Proofs.Setting.Assign

/-!
# Reset — going back to the default

Going back to the default sets it like any other value, so it passes the same three checks.
Whatever was done to a setting before, the default has the kind of the setting and is one of the
allowed values.  That it fits into the slots is not seen to: linking a cell makes what it holds the
default, and does not ask the slots that were linked before.

* `reset_iff_of_run`: after every run, resetting succeeds if and only if every slot can hold the
  default;
* `not_reset_of_run`: a run after which it does not succeed.
-/

namespace SignalTree
namespace Setting

variable {σ : Type} {s s₀ : Setting σ} {k : Kind}

/-- The only check that the default may not pass is that of the slots. -/
theorem Consistent.refusal_default_iff (h : Consistent k s)
    (hself : s.default.same s.default = true) {e : Error} :
    s.Refusal s.default e ↔ (∃ slot ∈ s.slots, slot.view.read s.default = none) ∧
      e = .mismatch (s.name ++ " (linked slot)") s.kind s.kind := by
  have hallowed : s.restricted = [] ∨ s.default.isIn s.restricted = true := by
    by_cases hne : s.restricted = []
    · exact Or.inl hne
    · exact Or.inr (h.default_allowed hne hself)
  constructor
  · intro he
    cases he with
    | kind hkind => exact absurd rfl hkind
    | restricted _ hne hout =>
      rw [hallowed.resolve_left hne] at hout
      cases hout
    | slot _ _ hslot hnarrow => exact ⟨⟨_, hslot, hnarrow⟩, rfl⟩
  · rintro ⟨⟨slot, hslot, hnarrow⟩, rfl⟩
    exact .slot rfl hallowed hslot hnarrow

/-- After every run of a setting whose triggers never fail and whose default is the same as itself,
resetting succeeds if and only if every slot can hold the default.  Then the value is the default;
if one cannot, nothing changes, and the error names the slot. -/
theorem reset_iff_of_run {name description : String} {default : Value}
    (hnew : Setting.new name description default = .ok s₀) (hrun : Run s₀ s) (hquiet : s.Quiet)
    (hself : s.default.same s.default = true) (env : Env σ) :
    ((s.reset env).1 = .ok () ↔ ∀ slot ∈ s.slots, ∃ w, slot.view.read s.default = some w) ∧
    ((s.reset env).1 = .ok () → (s.reset env).2.1 = { s with value := s.default }) ∧
    ((s.reset env).1 ≠ .ok () →
      s.reset env = (.error (.mismatch (s.name ++ " (linked slot)") s.kind s.kind), s, env)) := by
  have hconsistent := hrun.consistent (consistent_new hnew)
  by_cases hslots : ∀ slot ∈ s.slots, ∃ w, slot.view.read s.default = some w
  · have hpasses : ∀ e, ¬ s.Refusal s.default e := by
      intro e he
      rcases (hconsistent.refusal_default_iff hself).1 he with ⟨⟨slot, hslot, hnarrow⟩, _⟩
      rcases hslots slot hslot with ⟨w, hw⟩
      rw [hnarrow] at hw
      cases hw
    have hreset : s.reset env = s.commit s.default env := set_eq_commit hpasses env
    have hok : (s.reset env).1 = .ok () := by
      rw [hreset]
      exact hquiet.runTriggers_eq_ok _ _ _ _
    exact ⟨iff_of_true hok hslots, fun _ => by rw [hreset]; rfl, fun hne => absurd hok hne⟩
  · have hnarrow : ∃ slot ∈ s.slots, slot.view.read s.default = none := by
      simpa [Option.eq_none_iff_forall_ne_some] using hslots
    have hreset : s.reset env = _ :=
      ((hconsistent.refusal_default_iff hself).2 ⟨hnarrow, rfl⟩).set_eq env
    have hfails : (s.reset env).1 ≠ .ok () := by simp [hreset]
    exact ⟨iff_of_false hfails hslots, fun hok => absurd hok hfails, fun _ => hreset⟩

/-- Two cells of a program, one of them with a level that needs more than half the width. -/
def levelCells (wide : Int64) : Env Unit := ⟨[level wide, level 3], (), []⟩

/-- A cell of levels may be linked at either width. -/
theorem fits_levelCells (wide : Int64) (cell : Nat) {view : ScalarView}
    (hview : view.kind = .integer) :
    (Change.link ⟨cell, .scalar view⟩ : Change Unit).Fits (levelCells wide) := by
  intro v hv
  have hlevel : v = level wide ∨ v = level 3 :=
    List.mem_pair.1 (List.mem_of_getElem? (l := [level wide, level 3]) hv)
  rcases hlevel with rfl | rfl <;> exact congrArg Kind.scalar hview.symm

theorem reset_iff_levels :
    ∃ s₀ s : Setting Unit, Setting.new "level" "" (level 1) = .ok s₀ ∧ Run s₀ s ∧ s.Quiet ∧
      s.default.same s.default = true ∧ s.value = level 2 ∧ s.default = level 3 ∧
      s.slots = [⟨0, .scalar .int64⟩, ⟨1, .scalar .int32⟩] ∧
      (s.reset (levelCells 4)).1 = .ok () ∧
      (s.reset (levelCells 4)).2.1 = { s with value := level 3 } := by
  obtain ⟨s₀, hnew⟩ : ∃ s₀ : Setting Unit, Setting.new "level" "" (level 1) = .ok s₀ := ⟨_, rfl⟩
  have hlinked : Run s₀ _ :=
    .change (.link ⟨1, .scalar .int32⟩) (levelCells 4) (fits_levelCells 4 1 rfl)
      (.change (.link ⟨0, .scalar .int64⟩) (levelCells 4) (fits_levelCells 4 0 rfl) .start)
  obtain ⟨s, hrun, htriggers, hvalue, hdefault, hslots⟩ : ∃ s, Run s₀ s ∧ s.triggers = [] ∧
      s.value = level 2 ∧ s.default = level 3 ∧
      s.slots = [⟨0, .scalar .int64⟩, ⟨1, .scalar .int32⟩] := by
    refine ⟨_, .change (.set (level 2)) (levelCells 4) trivial hlinked, ?_⟩
    cases hnew
    exact ⟨rfl, rfl, rfl, rfl⟩
  have hquiet : s.Quiet := quiet_of_triggers_eq_nil htriggers
  have hself : s.default.same s.default = true := by
    rw [hdefault]
    rfl
  have h := reset_iff_of_run hnew hrun hquiet hself (levelCells 4)
  have hok : (s.reset (levelCells 4)).1 = .ok () := by
    rw [h.1, hdefault, hslots]
    intro slot hslot
    rcases List.mem_pair.1 hslot with rfl | rfl
    · exact ⟨_, rfl⟩
    · exact ⟨_, rfl⟩
  exact ⟨s₀, s, hnew, hrun, hquiet, hself, hvalue, hdefault, hslots, hok, hdefault ▸ h.2.1 hok⟩

/-- A cell that is linked later makes a default that the cell linked first cannot hold.  The setting
takes another value after that, but it does not go back. -/
theorem not_reset_of_run :
    ∃ s₀ s : Setting Unit, Setting.new "level" "" (level 1) = .ok s₀ ∧ Run s₀ s ∧ s.Quiet ∧
      s.slots = [⟨1, .scalar .int32⟩, ⟨0, .scalar .int64⟩] ∧
      s.value = level 5 ∧ s.default = level 0x10000000000 ∧
      s.default.same s.default = true ∧
      s.reset (levelCells 0x10000000000) =
        (.error (.mismatch "level (linked slot)" (.scalar .integer) (.scalar .integer)), s,
          levelCells 0x10000000000) := by
  obtain ⟨s₀, hnew⟩ : ∃ s₀ : Setting Unit, Setting.new "level" "" (level 1) = .ok s₀ := ⟨_, rfl⟩
  have hlinked : Run s₀ _ :=
    .change (.link ⟨0, .scalar .int64⟩) (levelCells 0x10000000000) (fits_levelCells _ 0 rfl)
      (.change (.link ⟨1, .scalar .int32⟩) (levelCells 0x10000000000) (fits_levelCells _ 1 rfl)
        .start)
  have hrun : Run s₀ _ := .change (.set (level 5)) (levelCells 0x10000000000) trivial hlinked
  cases hnew
  exact ⟨_, _, rfl, hrun, quiet_of_triggers_eq_nil rfl, rfl, rfl, rfl, rfl, rfl⟩

end Setting
end SignalTree
