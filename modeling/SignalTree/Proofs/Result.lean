import SignalTree.Error

/-!
# Result — steps that may fail

A step that follows another one runs on the result of the first.  So a success of both is taken
apart into two, and a failure is one of the first or of the second.

* `Succeeds`: there is a result, whatever it is.
-/

namespace SignalTree

variable {α β : Type} {r : Except Error α} {f : α → Except Error β} {b : β} {e : Error}

/-- A result is that of the second step on the result of the first. -/
theorem bind_eq_ok_iff : r >>= f = .ok b ↔ ∃ a, r = .ok a ∧ f a = .ok b := by
  cases r with
  | ok a =>
    constructor
    · intro h
      exact ⟨a, rfl, h⟩
    · rintro ⟨a', ha, h⟩
      rw [Except.ok.inj ha]
      exact h
  | error e =>
    constructor
    · intro h
      cases h
    · rintro ⟨a, ha, _⟩
      cases ha

theorem bind_eq_error (h : r >>= f = .error e) :
    r = .error e ∨ ∃ a, r = .ok a ∧ f a = .error e := by
  cases r with
  | ok a => exact Or.inr ⟨a, rfl, h⟩
  | error e' =>
    cases h
    exact Or.inl rfl

theorem map_eq_ok_iff {g : α → β} : r.map g = .ok b ↔ ∃ a, r = .ok a ∧ g a = b := by
  cases r with
  | ok a => simp [Except.map]
  | error e => simp [Except.map]

/-- A row of steps fails with the failure of one of them. -/
theorem exists_of_mapM_eq_error {l : List α} (h : l.mapM f = .error e) :
    ∃ a ∈ l, f a = .error e := by
  induction l with
  | nil => cases h
  | cons a rest ih =>
    rw [List.mapM_cons] at h
    rcases bind_eq_error h with hfirst | ⟨_, _, h⟩
    · exact ⟨a, List.mem_cons_self .., hfirst⟩
    · rcases bind_eq_error h with hrest | ⟨_, _, h⟩
      · rcases ih hrest with ⟨b, hb, hfails⟩
        exact ⟨b, List.mem_cons_of_mem _ hb, hfails⟩
      · cases h

/-- Each result of a row of steps is that of one of them. -/
theorem exists_of_mem_mapM {l : List α} {bs : List β} (h : l.mapM f = .ok bs) (hb : b ∈ bs) :
    ∃ a ∈ l, f a = .ok b := by
  induction l generalizing bs with
  | nil =>
    cases h
    cases hb
  | cons a rest ih =>
    rw [List.mapM_cons] at h
    rcases bind_eq_ok_iff.1 h with ⟨first, hfirst, h⟩
    rcases bind_eq_ok_iff.1 h with ⟨others, hothers, h⟩
    cases h
    rcases List.mem_cons.1 hb with rfl | hb
    · exact ⟨a, List.mem_cons_self .., hfirst⟩
    · rcases ih hothers hb with ⟨a', ha', hf⟩
      exact ⟨a', List.mem_cons_of_mem _ ha', hf⟩

/-- Each of a row of steps has its result among those of the row. -/
theorem exists_mem_of_mapM {l : List α} {bs : List β} (h : l.mapM f = .ok bs) {a : α}
    (ha : a ∈ l) : ∃ b ∈ bs, f a = .ok b := by
  induction l generalizing bs with
  | nil => cases ha
  | cons a' rest ih =>
    rw [List.mapM_cons] at h
    rcases bind_eq_ok_iff.1 h with ⟨first, hfirst, h⟩
    rcases bind_eq_ok_iff.1 h with ⟨others, hothers, h⟩
    cases h
    rcases List.mem_cons.1 ha with rfl | ha
    · exact ⟨first, List.mem_cons_self .., hfirst⟩
    · rcases ih hothers ha with ⟨b, hb, hf⟩
      exact ⟨b, List.mem_cons_of_mem _ hb, hf⟩

/-! ## Whether there is a result -/

/-- There is a result. -/
def Succeeds {α : Type} (r : Except Error α) : Prop := ∃ a, r = .ok a

theorem succeeds_ok (a : α) : Succeeds (.ok a) := ⟨a, rfl⟩

theorem not_succeeds_error (e : Error) : ¬ Succeeds (.error e : Except Error α) := by
  rintro ⟨a, h⟩
  cases h

theorem succeeds_map_iff {g : α → β} : Succeeds (r.map g) ↔ Succeeds r := by
  cases r with
  | ok a => exact iff_of_true (succeeds_ok (g a)) (succeeds_ok a)
  | error e => exact iff_of_false (not_succeeds_error e) (not_succeeds_error e)

theorem succeeds_mapError_iff {g : Error → Error} : Succeeds (r.mapError g) ↔ Succeeds r := by
  cases r with
  | ok a => exact iff_of_true (succeeds_ok a) (succeeds_ok a)
  | error e => exact iff_of_false (not_succeeds_error (g e)) (not_succeeds_error e)

/-- The second step may succeed on every result of the first, or on none. -/
theorem succeeds_bind_iff {p : Prop} (h : ∀ a, r = .ok a → (Succeeds (f a) ↔ p)) :
    Succeeds (r >>= f) ↔ Succeeds r ∧ p := by
  cases r with
  | ok a => exact (h a rfl).trans (and_iff_right (succeeds_ok a)).symm
  | error e => exact iff_of_false (not_succeeds_error e) fun hr => not_succeeds_error e hr.1

/-- A second step that always succeeds makes no difference. -/
theorem succeeds_bind_of_forall (h : ∀ a, r = .ok a → Succeeds (f a)) :
    Succeeds (r >>= f) ↔ Succeeds r :=
  (succeeds_bind_iff fun a ha => iff_of_true (h a ha) trivial).trans (and_iff_left trivial)

end SignalTree
