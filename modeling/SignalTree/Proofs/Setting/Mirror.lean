import SignalTree.Proofs.Setting.Run

/-!
# Mirror — linked cells follow a setting

A new value is written to every linked slot, each taking what its type holds of it.  Linking goes
the other way: what the new cell holds becomes the value, and the cells linked before are not
written, so that they are behind until the next value is set.

* `View.Whole`: the types that hold a value as it is or not at all, which are all but days;
* `Setting.Tracked`: linked cells exist, and a cell is read at one type only;
* `Setting.History`: a setting and its surroundings, after changes of both;
* `tracked_perform`, `History.tracked`: the invariant, over one change and over a history;
* `mirrors_of_history`: what the linked cells hold when a change has succeeded.
-/

namespace SignalTree

/-! ## Types that hold all of a value -/

/-- A day drops the time of a date; no other type drops a part of what it reads. -/
def View.Whole : View → Prop
  | .scalar view => view ≠ .day
  | .list view => view ≠ .day
  | .map => True

namespace ScalarView

variable {view : ScalarView}

theorem read_eq_self {s t : Scalar} (hwhole : view ≠ .day) (h : view.read s = some t) : t = s := by
  cases view with
  | day => exact absurd rfl hwhole
  | _ =>
    cases s <;> simp_all [read, kind, Scalar.kind]

end ScalarView

namespace View

variable {view : ScalarView}

theorem readItems_eq_self {items : List Scalar}
    {read : { items : List Scalar // ∀ s ∈ items, s.kind = view.kind }} (hwhole : view ≠ .day)
    (h : readItems view items = some read) : read.1 = items := by
  induction items generalizing read with
  | nil => rw [← Option.some.inj h]
  | cons s rest ih =>
    unfold readItems at h
    split at h
    · rename_i t u hs hrest
      rw [← Option.some.inj h]
      change t :: u.1 = s :: rest
      rw [ScalarView.read_eq_self hwhole hs, ih hrest]
    · cases h

/-- What such a type reads of a value is the value. -/
theorem read_eq_self {view : View} {v w : Value} (hwhole : view.Whole)
    (h : view.read v = some w) : w = v := by
  unfold read at h
  split at h
  · rename_i view s
    rcases Option.map_eq_some_iff.1 h with ⟨t, ht, rfl⟩
    rw [ScalarView.read_eq_self hwhole ht]
  · rename_i view l
    split at h
    · rename_i hkind
      rcases Option.map_eq_some_iff.1 h with ⟨t, ht, rfl⟩
      have hitems : t.1 = l.items := readItems_eq_self hwhole ht
      rcases l with ⟨kind, items, hitemsKind⟩
      rcases t with ⟨_, _⟩
      cases hkind
      cases hitems
      rfl
    · cases h
  · exact (Option.some.inj h).symm
  · cases h

end View

/-! ## Cells -/

namespace Env

variable {σ : Type} {env : Env σ} {i j : Nat} {v w : Value}

theorem cell?_writeCell_self (h : env.cell? i = some w) : (env.writeCell i v).cell? i = some v := by
  have hi : i < env.cells.length := (List.getElem?_eq_some_iff.1 h).1
  simp [cell?, writeCell, hi]

theorem cell?_writeCell_of_ne (h : i ≠ j) : (env.writeCell i v).cell? j = env.cell? j := by
  simp [cell?, writeCell, h]

end Env

namespace Setting

variable {σ : Type} {s s' : Setting σ} {env env' : Env σ} {c : Change σ} {slot : Slot}
  {slots : List Slot} {v w : Value} {i : Nat}

/-- Every linked cell exists, and slots that share a cell read it at one type. -/
structure Tracked (slots : List Slot) (env : Env σ) : Prop where
  exists_cell : ∀ slot ∈ slots, ∃ v, env.cell? slot.cell = some v
  one_type : ∀ a ∈ slots, ∀ b ∈ slots, a.cell = b.cell → a.view = b.view

/-- Only the linked cells matter. -/
theorem Tracked.congr (h : Tracked slots env)
    (hcells : ∀ slot ∈ slots, env'.cell? slot.cell = env.cell? slot.cell) : Tracked slots env' :=
  ⟨fun slot hslot => by simpa only [hcells slot hslot] using h.exists_cell slot hslot, h.one_type⟩

/-! ## Writing the slots -/

/-- A cell keeps what every slot with this cell would write. -/
theorem cell?_writeSlot (hcell : env.cell? i = some w)
    (hagrees : slot.cell = i → slot.view.read v = some w) :
    (writeSlot v env slot).cell? i = some w := by
  unfold writeSlot
  split
  · rename_i written hwritten
    by_cases hi : slot.cell = i
    · have heq : written = w := Option.some.inj (hwritten.symm.trans (hagrees hi))
      subst hi heq
      exact Env.cell?_writeCell_self hcell
    · rw [Env.cell?_writeCell_of_ne hi, hcell]
  · exact hcell

theorem cell?_writeSlots_of_agrees (hcell : env.cell? i = some w)
    (hagrees : ∀ slot ∈ slots, slot.cell = i → slot.view.read v = some w) :
    (writeSlots slots v env).cell? i = some w := by
  induction slots generalizing env with
  | nil => exact hcell
  | cons slot rest ih =>
    rw [List.forall_mem_cons] at hagrees
    exact ih (cell?_writeSlot hcell hagrees.1) hagrees.2

/-- A cell that exists is still there when a slot was written. -/
theorem exists_cell_writeSlot (hcell : ∃ w, env.cell? i = some w) (v : Value) (slot : Slot) :
    ∃ w, (writeSlot v env slot).cell? i = some w := by
  rcases hcell with ⟨w, hw⟩
  unfold writeSlot
  split
  · rename_i written _
    by_cases hi : slot.cell = i
    · subst hi
      exact ⟨written, Env.cell?_writeCell_self hw⟩
    · exact ⟨w, by rw [Env.cell?_writeCell_of_ne hi, hw]⟩
  · exact ⟨w, hw⟩

theorem exists_cell_writeSlots (hcell : ∃ w, env.cell? i = some w) (v : Value)
    (slots : List Slot) : ∃ w, (writeSlots slots v env).cell? i = some w := by
  induction slots generalizing env with
  | nil => exact hcell
  | cons slot rest ih => exact ih (exists_cell_writeSlot hcell v slot)

/-- Each cell holds what the type of its slot holds of the value. -/
theorem cell?_writeSlots (h : Tracked slots env) (hslot : slot ∈ slots)
    (hread : slot.view.read v = some w) :
    (writeSlots slots v env).cell? slot.cell = some w := by
  -- the slots before it may have any types; from the first slot with this cell on, all agree
  induction slots generalizing env with
  | nil => cases hslot
  | cons first rest ih =>
    by_cases hfirst : first.cell = slot.cell
    · have htype : first.view = slot.view :=
        h.one_type first (List.mem_cons_self ..) slot hslot hfirst
      obtain ⟨old, hold⟩ := h.exists_cell first (List.mem_cons_self ..)
      have hwritten : (writeSlot v env first).cell? slot.cell = some w := by
        simp only [writeSlot, htype, hread]
        rw [← hfirst]
        exact Env.cell?_writeCell_self hold
      change (writeSlots rest v (writeSlot v env first)).cell? slot.cell = some w
      refine cell?_writeSlots_of_agrees hwritten ?_
      intro other hother hcell
      have hsame : other.view = slot.view :=
        h.one_type other (List.mem_cons_of_mem _ hother) slot hslot hcell
      rw [hsame, hread]
    · have hrest : slot ∈ rest := by
        rcases List.mem_cons.1 hslot with rfl | hrest
        · exact absurd rfl hfirst
        · exact hrest
      refine ih ⟨?_, ?_⟩ hrest
      · intro other hother
        exact exists_cell_writeSlot (h.exists_cell other (List.mem_cons_of_mem _ hother)) v first
      · intro a ha b hb
        exact h.one_type a (List.mem_cons_of_mem _ ha) b (List.mem_cons_of_mem _ hb)

/-- What is written when a value is taken over, whatever the triggers do then. -/
theorem commit_cells (s : Setting σ) (v : Value) (env : Env σ) :
    (s.commit v env).2.2.cells =
      (writeSlots s.slots v (env.emit (.optionChanged s.name v))).cells :=
  runTriggers_cells ..

theorem cell?_commit (h : Tracked s.slots env) (hslot : slot ∈ s.slots)
    (hread : slot.view.read v = some w) : (s.commit v env).2.2.cell? slot.cell = some w := by
  have htracked : Tracked s.slots (env.emit (.optionChanged s.name v)) := h.congr fun _ _ => rfl
  have hwritten := cell?_writeSlots htracked hslot hread
  rwa [Env.cell?, ← commit_cells] at hwritten

theorem tracked_commit (h : Tracked s.slots env) (v : Value) :
    Tracked s.slots (s.commit v env).2.2 := by
  refine ⟨fun slot hslot => ?_, h.one_type⟩
  have hcell : ∃ w, (env.emit (.optionChanged s.name v)).cell? slot.cell = some w :=
    h.exists_cell slot hslot
  simpa only [Env.cell?, commit_cells] using exists_cell_writeSlots hcell v s.slots

/-! ## One change -/

/-- A cell to be linked exists, and slots that share it have its type. -/
def Change.Joins (s : Setting σ) (env : Env σ) : Change σ → Prop
  | .link slot => (∃ v, env.cell? slot.cell = some v) ∧
      ∀ other ∈ s.slots, other.cell = slot.cell → other.view = slot.view
  | _ => True

/-- The changes that set a value. -/
def Change.Assigns : Change σ → Prop
  | .set _ => True
  | .setText _ => True
  | .reset => True
  | _ => False

theorem check_accepts (h : s.check v = .ok ()) (hslot : slot ∈ s.slots) :
    ∃ w, slot.view.read v = some w := by
  unfold check at h
  split at h
  · cases h
  · split at h
    · cases h
    · split at h
      · cases h
      · rename_i hall
        have hslots : s.slots.all (accepts · v) = true := by simpa using hall
        exact Option.isSome_iff_exists.1 (List.all_eq_true.1 hslots slot hslot)

theorem link_eq_ok (h : s.link slot env = .ok (s', env')) :
    s'.slots = s.slots ++ [slot] ∧ env'.cells = env.cells ∧
      (∀ v, env.cell? slot.cell = some v → s'.value = v) := by
  unfold link at h
  split at h
  · cases h
  · extract_lets initial at h
    split at h
    · cases h
    · simp only [Except.ok.injEq, Prod.mk.injEq] at h
      rcases h with ⟨rfl, rfl⟩
      refine ⟨rfl, rfl, ?_⟩
      intro v hv
      simp [initial, hv]

theorem tracked_set (h : Tracked s.slots env) (v : Value) :
    Tracked (s.set v env).2.1.slots (s.set v env).2.2 := by
  unfold set
  cases s.check v with
  | ok u => exact tracked_commit h v
  | error e => exact h

theorem tracked_link (h : Tracked s.slots env) (hjoins : (Change.link slot).Joins s env)
    (hlink : s.link slot env = .ok (s', env')) : Tracked s'.slots env' := by
  rcases link_eq_ok hlink with ⟨hslots, hcells, -⟩
  rcases hjoins with ⟨hcell, htypes⟩
  rw [hslots]
  constructor
  · intro other hother
    rw [Env.cell?, hcells]
    rcases List.mem_append.1 hother with hold | hnew
    · exact h.exists_cell other hold
    · rw [List.mem_singleton.1 hnew]
      exact hcell
  · intro a ha b hb hab
    rcases List.mem_append.1 ha with ha | ha
    · rcases List.mem_append.1 hb with hb | hb
      · exact h.one_type a ha b hb hab
      · cases List.mem_singleton.1 hb
        exact htypes a ha hab
    · cases List.mem_singleton.1 ha
      rcases List.mem_append.1 hb with hb | hb
      · exact (htypes b hb hab.symm).symm
      · rw [List.mem_singleton.1 hb]

/-- What one change preserves, whether it succeeds or fails. -/
theorem tracked_perform (h : Tracked s.slots env) (hjoins : c.Joins s env) :
    Tracked (s.perform c env).2.1.slots (s.perform c env).2.2 := by
  cases c with
  | set v => exact tracked_set h v
  | setText text =>
    simp only [perform, setText]
    cases Value.decode text s.kind with
    | ok v => exact tracked_set h v
    | error e => exact h
  | reset => exact tracked_set h s.default
  | restrictTo values =>
    simp only [perform]
    cases hs' : s.restrictTo values with
    | ok s' =>
      have hslots : s'.slots = s.slots := by rw [(restrictTo_eq_ok_iff.1 hs').2.1]
      exact hslots ▸ h
    | error e => exact h
  | link slot =>
    simp only [perform]
    cases hlink : s.link slot env with
    | ok p => exact tracked_link h hjoins hlink
    | error e => exact h
  | _ => exact h

/-- A value that was set is in every linked cell that can hold it. -/
theorem cell?_of_set (h : Tracked s.slots env) (hset : s.set v env = (.ok (), s', env'))
    (hslot : slot ∈ s'.slots) (hholds : slot.view.Whole ∨ slot.view.read s'.value = some s'.value) :
    env'.cell? slot.cell = some s'.value := by
  unfold set at hset
  cases hcheck : s.check v with
  | error e => simp [hcheck] at hset
  | ok u =>
    simp only [hcheck] at hset
    have hs' : s' = { s with value := v } := (congrArg (fun p => p.2.1) hset).symm
    have henv' : env' = (s.commit v env).2.2 := (congrArg (fun p => p.2.2) hset).symm
    subst hs' henv'
    obtain ⟨w, hread⟩ := check_accepts hcheck hslot
    have hw : w = v := by
      rcases hholds with hwhole | hself
      · exact View.read_eq_self hwhole hread
      · exact Option.some.inj (hread.symm.trans hself)
    exact cell?_commit h hslot (hw ▸ hread)

/-! ## Histories -/

/-- A setting and its surroundings after any number of changes.  Nobody else writes to a linked
cell, and a cell is linked at one type only. -/
inductive History : Setting σ → Env σ → Prop where
  | start {s : Setting σ} (env : Env σ) (hslots : s.slots = []) : History s env
  | change {s : Setting σ} {env : Env σ} (h : History s env) (c : Change σ)
      (hjoins : c.Joins s env) : History (s.perform c env).2.1 (s.perform c env).2.2
  | elsewhere {s : Setting σ} {env : Env σ} (h : History s env) (env' : Env σ)
      (hcells : ∀ slot ∈ s.slots, env'.cell? slot.cell = env.cell? slot.cell) : History s env'

theorem History.tracked (h : History s env) : Tracked s.slots env := by
  induction h with
  | start env hslots => constructor <;> simp [hslots]
  | change _ c hjoins ih => exact tracked_perform ih hjoins
  | elsewhere _ env' hcells ih => exact ih.congr hcells

/-- When setting a value, a text or the default succeeds, every linked cell holds exactly the new
value, except for a day if the value has a time.  When linking succeeds, the cell just linked holds
the new value, and those linked before hold what they held. -/
theorem mirrors_of_history (h : History s env) (hjoins : c.Joins s env)
    (hok : s.perform c env = (.ok (), s', env')) :
    (c.Assigns → ∀ slot ∈ s'.slots,
      slot.view.Whole ∨ slot.view.read s'.value = some s'.value →
        env'.cell? slot.cell = some s'.value) ∧
      ∀ slot, c = .link slot →
        s'.slots = s.slots ++ [slot] ∧ env'.cell? slot.cell = some s'.value ∧
          ∀ other ∈ s.slots, env'.cell? other.cell = env.cell? other.cell := by
  have htracked := h.tracked
  constructor
  · intro hassigns slot hslot hholds
    cases c with
    | set v => exact cell?_of_set htracked hok hslot hholds
    | setText text =>
      simp only [perform, setText] at hok
      cases hv : Value.decode text s.kind with
      | ok v =>
        rw [hv] at hok
        exact cell?_of_set htracked hok hslot hholds
      | error e => simp [hv] at hok
    | reset => exact cell?_of_set htracked hok hslot hholds
    | _ => exact hassigns.elim
  · rintro slot rfl
    simp only [perform] at hok
    cases hlink : s.link slot env with
    | error e => simp [hlink] at hok
    | ok p =>
      simp only [hlink, Prod.mk.injEq, true_and] at hok
      rcases hok with ⟨rfl, rfl⟩
      rcases link_eq_ok hlink with ⟨hslots, hcells, hvalue⟩
      obtain ⟨⟨v, hv⟩, -⟩ := hjoins
      refine ⟨hslots, ?_, fun other _ => by rw [Env.cell?, hcells]; rfl⟩
      rw [hvalue v hv, Env.cell?, hcells]
      exact hv

/-- The value a program reads at a cell of texts. -/
def note (text : String) : Value := .scalar (.string text)

/-- Any other cell may be linked next. -/
theorem joins_of_unlinked (hcell : env.cell? slot.cell = some v)
    (hslots : ∀ other ∈ s.slots, other.cell ≠ slot.cell) : (Change.link slot).Joins s env :=
  ⟨⟨v, hcell⟩, fun other hother heq => absurd heq (hslots other hother)⟩

theorem mirrors_levels :
    ∃ (s s' : Setting Unit) (env env' : Env Unit),
      History s env ∧ s.perform (.setText " 7 ") env = (.ok (), s', env') ∧
        s'.slots = [⟨0, .scalar .int64⟩, ⟨1, .scalar .int32⟩] ∧
        ∀ slot ∈ s'.slots, env'.cell? slot.cell = some (level 7) := by
  obtain ⟨s, hnew⟩ : ∃ s : Setting Unit, Setting.new "level" "" (level 1) = .ok s := ⟨_, rfl⟩
  have hslots : s.slots = [] := by rw [(new_eq_ok_iff.1 hnew).2]
  cases hnew
  have hstart := History.start (⟨[level 2, level 3], (), []⟩ : Env Unit) hslots
  have hfirst := hstart.change (.link ⟨0, .scalar .int64⟩) (joins_of_unlinked rfl (by simp))
  have hsecond := hfirst.change (.link ⟨1, .scalar .int32⟩)
    (joins_of_unlinked rfl (List.forall_mem_singleton.2 (by decide)))
  refine ⟨_, _, _, _, hsecond, rfl, rfl, ?_⟩
  have h := mirrors_of_history (c := .setText " 7 ") hsecond trivial rfl
  intro slot hslot
  have hwhole : slot.view.Whole := by
    rcases List.mem_pair.1 hslot with rfl | rfl <;> simp [View.Whole]
  exact h.1 trivial slot hslot (Or.inl hwhole)

/-- A cell that is linked later gives the setting a value that the first cell does not hold. -/
theorem lags_after_link :
    ∃ (s s' : Setting Unit) (env env' : Env Unit),
      History s env ∧ (Change.link ⟨1, .scalar .string⟩).Joins s env ∧
        s.perform (.link ⟨1, .scalar .string⟩) env = (.ok (), s', env') ∧
        s'.slots = [⟨0, .scalar .string⟩, ⟨1, .scalar .string⟩] ∧
        s'.value = note "b" ∧ env'.cell? 0 = some (note "a") ∧
        (note "a").same (note "b") = false := by
  obtain ⟨s, hnew⟩ : ∃ s : Setting Unit, Setting.new "o" "" (note "") = .ok s := ⟨_, rfl⟩
  have hslots : s.slots = [] := by rw [(new_eq_ok_iff.1 hnew).2]
  cases hnew
  have hstart := History.start (⟨[note "a", note "b"], (), []⟩ : Env Unit) hslots
  have hfirst := hstart.change (.link ⟨0, .scalar .string⟩) (joins_of_unlinked rfl (by simp))
  exact ⟨_, _, _, _, hfirst, joins_of_unlinked rfl (List.forall_mem_singleton.2 (by decide)),
    rfl, rfl, rfl, rfl, rfl⟩

end Setting
end SignalTree
