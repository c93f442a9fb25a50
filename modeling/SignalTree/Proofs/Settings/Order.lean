import Mathlib.Data.List.Basic
import SignalTree.Proofs.Settings.Progress

/-!
# Order — frames whose entries stand in another order

Setting an option looks at this option alone.  So a frame can be applied in any order: it fails in
all of them or in none, and two entries leave the same behind whichever comes first, in the options
and, if no cell is linked to two options, in the cells.

* `Setting.overlay`: cells of which some are written;
* `Setting.stored`: what a value that is written to some slots leaves in a cell;
* `Settings.Takes`: an option is there, and takes a value;
* `setEntries_eq_ok_iff_forall`: entries are applied if and only if each is taken;
* `Settings.store`, `Applied.cells_eq`: what entries leave in the cells;
* `configure_perm`: the order of the entries does not matter, and applying them again changes
  nothing.
-/

namespace SignalTree

variable {σ : Type}

/-! ## What is left in a cell -/

/-- What a slot takes of a value, for the cell that it is linked to. -/
def Slot.written (slot : Slot) (v : Value) (i : Nat) : Option Value :=
  if slot.cell = i then slot.view.read v else none

namespace Setting

variable {slots : List Slot} {v : Value} {i : Nat} {w w' : Nat → Option Value}

/-- The cells after some of them were written, each with the value that `w` says. -/
def overlay (w : Nat → Option Value) (cells : List Value) : List Value :=
  cells.mapIdx fun i old => (w i).getD old

theorem overlay_none (cells : List Value) : overlay (fun _ => none) cells = cells := by
  apply List.ext_getElem?
  intro i
  simp [overlay, List.getElem?_mapIdx]

/-- Where both write, what is written last counts. -/
theorem overlay_overlay (w w' : Nat → Option Value) (cells : List Value) :
    overlay w' (overlay w cells) = overlay (fun i => (w' i).or (w i)) cells := by
  rw [overlay, overlay, overlay, List.mapIdx_mapIdx]
  congr 1
  funext i old
  cases w' i <;> simp

theorem overlay_comm (h : ∀ i, w i = none ∨ w' i = none) (cells : List Value) :
    overlay w' (overlay w cells) = overlay w (overlay w' cells) := by
  rw [overlay_overlay, overlay_overlay]
  congr 1
  funext i
  rcases h i with hw | hw <;> simp [hw]

theorem overlay_self (w : Nat → Option Value) (cells : List Value) :
    overlay w (overlay w cells) = overlay w cells := by
  simp [overlay_overlay]

/-- What a value that is written to some slots leaves in a cell; none if it is not written.  The
last slot with this cell counts. -/
def stored (v : Value) (i : Nat) : List Slot → Option Value
  | [] => none
  | slot :: rest => (stored v i rest).or (slot.written v i)

theorem stored_eq_none (h : ∀ slot ∈ slots, slot.cell ≠ i) : stored v i slots = none := by
  induction slots with
  | nil => rfl
  | cons slot rest ih =>
    rw [List.forall_mem_cons] at h
    rw [stored, ih h.2, Slot.written, if_neg h.1, Option.or_none]

theorem cells_writeSlot (v : Value) (env : Env σ) (slot : Slot) :
    (writeSlot v env slot).cells = overlay (slot.written v) env.cells := by
  apply List.ext_getElem?
  intro i
  rw [overlay, List.getElem?_mapIdx]
  cases hread : slot.view.read v with
  | none => simp [writeSlot, Slot.written, hread]
  | some w =>
    by_cases hi : slot.cell = i
    · subst hi
      simp only [writeSlot, hread, Env.writeCell, List.getElem?_set_self', Slot.written, if_true,
        Option.getD_some]
      rfl
    · simp [writeSlot, Slot.written, hread, Env.writeCell, hi]

/-- Each cell holds what was written last, or what it held before. -/
theorem cells_writeSlots (slots : List Slot) (v : Value) (env : Env σ) :
    (writeSlots slots v env).cells = overlay (fun i => stored v i slots) env.cells := by
  induction slots generalizing env with
  | nil => exact (overlay_none env.cells).symm
  | cons slot rest ih =>
    have hstep : writeSlots (slot :: rest) v env = writeSlots rest v (writeSlot v env slot) := rfl
    rw [hstep, ih, cells_writeSlot, overlay_overlay]
    rfl

end Setting

namespace Settings

variable {o o' : Settings σ} {env env' : Env σ} {name key : String} {v w : Value}
  {s : Setting σ} {entry : Entry} {entries : List (String × Entry)} {p q : String × Entry}

/-! ## What makes an entry fail -/

/-- Whether a trigger of an option fails depends on the value alone. -/
def Steady (o : Settings σ) : Prop := ∀ p ∈ o.items, p.2.Steady

/-- There is an option of the name, the value passes its checks, and no trigger fails on it. -/
def Takes (o : Settings σ) (name : String) (v : Value) : Prop :=
  ∃ s, o.get? name = some s ∧ s.check v = .ok () ∧ Setting.Passing v s.triggers

theorem Steady.assign (h : o.Steady) (name : String) (v : Value) : (o.assign name v).Steady := by
  intro p hp
  rcases Keyed.mem_of_mem_modify hp with hold | ⟨s, hs, rfl⟩
  · exact h p hold
  · exact h (name, s) hs

/-- The value that an option has does not matter to what it takes. -/
theorem takes_assign_iff : (o.assign key w).Takes name v ↔ o.Takes name v := by
  unfold Takes
  rw [get?_assign]
  split
  · constructor
    · rintro ⟨s, hs, hcheck, hpassing⟩
      rcases Option.map_eq_some_iff.1 hs with ⟨s₀, hs₀, rfl⟩
      exact ⟨s₀, hs₀, hcheck, hpassing⟩
    · rintro ⟨s, hs, hcheck, hpassing⟩
      exact ⟨{ s with value := w }, by rw [hs]; rfl, hcheck, hpassing⟩
  · rfl

theorem Steady.assignAll (h : o.Steady) (entries : List (String × Entry)) :
    (o.assignAll entries).Steady := by
  induction entries generalizing o with
  | nil => exact h
  | cons p rest ih => exact ih (h.assign p.1 p.2.toValue)

theorem takes_assignAll_iff : (o.assignAll entries).Takes name v ↔ o.Takes name v := by
  induction entries generalizing o with
  | nil => rfl
  | cons p rest ih => exact ih.trans takes_assign_iff

theorem set_eq_ok_iff_takes (h : o.Steady) (env : Env σ) :
    (o.set name v env).1 = .ok () ↔ o.Takes name v := by
  unfold Settings.set Takes
  cases hget : o.get? name with
  | none => simp [get, hget]
  | some s =>
    have hs : s.Steady := h (name, s) (Keyed.mem_of_lookup_eq_some hget)
    cases hcheck : s.check v with
    | error e => simp [get, hget, Setting.set, hcheck]
    | ok u =>
      have hrun := hs.runTriggers_eq_ok_iff s.name v 0
        (Setting.writeSlots s.slots v (env.emit (.optionChanged s.name v)))
      simpa [get, hget, Setting.set, hcheck, Setting.commit] using hrun

/-- Entries are applied if and only if each of them is taken, by the options as they were. -/
theorem setEntries_eq_ok_iff_forall (h : o.Steady) (env : Env σ) :
    (o.setEntries env entries).1 = .ok () ↔ ∀ p ∈ entries, o.Takes p.1 p.2.toValue := by
  induction entries generalizing o env with
  | nil => simp [setEntries]
  | cons p rest ih =>
    rcases p with ⟨key, entry⟩
    rw [List.forall_mem_cons, ← set_eq_ok_iff_takes h env]
    rcases hset : o.set key entry.toValue env with ⟨result, o₁, env₁⟩
    cases result with
    | error e => simp [setEntries, hset]
    | ok u =>
      obtain rfl : o₁ = o.assign key entry.toValue := eq_assign_of_set hset
      have hrest := ih (h.assign key entry.toValue) env₁
      simp only [takes_assign_iff] at hrest
      simpa [setEntries, hset] using hrest

/-! ## What entries leave behind -/

theorem assign_comm (hne : name ≠ key) (v w : Value) :
    (o.assign name v).assign key w = (o.assign key w).assign name v := by
  unfold assign
  rw [Keyed.modify_comm hne.symm]

theorem assignAll_eq_self (h : ∀ p ∈ entries, ∃ s, o.get? p.1 = some s ∧ s.value = p.2.toValue) :
    o.assignAll entries = o := by
  induction entries with
  | nil => rfl
  | cons p rest ih =>
    rw [List.forall_mem_cons] at h
    rcases h with ⟨⟨s, hs, hv⟩, hrest⟩
    have hstep : o.assignAll (p :: rest) = (o.assign p.1 p.2.toValue).assignAll rest := rfl
    rw [hstep, assign_eq_self hs hv, ih hrest]

/-- No cell is linked to two options. -/
def Apart (o : Settings σ) : Prop :=
  ∀ name₁ name₂ s₁ s₂, name₁ ≠ name₂ → o.get? name₁ = some s₁ → o.get? name₂ = some s₂ →
    ∀ a ∈ s₁.slots, ∀ b ∈ s₂.slots, a.cell ≠ b.cell

/-- What an entry leaves in a cell. -/
def stored (o : Settings σ) (p : String × Entry) (i : Nat) : Option Value :=
  (o.get? p.1).bind fun s => Setting.stored p.2.toValue i s.slots

/-- The cells after the option of an entry was set. -/
def store (o : Settings σ) (cells : List Value) (p : String × Entry) : List Value :=
  Setting.overlay (o.stored p) cells

theorem store_assign (o : Settings σ) (name : String) (v : Value) :
    (o.assign name v).store = o.store := by
  funext cells p
  have hstored : (o.assign name v).stored p = o.stored p := by
    funext i
    rw [stored, stored, get?_assign]
    split
    · cases o.get? p.1 <;> rfl
    · rfl
  rw [store, store, hstored]

theorem store_assignAll (o : Settings σ) (entries : List (String × Entry)) :
    (o.assignAll entries).store = o.store := by
  induction entries generalizing o with
  | nil => rfl
  | cons p rest ih => exact (ih (o.assign p.1 p.2.toValue)).trans (store_assign ..)

theorem Apart.stored_eq_none (h : o.Apart) (hne : p.1 ≠ q.1) (i : Nat) :
    o.stored p i = none ∨ o.stored q i = none := by
  unfold stored
  cases hp : o.get? p.1 with
  | none => exact Or.inl rfl
  | some s =>
    cases hq : o.get? q.1 with
    | none => exact Or.inr rfl
    | some t =>
      by_cases hlinked : ∃ slot ∈ s.slots, slot.cell = i
      · rcases hlinked with ⟨a, ha, rfl⟩
        right
        exact Setting.stored_eq_none fun b hb heq => h p.1 q.1 s t hne hp hq a ha b hb heq.symm
      · left
        exact Setting.stored_eq_none fun slot hslot heq => hlinked ⟨slot, hslot, heq⟩

theorem Apart.store_comm (h : o.Apart) (hne : p.1 ≠ q.1) (cells : List Value) :
    o.store (o.store cells p) q = o.store (o.store cells q) p :=
  Setting.overlay_comm (h.stored_eq_none hne) cells

theorem cells_of_set (h : o.set key entry.toValue env = (.ok (), o', env')) :
    env'.cells = o.store env.cells (key, entry) := by
  rcases exists_of_set_eq_ok h with ⟨s, hs, hcheck⟩
  have hget : o.get key = .ok s := get_eq_ok_iff.2 hs
  have henv : (s.commit entry.toValue env).2.2 = env' := by
    simp only [Settings.set, hget, Setting.set, hcheck, Prod.mk.injEq] at h
    exact h.2.2
  have hstored : o.stored (key, entry) = fun i => Setting.stored entry.toValue i s.slots := by
    funext i
    rw [stored, hs, Option.bind_some]
  rw [← henv, Setting.commit_cells, Setting.cells_writeSlots, store, hstored]
  rfl

theorem Applied.cells_eq (h : Applied o env entries o' env') :
    env'.cells = entries.foldl o.store env.cells := by
  induction h with
  | done o env => rfl
  | next hset _ ih =>
    rw [ih, cells_of_set hset, eq_assign_of_set hset, store_assign, List.foldl_cons]

/-! ## Any order, and any number of times -/

/-- Steps of which each two commute, and none of which does anything the second time, do nothing
when all of them are done a second time. -/
theorem foldl_foldl_eq_self {α β : Type} {f : β → α → β} {l : List α}
    (hcomm : ∀ a ∈ l, ∀ b ∈ l, ∀ z, f (f z a) b = f (f z b) a)
    (hself : ∀ a ∈ l, ∀ z, f (f z a) a = f z a) (z : β) :
    l.foldl f (l.foldl f z) = l.foldl f z := by
  induction l generalizing z with
  | nil => rfl
  | cons a rest ih =>
    -- the second time the first step is brought forward to its first time
    have hperm : (a :: rest).Perm (rest ++ [a]) := (List.perm_append_singleton a rest).symm
    have hfront : ∀ y, f (rest.foldl f y) a = rest.foldl f (f y a) := by
      intro y
      simpa using (hperm.foldl_eq' hcomm y).symm
    simp only [List.forall_mem_cons] at hself
    have hrest := ih (fun b hb c hc => hcomm b (List.mem_cons_of_mem _ hb) c
      (List.mem_cons_of_mem _ hc)) hself.2 (f z a)
    calc (a :: rest).foldl f ((a :: rest).foldl f z)
        = rest.foldl f (f (rest.foldl f (f z a)) a) := rfl
      _ = rest.foldl f (rest.foldl f (f (f z a) a)) := by rw [hfront]
      _ = rest.foldl f (rest.foldl f (f z a)) := by rw [hself.1]
      _ = (a :: rest).foldl f z := hrest

theorem eq_of_fst_eq (hkeys : Keyed.Distinct entries) (hp : p ∈ entries) (hq : q ∈ entries)
    (h : p.1 = q.1) : p = q := by
  have hfirst := Keyed.lookup_eq_some_of_mem (a := p.2) hkeys hp
  have hsecond := Keyed.lookup_eq_some_of_mem (a := q.2) hkeys hq
  rw [h, hsecond] at hfirst
  exact Prod.ext h (Option.some.inj hfirst).symm

/-- Under distinct keys, steps that commute for two keys commute for two entries. -/
theorem comm_of_distinct {β : Type} {f : β → String × Entry → β} (hkeys : Keyed.Distinct entries)
    (h : ∀ p q : String × Entry, p.1 ≠ q.1 → ∀ z, f (f z p) q = f (f z q) p) :
    ∀ p ∈ entries, ∀ q ∈ entries, ∀ z, f (f z p) q = f (f z q) p := by
  intro p hp q hq z
  by_cases hfst : p.1 = q.1
  · rw [eq_of_fst_eq hkeys hp hq hfst]
  · exact h p q hfst z

theorem Applied.eq_of_perm {entries₂ : List (String × Entry)} {o₂ : Settings σ} {env₂ : Env σ}
    (h : Applied o env entries o' env') (h₂ : Applied o env entries₂ o₂ env₂)
    (hkeys : Keyed.Distinct entries) (hperm : entries.Perm entries₂) : o₂ = o' := by
  have hcomm := comm_of_distinct (f := fun (o : Settings σ) p => o.assign p.1 p.2.toValue) hkeys
    fun p q hne o => assign_comm hne p.2.toValue q.2.toValue
  rw [h.eq_assignAll, h₂.eq_assignAll]
  exact (hperm.foldl_eq' hcomm o).symm

theorem Applied.cells_eq_of_perm {entries₂ : List (String × Entry)} {o₂ : Settings σ} {env₂ : Env σ}
    (h : Applied o env entries o' env') (h₂ : Applied o env entries₂ o₂ env₂) (hapart : o.Apart)
    (hkeys : Keyed.Distinct entries) (hperm : entries.Perm entries₂) : env₂.cells = env'.cells := by
  have hcomm := comm_of_distinct hkeys fun p q hne z => hapart.store_comm hne z
  rw [h.cells_eq, h₂.cells_eq]
  exact (hperm.foldl_eq' hcomm env.cells).symm

/-- What was taken is taken again. -/
theorem Applied.again (h : Applied o env entries o' env') (hsteady : o.Steady) (hapart : o.Apart)
    (hkeys : Keyed.Distinct entries) :
    ∃ env₂, Applied o' env' entries o' env₂ ∧ env₂.cells = env'.cells := by
  have htakes : ∀ p ∈ entries, o'.Takes p.1 p.2.toValue := by
    rw [h.eq_assignAll]
    intro p hp
    rw [takes_assignAll_iff]
    have hok : (o.setEntries env entries).1 = .ok () := by rw [setEntries_eq_ok_iff.2 h]
    exact (setEntries_eq_ok_iff_forall hsteady env).1 hok p hp
  have hsteady' : o'.Steady := by
    rw [h.eq_assignAll]
    exact hsteady.assignAll entries
  have hok := (setEntries_eq_ok_iff_forall hsteady' env').2 htakes
  rcases hagain : o'.setEntries env' entries with ⟨r, o₂, env₂⟩
  obtain rfl : r = .ok () := by rwa [hagain] at hok
  have happlied := setEntries_eq_ok_iff.1 hagain
  have hoptions : o₂ = o' := by
    rw [happlied.eq_assignAll]
    apply assignAll_eq_self
    intro p hp
    rcases (h.updated hkeys).named p.1 p.2 hp with ⟨s, _, hs⟩
    exact ⟨_, hs, rfl⟩
  refine ⟨env₂, hoptions ▸ happlied, ?_⟩
  have hcomm := comm_of_distinct hkeys fun p q hne z => hapart.store_comm hne z
  have hself : ∀ p ∈ entries, ∀ z, o.store (o.store z p) p = o.store z p :=
    fun p _ z => Setting.overlay_self (o.stored p) z
  rw [happlied.cells_eq, h.eq_assignAll, store_assignAll, h.cells_eq]
  exact foldl_foldl_eq_self hcomm hself env.cells

/-- The order of the entries of a frame does not matter.  If the triggers go by the value alone, the
frame is applied in any order or in none; if moreover no cell is linked to two options, the options
and the cells are the same afterwards.  Applying it once more succeeds, and changes neither. -/
theorem configure_perm (o : Settings σ) (env : Env σ) {f g : Frame} (hsteady : o.Steady)
    (hapart : o.Apart) (hkeys : Keyed.Distinct f.entries) (hperm : f.entries.Perm g.entries) :
    ((o.configure f env).1 = .ok () ↔ (o.configure g env).1 = .ok ()) ∧
    ∀ o' env', o.configure f env = (.ok (), o', env') →
      (∃ env₂, o.configure g env = (.ok (), o', env₂) ∧ env₂.cells = env'.cells) ∧
      ∃ env₂, o'.configure f env' = (.ok (), o', env₂) ∧ env₂.cells = env'.cells := by
  have hiff : (o.configure f env).1 = .ok () ↔ (o.configure g env).1 = .ok () := by
    rw [configure, configure, setEntries_eq_ok_iff_forall hsteady,
      setEntries_eq_ok_iff_forall hsteady]
    exact ⟨fun h p hp => h p (hperm.mem_iff.2 hp), fun h p hp => h p (hperm.mem_iff.1 hp)⟩
  refine ⟨hiff, ?_⟩
  intro o' env' hf
  have happlied := setEntries_eq_ok_iff.1 hf
  constructor
  · rcases hg : o.configure g env with ⟨r, o₂, env₂⟩
    obtain rfl : r = .ok () := by
      rw [hf, hg] at hiff
      exact hiff.1 rfl
    have happlied₂ := setEntries_eq_ok_iff.1 hg
    exact ⟨env₂, by rw [happlied.eq_of_perm happlied₂ hkeys hperm],
      happlied.cells_eq_of_perm happlied₂ hapart hkeys hperm⟩
  · rcases happlied.again hsteady hapart hkeys with ⟨env₂, hagain, hcells⟩
    exact ⟨env₂, setEntries_eq_ok_iff.2 hagain, hcells⟩

/-- Two levels, each in a cell of its own; the lower one must not become three. -/
def gauges (low high : Int64) : Settings Unit where
  owner := "cpath:/a"
  items := [
    ("low", ⟨"low", "", "", Setting.level low, Setting.level 1, [Setting.level 1, Setting.level 2],
      .basic, [Setting.refuseThree], [⟨0, .scalar .int32⟩]⟩),
    ("high", ⟨"high", "", "", Setting.level high, Setting.level 9, [], .basic, [],
      [⟨1, .scalar .int64⟩]⟩)]

/-- Both levels are set, the lower one first. -/
def gaugesFrame : Frame where
  description := ""
  tier := none
  entries := [("low", .value (Setting.level 2) .none), ("high", .value (Setting.level 7) .none)]

theorem configure_perm_gauges :
    (gauges 1 9).Steady ∧ (gauges 1 9).Apart ∧ Keyed.Distinct gaugesFrame.entries ∧
      ∃ env₂ env₃ : Env Unit,
        (gauges 1 9).configure { gaugesFrame with entries := gaugesFrame.entries.reverse }
            ⟨[Setting.level 1, Setting.level 9], (), []⟩ = (.ok (), gauges 2 7, env₂) ∧
          env₂.cells = [Setting.level 2, Setting.level 7] ∧
          (gauges 2 7).configure gaugesFrame ⟨[Setting.level 2, Setting.level 7], (),
            [.optionChanged "low" (Setting.level 2), .optionChanged "high" (Setting.level 7)]⟩
            = (.ok (), gauges 2 7, env₃) ∧
          env₃.cells = [Setting.level 2, Setting.level 7] := by
  have hsteady : (gauges 1 9).Steady := by
    intro p hp t ht v cells host cells' host' h
    rcases List.mem_pair.1 hp with rfl | rfl
    · rw [List.mem_singleton.1 ht] at h ⊢
      exact h
    · cases ht
  have hapart : (gauges 1 9).Apart := by
    intro name₁ name₂ s₁ s₂ hne h₁ h₂ a ha b hb
    rcases List.mem_pair.1 (Keyed.mem_of_lookup_eq_some h₁) with h₁ | h₁ <;>
      rcases List.mem_pair.1 (Keyed.mem_of_lookup_eq_some h₂) with h₂ | h₂ <;> cases h₁ <;> cases h₂
    · exact absurd rfl hne
    · rw [List.mem_singleton.1 ha, List.mem_singleton.1 hb]
      decide
    · rw [List.mem_singleton.1 ha, List.mem_singleton.1 hb]
      decide
    · exact absurd rfl hne
  have hkeys : Keyed.Distinct gaugesFrame.entries := by decide
  have hperm : gaugesFrame.entries.Perm gaugesFrame.entries.reverse :=
    (List.reverse_perm _).symm
  rcases (configure_perm (gauges 1 9) ⟨[Setting.level 1, Setting.level 9], (), []⟩
    (g := { gaugesFrame with entries := gaugesFrame.entries.reverse }) hsteady hapart hkeys
    hperm).2 _ _ rfl with ⟨⟨env₂, hreverse, hcells⟩, env₃, hagain, hcells'⟩
  exact ⟨hsteady, hapart, hkeys, env₂, env₃, hreverse, hcells, hagain, hcells'⟩

end Settings
end SignalTree
