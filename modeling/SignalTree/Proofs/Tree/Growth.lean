import Mathlib.Data.Nat.Basic
import Mathlib.Order.Basic
import SignalTree.Proofs.Keyed
import SignalTree.Proofs.Tree.Lookup

/-!
# Growth — the invariant of a tree, and ways up to the root

A tree starts as a root and grows by attaching components under identifiers that were never given
before.  So a parent is always older than its children, and this alone rules out a cycle.

* `Tree.Grown`: what every operation on a tree keeps true;
* `Tree.climb`: the component that is a number of parents above another one;
* `Grown.climb_lt_size`: a way up is shorter than the number of components;
* `Grown.exists_climb_root`: from every component there is a way up to the root.
-/

namespace SignalTree
namespace Tree

variable {σ η : Type} {t : Tree σ η}

/-! ## Parents -/

/-- The parent of a component, if it is there and has one. -/
def parent? (t : Tree σ η) (id : NodeId) : Option NodeId := (t.get? id).bind Component.parent

/-- The component so many parents above another one. -/
def climb (t : Tree σ η) : Nat → NodeId → Option NodeId
  | 0, id => some id
  | n + 1, id => (t.parent? id).bind (climb t n)

theorem parent?_eq_some_iff {k p : NodeId} :
    t.parent? k = some p ↔ ∃ c, t.get? k = some c ∧ c.parent = some p := by
  simp [parent?, Option.bind_eq_some_iff]

theorem climb_add (m n : Nat) (id : NodeId) :
    t.climb (m + n) id = (t.climb m id).bind (t.climb n) := by
  induction m generalizing id with
  | zero => simp [climb]
  | succ m ih =>
    rw [Nat.succ_add]
    cases h : t.parent? id with
    | none => simp [climb, h]
    | some p => simpa [climb, h] using ih p

theorem climb_one (id : NodeId) : t.climb 1 id = t.parent? id := by
  cases h : t.parent? id <;> simp [climb, h]

/-- The last step of a way up. -/
theorem climb_succ_eq_some_iff {n : Nat} {k a : NodeId} :
    t.climb (n + 1) k = some a ↔ ∃ b, t.climb n k = some b ∧ t.parent? b = some a := by
  rw [climb_add, Option.bind_eq_some_iff]
  simp only [climb_one]

/-! ## The invariant -/

/-- What every operation on a tree keeps true. -/
structure Grown (t : Tree σ η) : Prop where
  ids_nodup : t.ids.Nodup
  /-- No identifier has been given that is still to come. -/
  ids_lt_next : ∀ id ∈ t.ids, id < t.next
  root_live : ∃ r, t.get? t.root = some r ∧ r.parent = none
  /-- A component other than the root stands in the table of an older one. -/
  has_parent : ∀ id c, t.get? id = some c → id ≠ t.root →
    ∃ p pc, c.parent = some p ∧ p < id ∧ t.get? p = some pc ∧ (c.name, id) ∈ pc.children
  /-- What stands in a table is there, and agrees with the table. -/
  child_live : ∀ id c n k, t.get? id = some c → (n, k) ∈ c.children →
    ∃ kc, t.get? k = some kc ∧ kc.parent = some id ∧ kc.name = n
  names_distinct : ∀ id c, t.get? id = some c → Keyed.Distinct c.children

namespace Grown

variable {k p a : NodeId}

theorem lt_next (h : t.Grown) {c : Component σ η} (hk : t.get? k = some c) : k < t.next :=
  h.ids_lt_next k (mem_ids_iff.2 ⟨c, hk⟩)

theorem next_free (h : t.Grown) : t.get? t.next = none := by
  cases hget : t.get? t.next with
  | none => rfl
  | some c => exact absurd (h.lt_next hget) (lt_irrefl _)

theorem contains_root (h : t.Grown) : t.contains t.root = true := by
  rcases h.root_live with ⟨r, hr, _⟩
  exact contains_iff.2 ⟨r, hr⟩

theorem parent?_root (h : t.Grown) : t.parent? t.root = none := by
  rcases h.root_live with ⟨r, hr, hparent⟩
  simp [parent?, hr, hparent]

theorem ne_root_of_parent? (h : t.Grown) (hk : t.parent? k = some p) : k ≠ t.root := by
  rintro rfl
  rw [h.parent?_root] at hk
  cases hk

/-- The parent of a component is older, and has it in its table. -/
theorem parent?_spec (h : t.Grown) (hk : t.parent? k = some p) :
    ∃ c pc, t.get? k = some c ∧ p < k ∧ t.get? p = some pc ∧ (c.name, k) ∈ pc.children := by
  rcases parent?_eq_some_iff.1 hk with ⟨c, hc, hcp⟩
  rcases h.has_parent k c hc (h.ne_root_of_parent? hk) with ⟨q, qc, hq, hlt, hqc, hmem⟩
  have hpq : p = q := by
    rw [hcp] at hq
    exact Option.some.inj hq
  subst hpq
  exact ⟨c, qc, hc, hlt, hqc, hmem⟩

theorem parent_lt (h : t.Grown) (hk : t.parent? k = some p) : p < k := by
  rcases h.parent?_spec hk with ⟨_, _, _, hlt, _⟩
  exact hlt

/-- Parents and tables say the same. -/
theorem parent?_eq_some_iff_child (h : t.Grown) :
    t.parent? k = some p ↔ ∃ c n, t.get? p = some c ∧ (n, k) ∈ c.children := by
  constructor
  · intro hk
    rcases h.parent?_spec hk with ⟨c, pc, _, _, hpc, hmem⟩
    exact ⟨pc, c.name, hpc, hmem⟩
  · rintro ⟨c, n, hc, hmem⟩
    rcases h.child_live p c n k hc hmem with ⟨kc, hkc, hparent, _⟩
    exact parent?_eq_some_iff.2 ⟨kc, hkc, hparent⟩

/-- A component stands in one table only, under its own name. -/
theorem child_iff (h : t.Grown) {c pc : Component σ η} (hc : t.get? k = some c)
    (hpc : t.get? p = some pc) (n : String) :
    (n, k) ∈ pc.children ↔ c.parent = some p ∧ n = c.name := by
  constructor
  · intro hmem
    rcases h.child_live p pc n k hpc hmem with ⟨kc, hkc, hparent, hname⟩
    have hsame : c = kc := Option.some.inj (hc.symm.trans hkc)
    exact ⟨hsame ▸ hparent, hsame ▸ hname.symm⟩
  · rintro ⟨hparent, rfl⟩
    rcases h.parent?_spec (parent?_eq_some_iff.2 ⟨c, hc, hparent⟩) with
      ⟨c', pc', hc', _, hpc', hmem⟩
    have hsame : c = c' := Option.some.inj (hc.symm.trans hc')
    have hsame' : pc = pc' := Option.some.inj (hpc.symm.trans hpc')
    rw [hsame, hsame']
    exact hmem

/-! ## Ways up -/

/-- The way up leads to older components. -/
theorem climb_le (h : t.Grown) {n : Nat} (hn : t.climb n k = some a) : a ≤ k := by
  induction n generalizing k with
  | zero =>
    have hak : k = a := by simpa [climb] using hn
    exact hak ▸ le_refl _
  | succ n ih =>
    rcases Option.bind_eq_some_iff.1 hn with ⟨p, hp, hrest⟩
    exact (ih hrest).trans (h.parent_lt hp).le

/-- There is only one way up from a component to another one, so its length is a depth. -/
theorem climb_length_unique (h : t.Grown) {m n : Nat} (hm : t.climb m k = some a)
    (hn : t.climb n k = some a) : m = n := by
  wlog hmn : m ≤ n generalizing m n with hwlog
  · exact (hwlog hn hm (Nat.le_of_not_le hmn)).symm
  · obtain ⟨d, rfl⟩ := Nat.exists_eq_add_of_le hmn
    have hrest : t.climb d a = some a := by
      rw [climb_add, hm] at hn
      exact hn
    cases d with
    | zero => rfl
    | succ d =>
      rcases Option.bind_eq_some_iff.1 hrest with ⟨p, hp, hback⟩
      exact absurd (h.climb_le hback) (not_le.2 (h.parent_lt hp))

theorem mem_ids_of_climb (h : t.Grown) {n : Nat} (hk : k ∈ t.ids) (hn : t.climb n k = some a) :
    a ∈ t.ids := by
  induction n generalizing k with
  | zero =>
    have hak : k = a := by simpa [climb] using hn
    exact hak ▸ hk
  | succ n ih =>
    rcases Option.bind_eq_some_iff.1 hn with ⟨p, hp, hrest⟩
    rcases h.parent?_spec hp with ⟨_, pc, _, _, hpc, _⟩
    exact ih (mem_ids_iff.2 ⟨pc, hpc⟩) hrest

/-- The number of components that are at least as old. -/
def elders (t : Tree σ η) (k : NodeId) : Nat := t.ids.countP fun i => i ≤ k

theorem elders_le_size (t : Tree σ η) (k : NodeId) : elders t k ≤ t.size := by
  have hlen : t.size = t.ids.length := by simp [size, ids]
  rw [hlen]
  exact List.countP_le_length

theorem elders_lt_elders (t : Tree σ η) (hk : k ∈ t.ids) (hlt : p < k) :
    elders t p < elders t k := by
  rcases List.append_of_mem hk with ⟨before, after, hsplit⟩
  have hmono : ∀ l : List NodeId,
      l.countP (fun i => decide (i ≤ p)) ≤ l.countP fun i => decide (i ≤ k) := by
    intro l
    apply List.countP_mono_left
    intro i _ hi
    have hip : i ≤ p := by simpa using hi
    simpa using hip.trans hlt.le
  have hbefore := hmono before
  have hafter := hmono after
  simp only [elders, hsplit, List.countP_append, List.countP_cons]
  simp only [le_refl, decide_true, if_true, decide_eq_true_eq, not_le.2 hlt, if_false]
  omega

/-- Each step up passes a component that is not passed again, so the way is shorter than the number
of components. -/
theorem climb_lt_elders (h : t.Grown) {n : Nat} (hk : k ∈ t.ids) (hn : t.climb n k = some a) :
    n < elders t k := by
  induction n generalizing k with
  | zero => exact List.countP_pos_iff.2 ⟨k, hk, by simp⟩
  | succ n ih =>
    rcases Option.bind_eq_some_iff.1 hn with ⟨p, hp, hrest⟩
    rcases h.parent?_spec hp with ⟨_, pc, _, hlt, hpc, _⟩
    have hshort : n < elders t p := ih (mem_ids_iff.2 ⟨pc, hpc⟩) hrest
    exact (Nat.succ_le_of_lt hshort).trans_lt (elders_lt_elders t hk hlt)

theorem climb_lt_size (h : t.Grown) {n : Nat} (hk : k ∈ t.ids) (hn : t.climb n k = some a) :
    n < t.size :=
  (h.climb_lt_elders hk hn).trans_le (elders_le_size t k)

/-- From every component there is a way up to the root. -/
theorem exists_climb_root (h : t.Grown) (hk : k ∈ t.ids) : ∃ n, t.climb n k = some t.root := by
  induction k using Nat.strong_induction_on with
  | _ k ih =>
    by_cases hroot : k = t.root
    · exact ⟨0, by simp [climb, hroot]⟩
    · rcases mem_ids_iff.1 hk with ⟨c, hc⟩
      rcases h.has_parent k c hc hroot with ⟨p, pc, hp, hlt, hpc, _⟩
      rcases ih p hlt (mem_ids_iff.2 ⟨pc, hpc⟩) with ⟨n, hn⟩
      have hparent : t.parent? k = some p := parent?_eq_some_iff.2 ⟨c, hc, hp⟩
      exact ⟨n + 1, by simpa [climb, hparent] using hn⟩

end Grown
end Tree
end SignalTree
