import Mathlib.Data.List.Nodup
import Mathlib.Data.List.Perm.Subperm
import SignalTree.Keyed

/-!
# Keyed — what updates do to look-ups

The lists of pairs that hold options, children and frames are looked up by key.  This file says
what a look-up finds after each update, and that the updates keep the keys distinct.

* `Keyed.keys_map`, `Keyed.lookup_map`: what is made of the values stands under the same keys;
* `Keyed.lookup_eq_some_iff_mem`: under distinct keys a look-up finds exactly the entries;
* `Keyed.put_of_lookup_eq_none`: a new entry goes to the end;
* `Keyed.ofList_of_distinct`, `Keyed.distinct_of_length_le`: entries that are put in one after the
  other stay as they are if their keys are distinct, and else some of them are lost;
* `Keyed.mem_erase_iff`, `Keyed.erase_eq_filter`: what is left after an entry is removed;
* `Keyed.lookup_put`, `Keyed.lookup_erase`: what is found after an entry is put or removed.
-/

namespace SignalTree
namespace Keyed

variable {α : Type} {entries : List (String × α)} {key : String} {a : α}

/-! ## Keys -/

/-- What is made of the values does not change the keys. -/
theorem keys_map {β : Type} (f : String × α → β) (entries : List (String × α)) :
    keys (entries.map fun p => (p.1, f p)) = keys entries := by
  rw [keys, List.map_map]
  rfl

theorem Distinct.of_keys_eq {β : Type} {other : List (String × β)} (hd : Distinct entries)
    (hkeys : keys other = keys entries) : Distinct other := by
  rw [Distinct, hkeys]
  exact hd

/-! ## A part of the entries -/

theorem distinct_of_append {back : List (String × α)} (hd : Distinct (entries ++ back)) :
    Distinct entries :=
  hd.sublist ((List.sublist_append_left ..).map Prod.fst)

/-- A key has not stood before. -/
theorem notMem_of_append_cons {front back : List (String × α)}
    (hd : Distinct (front ++ (key, a) :: back)) : key ∉ keys front := by
  intro hmem
  have hsplit : (keys front ++ key :: keys back).Nodup := by
    simpa [Distinct, keys] using hd
  exact List.disjoint_of_nodup_append hsplit hmem (List.mem_cons_self ..)

/-! ## Look-ups -/

theorem lookup_eq_none_iff_notMem_keys : entries.lookup key = none ↔ key ∉ keys entries := by
  rw [List.lookup_eq_none_iff]
  constructor
  · intro h hmem
    rcases List.mem_map.1 hmem with ⟨p, hp, rfl⟩
    simpa using h p hp
  · intro h p hp
    simp only [bne_iff_ne, ne_eq]
    rintro rfl
    exact h (List.mem_map_of_mem hp)

theorem mem_of_lookup_eq_some (h : entries.lookup key = some a) : (key, a) ∈ entries := by
  rcases List.lookup_eq_some_iff.1 h with ⟨before, after, rfl, _⟩
  exact List.mem_append_right _ (List.mem_cons_self ..)

theorem lookup_eq_some_of_mem (hd : Distinct entries) (h : (key, a) ∈ entries) :
    entries.lookup key = some a := by
  rcases List.append_of_mem h with ⟨before, after, rfl⟩
  rw [List.lookup_eq_some_iff]
  refine ⟨before, after, rfl, ?_⟩
  intro p hp
  simp only [bne_iff_ne, ne_eq]
  rintro rfl
  exact notMem_of_append_cons hd (List.mem_map_of_mem hp)

/-- Under distinct keys a look-up finds exactly the entries. -/
theorem lookup_eq_some_iff_mem (hd : Distinct entries) :
    entries.lookup key = some a ↔ (key, a) ∈ entries :=
  ⟨mem_of_lookup_eq_some, lookup_eq_some_of_mem hd⟩

/-- A look-up in changed values finds the changed value. -/
theorem lookup_map {β : Type} (f : α → β) (entries : List (String × α)) (key : String) :
    (entries.map fun p => (p.1, f p.2)).lookup key = (entries.lookup key).map f := by
  induction entries with
  | nil => rfl
  | cons p rest ih =>
    rw [List.map_cons, List.lookup_cons, List.lookup_cons, ih]
    cases key == p.1 <;> rfl

/-! ## Putting an entry -/

/-- A new entry goes to the end. -/
theorem put_of_lookup_eq_none (h : entries.lookup key = none) :
    put key a entries = entries ++ [(key, a)] := by
  induction entries with
  | nil => rfl
  | cons p rest ih =>
    have hne : p.1 ≠ key := by
      intro he
      simp [← he] at h
    have hrest : rest.lookup key = none := by
      rw [List.lookup_eq_none_iff] at h ⊢
      exact fun q hq => h q (List.mem_cons_of_mem _ hq)
    simp [put, hne, ih hrest]

theorem distinct_append_of_lookup_eq_none (hd : Distinct entries)
    (h : entries.lookup key = none) : Distinct (entries ++ [(key, a)]) := by
  have hkey : key ∉ keys entries := lookup_eq_none_iff_notMem_keys.1 h
  simp only [Distinct, keys, List.map_append, List.map_cons, List.map_nil] at hd hkey ⊢
  exact List.Nodup.append hd (List.nodup_singleton _) (by simpa using hkey)

/-- A look-up after an entry was put finds it under its key, and what was there under all others. -/
theorem lookup_put (entries : List (String × α)) (key other : String) (a : α) :
    (put key a entries).lookup other = if other = key then some a else entries.lookup other := by
  induction entries with
  | nil =>
    by_cases ho : other = key <;> simp [put, ho]
  | cons p rest ih =>
    rcases p with ⟨k, b⟩
    by_cases hk : k = key
    · subst hk
      by_cases ho : other = k
      · simp [put, ho]
      · have hbeq : (other == k) = false := by simpa using ho
        simp [put, ho, List.lookup_cons, hbeq]
    · by_cases ho : other = k
      · subst ho
        simp [put, hk]
      · have hbeq : (other == k) = false := by simpa using ho
        simp [put, hk, List.lookup_cons, hbeq, ih]

/-- Entries put in one after the other stay as they are if their keys are distinct. -/
theorem ofList_of_distinct (hd : Distinct entries) : ofList entries = entries := by
  have hfold : ∀ acc : List (String × α), Distinct (acc ++ entries) →
      entries.foldl (fun acc e => put e.1 e.2 acc) acc = acc ++ entries := by
    clear hd
    induction entries with
    | nil => simp
    | cons e rest ih =>
      intro acc hacc
      have hkey : acc.lookup e.1 = none := by
        rw [lookup_eq_none_iff_notMem_keys]
        exact notMem_of_append_cons hacc
      rw [List.foldl_cons, put_of_lookup_eq_none hkey, ih _ (by simpa using hacc),
        List.append_assoc]
      rfl
  exact hfold [] hd

theorem distinct_put (hd : Distinct entries) : Distinct (put key a entries) := by
  induction entries with
  | nil => simp [put, Distinct, keys]
  | cons p rest ih =>
    rcases p with ⟨k, b⟩
    have hk : k ∉ keys rest := (List.nodup_cons.1 hd).1
    have hrest : Distinct rest := (List.nodup_cons.1 hd).2
    by_cases he : k = key
    · rw [put, if_pos he]
      exact List.nodup_cons.2 ⟨hk, hrest⟩
    · rw [put, if_neg he]
      refine List.nodup_cons.2 ⟨?_, ih hrest⟩
      intro hmem
      -- an entry of the longer list is the new one, or it was there
      have hsome : (put key a rest).lookup k ≠ none := by
        intro hnone
        exact lookup_eq_none_iff_notMem_keys.1 hnone hmem
      rw [lookup_put, if_neg he] at hsome
      exact hsome (lookup_eq_none_iff_notMem_keys.2 hk)

theorem distinct_ofList (entries : List (String × α)) : Distinct (ofList entries) :=
  List.foldlRecOn entries _ List.nodup_nil fun _ hacc _ _ => distinct_put hacc

/-- Of entries under one key the last one counts. -/
theorem lookup_ofList (entries : List (String × α)) (key : String) :
    (ofList entries).lookup key = entries.reverse.lookup key := by
  have hfold : ∀ acc : List (String × α),
      (entries.foldl (fun acc e => put e.1 e.2 acc) acc).lookup key =
        (entries.reverse.lookup key).or (acc.lookup key) := by
    induction entries with
    | nil => simp
    | cons e rest ih =>
      rcases e with ⟨k, b⟩
      intro acc
      rw [List.foldl_cons, ih, lookup_put, List.reverse_cons, List.lookup_append, Option.or_assoc]
      by_cases hkey : key = k
      · simp [hkey]
      · have hbeq : (key == k) = false := by simpa using hkey
        simp [hkey, List.lookup_cons, hbeq]
  rw [ofList, hfold, List.lookup_nil, Option.or_none]

theorem mem_of_mem_put {a : α} {p : String × α} (h : p ∈ put key a entries) :
    p ∈ entries ∨ p = (key, a) := by
  induction entries with
  | nil => exact Or.inr (List.mem_singleton.1 h)
  | cons q rest ih =>
    rcases q with ⟨k, b⟩
    rw [put] at h
    split at h
    · rename_i hk
      rcases List.mem_cons.1 h with rfl | hrest
      · exact Or.inr (by rw [hk])
      · exact Or.inl (List.mem_cons_of_mem _ hrest)
    · rcases List.mem_cons.1 h with rfl | hrest
      · exact Or.inl (List.mem_cons_self ..)
      · exact (ih hrest).imp_left (List.mem_cons_of_mem _)

theorem mem_of_mem_ofList {p : String × α} (h : p ∈ ofList entries) : p ∈ entries := by
  have hfold : ∀ acc : List (String × α),
      p ∈ entries.foldl (fun acc e => put e.1 e.2 acc) acc → p ∈ acc ∨ p ∈ entries := by
    clear h
    induction entries with
    | nil => exact fun acc hacc => Or.inl hacc
    | cons e rest ih =>
      intro acc hacc
      rcases ih _ hacc with hput | hrest
      · rcases mem_of_mem_put hput with hold | rfl
        · exact Or.inl hold
        · exact Or.inr (List.mem_cons_self ..)
      · exact Or.inr (List.mem_cons_of_mem _ hrest)
  exact (hfold [] h).resolve_left List.not_mem_nil

/-- Entries of which none is lost when they are put in one after the other have distinct keys. -/
theorem distinct_of_length_le (h : entries.length ≤ (ofList entries).length) :
    Distinct entries := by
  -- the keys that are left are distinct, and there are as many of them as there were
  have hsub : keys (ofList entries) ⊆ keys entries :=
    List.map_subset _ fun _ => mem_of_mem_ofList
  have hlength : (keys entries).length ≤ (keys (ofList entries)).length := by
    simpa [keys] using h
  have hperm : (keys (ofList entries)).Perm (keys entries) :=
    (List.subperm_of_subset (distinct_ofList entries) hsub).perm_of_length_le hlength
  exact hperm.nodup_iff.1 (distinct_ofList entries)

theorem put_map {β : Type} (f : α → β) (key : String) (a : α) (entries : List (String × α)) :
    put key (f a) (entries.map fun p => (p.1, f p.2)) =
      (put key a entries).map fun p => (p.1, f p.2) := by
  induction entries with
  | nil => rfl
  | cons q rest ih =>
    rcases q with ⟨k, b⟩
    by_cases hk : k = key
    · simp [put, hk]
    · simp [put, hk, ih]

/-- Values may be changed before they are put in or after. -/
theorem ofList_map {β : Type} (f : α → β) (entries : List (String × α)) :
    ofList (entries.map fun p => (p.1, f p.2)) = (ofList entries).map fun p => (p.1, f p.2) := by
  have hfold : ∀ acc : List (String × α),
      (entries.map fun p => (p.1, f p.2)).foldl (fun acc e => put e.1 e.2 acc)
          (acc.map fun p => (p.1, f p.2)) =
        (entries.foldl (fun acc e => put e.1 e.2 acc) acc).map fun p => (p.1, f p.2) := by
    induction entries with
    | nil => exact fun _ => rfl
    | cons e rest ih =>
      intro acc
      rw [List.map_cons, List.foldl_cons, List.foldl_cons, ← ih]
      exact congrArg (List.foldl _ · _) (put_map f e.1 e.2 acc)
  exact hfold []

/-! ## Changing an entry -/

/-- What matters of a change is what it makes of the value that is there. -/
theorem modify_congr {f g : α → α} (h : entries.lookup key = some a) (hfg : f a = g a) :
    modify key f entries = modify key g entries := by
  induction entries with
  | nil => rfl
  | cons q rest ih =>
    rcases q with ⟨k, b⟩
    by_cases hk : k = key
    · subst hk
      have hb : b = a := by simpa using h
      simp [modify, hb, hfg]
    · have hrest : rest.lookup key = some a := by
        rwa [List.lookup_cons, beq_false_of_ne (Ne.symm hk)] at h
      simp [modify, hk, ih hrest]

/-- A change is not seen by a view of the values that does not see it in the one that is there. -/
theorem map_modify {β : Type} {f : α → α} (g : α → β) (h : entries.lookup key = some a)
    (hfg : g (f a) = g a) :
    ((modify key f entries).map fun p => (p.1, g p.2)) = entries.map fun p => (p.1, g p.2) := by
  induction entries with
  | nil => rfl
  | cons q rest ih =>
    rcases q with ⟨k, b⟩
    by_cases hk : k = key
    · subst hk
      have hb : b = a := by simpa using h
      simp [modify, hb, hfg]
    · have hrest : rest.lookup key = some a := by
        rwa [List.lookup_cons, beq_false_of_ne (Ne.symm hk)] at h
      simp only [modify, if_neg hk, List.map_cons, ih hrest]

theorem modify_eq_self {f : α → α} (h : entries.lookup key = some a) (hf : f a = a) :
    modify key f entries = entries := by
  simpa using map_modify (fun a => a) h hf

/-- An entry is as it was, or it is the one that was changed. -/
theorem mem_of_mem_modify {f : α → α} {p : String × α} (h : p ∈ modify key f entries) :
    p ∈ entries ∨ ∃ a, (key, a) ∈ entries ∧ p = (key, f a) := by
  induction entries with
  | nil => cases h
  | cons q rest ih =>
    rcases q with ⟨k, b⟩
    rw [modify] at h
    split at h
    · rename_i hk
      subst hk
      rcases List.mem_cons.1 h with rfl | hp
      · exact Or.inr ⟨b, List.mem_cons_self .., rfl⟩
      · exact Or.inl (List.mem_cons_of_mem _ hp)
    · rcases List.mem_cons.1 h with rfl | hp
      · exact Or.inl (List.mem_cons_self ..)
      · rcases ih hp with hold | ⟨a, ha, hpa⟩
        · exact Or.inl (List.mem_cons_of_mem _ hold)
        · exact Or.inr ⟨a, List.mem_cons_of_mem _ ha, hpa⟩

@[simp] theorem keys_modify (key : String) (f : α → α) (entries : List (String × α)) :
    keys (modify key f entries) = keys entries := by
  induction entries with
  | nil => rfl
  | cons q rest ih =>
    rcases q with ⟨k, b⟩
    by_cases hk : k = key
    · simp [modify, keys, hk]
    · simpa [modify, keys, hk] using ih

theorem distinct_modify (hd : Distinct entries) (key : String) (f : α → α) :
    Distinct (modify key f entries) :=
  hd.of_keys_eq (keys_modify key f entries)

/-- Changes under two keys do not see each other. -/
theorem modify_comm {other : String} (hne : key ≠ other) (f g : α → α)
    (entries : List (String × α)) :
    modify key f (modify other g entries) = modify other g (modify key f entries) := by
  induction entries with
  | nil => rfl
  | cons q rest ih =>
    rcases q with ⟨k, b⟩
    by_cases hk : k = key
    · subst hk
      simp [modify, hne]
    · by_cases ho : k = other
      · subst ho
        simp [modify, hk]
      · simp [modify, hk, ho, ih]

/-- A look-up after a change finds what was there, changed under its key. -/
theorem lookup_modify (entries : List (String × α)) (key other : String) (f : α → α) :
    (modify key f entries).lookup other =
      if other = key then (entries.lookup other).map f else entries.lookup other := by
  induction entries with
  | nil => simp [modify]
  | cons q rest ih =>
    rcases q with ⟨k, b⟩
    by_cases hk : k = key
    · subst hk
      by_cases ho : other = k
      · simp [modify, ho]
      · have hbeq : (other == k) = false := by simpa using ho
        simp [modify, List.lookup_cons, hbeq, ho]
    · by_cases ho : other = k
      · subst ho
        simp [modify, hk]
      · have hbeq : (other == k) = false := by simpa using ho
        simp [modify, hk, List.lookup_cons, hbeq, ih]

/-! ## Removing an entry -/

theorem erase_sublist (key : String) (entries : List (String × α)) :
    (erase key entries).Sublist entries := by
  induction entries with
  | nil => exact List.Sublist.refl _
  | cons p rest ih =>
    by_cases hp : p.1 = key
    · simp [erase, hp]
    · simpa [erase, hp] using ih

theorem distinct_erase (hd : Distinct entries) : Distinct (erase key entries) :=
  hd.sublist ((erase_sublist key entries).map Prod.fst)

/-- Under distinct keys, removing a key keeps the order of the others. -/
theorem erase_eq_filter (hd : Distinct entries) (key : String) :
    erase key entries = entries.filter fun e => e.1 ≠ key := by
  induction entries with
  | nil => rfl
  | cons p rest ih =>
    rcases p with ⟨k, a⟩
    have hk : k ∉ keys rest := (List.nodup_cons.1 hd).1
    have hrest : Distinct rest := (List.nodup_cons.1 hd).2
    by_cases he : k = key
    · subst he
      have hothers : ∀ e ∈ rest, e.1 ≠ k := by
        rintro e hmem rfl
        exact hk (List.mem_map_of_mem hmem)
      simpa [erase] using (List.filter_eq_self.2 fun e hmem => by simpa using hothers e hmem).symm
    · simpa [erase, he] using ih hrest

/-- What is left are the entries under the other keys. -/
theorem mem_erase_iff (hd : Distinct entries) {p : String × α} :
    p ∈ erase key entries ↔ p ∈ entries ∧ p.1 ≠ key := by
  rw [erase_eq_filter hd, List.mem_filter, decide_eq_true_iff]

/-- The same for a look-up. -/
theorem lookup_erase (hd : Distinct entries) (key other : String) :
    (erase key entries).lookup other = if other = key then none else entries.lookup other := by
  apply Option.ext
  intro b
  rw [lookup_eq_some_iff_mem (distinct_erase hd), mem_erase_iff hd]
  by_cases ho : other = key
  · simp [ho]
  · simp [ho, lookup_eq_some_iff_mem hd]

/-- Under the other keys nothing changes, be the keys distinct or not. -/
theorem lookup_erase_of_ne (entries : List (String × α)) {key other : String}
    (hother : other ≠ key) : (erase key entries).lookup other = entries.lookup other := by
  induction entries with
  | nil => rfl
  | cons p rest ih =>
    rcases p with ⟨k, b⟩
    by_cases hk : k = key
    · have hbeq : (other == k) = false := by simpa [hk] using hother
      simp [erase, hk, List.lookup_cons, hk ▸ hbeq]
    · simp [erase, hk, List.lookup_cons, ih]

/-- Removing an entry that was new takes back the putting. -/
theorem erase_put (hd : Distinct entries) (h : entries.lookup key = none) :
    erase key (put key a entries) = entries := by
  have hold : ∀ k b, (k, b) ∈ entries → k ≠ key := by
    rintro k b hmem rfl
    rw [lookup_eq_some_of_mem hd hmem] at h
    cases h
  rw [erase_eq_filter (distinct_put hd), put_of_lookup_eq_none h]
  simpa [List.filter_append] using hold

end Keyed
end SignalTree
