import SignalTree.Proofs.Settings.Run

/-!
# Configure — how far entries are applied to options

Options are set from entries in order, up to the first entry that fails.  What was set by then stays
set.  The entry that fails may have been refused, and then its own option is as it was; or a trigger
has failed, and then the value was taken over before.

* `Settings.assignAll`: options that have taken over values, with nothing else changed;
* `Settings.Refuses`: why an option does not take a value;
* `Settings.Sets`: the three ways in which the setting of one option ends;
* `Settings.Applied`: entries that set options one after the other;
* `setEntries_eq_ok_iff`, `setEntries_eq_error_iff`: all of them, or those before one that fails;
* `Settings.Interrupted`: how far the entries came;
* `setEntries_interrupted`: a failure on the way is one of these.
-/

namespace SignalTree
namespace Settings

variable {σ : Type} {o o' : Settings σ} {name key : String} {v : Value} {e : Error} {s : Setting σ}
  {env env' : Env σ} {entry : Entry} {entries : List (String × Entry)}

/-! ## Values taken over -/

/-- The option of a name takes over a value. -/
def assign (o : Settings σ) (name : String) (v : Value) : Settings σ :=
  { o with items := Keyed.modify name (fun s => { s with value := v }) o.items }

/-- Options take over the values of entries in order. -/
def assignAll (o : Settings σ) (entries : List (String × Entry)) : Settings σ :=
  entries.foldl (fun o p => o.assign p.1 p.2.toValue) o

theorem replace_with_value (hs : o.get name = .ok s) (v : Value) :
    o.replace name { s with value := v } = o.assign name v := by
  have hitems := Keyed.modify_congr (f := fun _ => { s with value := v })
    (g := fun s => { s with value := v }) (get_eq_ok_iff.1 hs) rfl
  rw [replace, hitems, assign]

/-- An option that has the value already stays as it is. -/
theorem assign_eq_self (hs : o.get? name = some s) (hv : s.value = v) : o.assign name v = o := by
  have hsame : { s with value := v } = s := by rw [← hv]
  rw [assign, Keyed.modify_eq_self (f := fun s => { s with value := v }) hs hsame]

theorem get?_assign (o : Settings σ) (key : String) (v : Value) (name : String) :
    (o.assign key v).get? name =
      if name = key then (o.get? name).map fun s => { s with value := v } else o.get? name :=
  Keyed.lookup_modify o.items key name _

@[simp] theorem names_assign (o : Settings σ) (key : String) (v : Value) :
    (o.assign key v).names = o.names :=
  Keyed.keys_modify ..

theorem assignAll_append (o : Settings σ) (front back : List (String × Entry)) :
    o.assignAll (front ++ back) = (o.assignAll front).assignAll back :=
  List.foldl_append ..

/-- Every option is as before but for its value, which is that of the last entry of its name. -/
theorem get?_assignAll (o : Settings σ) (entries : List (String × Entry)) (name : String) :
    (o.assignAll entries).get? name = (o.get? name).map fun s =>
      { s with value := ((entries.reverse.lookup name).map Entry.toValue).getD s.value } := by
  induction entries generalizing o with
  | nil => simp [assignAll]
  | cons p rest ih =>
    rcases p with ⟨key, e⟩
    -- the first entry counts only if no later one has its name
    have hlast : (((key, e) :: rest).reverse).lookup name =
        (rest.reverse.lookup name).or (if name = key then some e else none) := by
      rw [List.reverse_cons, List.lookup_append]
      by_cases hname : name = key
      · simp [hname]
      · simp [hname, List.lookup_cons, beq_false_of_ne hname]
    have hstep : o.assignAll ((key, e) :: rest) = (o.assign key e.toValue).assignAll rest := rfl
    rw [hstep, ih, get?_assign, hlast]
    by_cases hname : name = key
    · cases rest.reverse.lookup name <;> cases o.get? name <;> simp [hname]
    · cases rest.reverse.lookup name <;> simp [hname]

@[simp] theorem names_assignAll (o : Settings σ) (entries : List (String × Entry)) :
    (o.assignAll entries).names = o.names := by
  induction entries generalizing o with
  | nil => rfl
  | cons p rest ih => exact (ih (o.assign p.1 p.2.toValue)).trans (names_assign ..)

theorem owner_assignAll (o : Settings σ) (entries : List (String × Entry)) :
    (o.assignAll entries).owner = o.owner := by
  induction entries generalizing o with
  | nil => rfl
  | cons p rest ih => exact ih (o.assign p.1 p.2.toValue)

theorem label_assignAll (o : Settings σ) (entries : List (String × Entry)) :
    (o.assignAll entries).label = o.label := by
  rw [label, label, owner_assignAll]

/-! ## Setting one option -/

/-- Why an option does not take a value: it is not there, or the value does not pass its checks. -/
inductive Refuses (o : Settings σ) (name : String) (v : Value) : Error → Prop where
  | unknown (hs : o.get? name = none) : Refuses o name v (.unknownOption o.label name)
  | checked {s : Setting σ} {e : Error} (hs : o.get? name = some s)
      (hcheck : s.check v = .error e) : Refuses o name v e

/-- How the setting of one option ends, and the options after it. -/
inductive Sets (o : Settings σ) (name : String) (v : Value) (host : σ) :
    Except Error Unit → Settings σ → Prop where
  | refused {e : Error} (h : o.Refuses name v e) : Sets o name v host (.error e) o
  | stopped {s : Setting σ} {e : Error} (hs : o.get? name = some s) (hcheck : s.check v = .ok ())
      (hstops : Setting.Stops v e s.triggers host) :
      Sets o name v host (.error e) (o.assign name v)
  | done {s : Setting σ} (hs : o.get? name = some s) (hcheck : s.check v = .ok ()) :
      Sets o name v host (.ok ()) (o.assign name v)

theorem set_sets (o : Settings σ) (name : String) (v : Value) (env : Env σ) :
    Sets o name v env.host (o.set name v env).1 (o.set name v env).2.1 := by
  unfold set
  cases hs : o.get name with
  | error e =>
    cases hget : o.get? name with
    | none =>
      have he : Error.unknownOption o.label name = e := by simpa [get, hget] using hs
      exact .refused (he ▸ .unknown hget)
    | some s => simp [get, hget] at hs
  | ok s =>
    have hget : o.get? name = some s := get_eq_ok_iff.1 hs
    cases hcheck : s.check v with
    | error e =>
      -- the option is put back as it was
      have hsame : o.replace name s = o := by
        rw [replace, Keyed.modify_eq_self (f := fun _ => s) hget rfl]
      simp only [Setting.set, hcheck, hsame]
      exact .refused (.checked hget hcheck)
    | ok u =>
      have hvalue : (s.commit v env).2.1 = { s with value := v } := rfl
      simp only [Setting.set, hcheck, hvalue, replace_with_value hs]
      cases hresult : (s.commit v env).1 with
      | ok u => exact .done hget hcheck
      | error e => exact .stopped hget hcheck (Setting.stops_of_commit hresult)

/-- Taking over a value is all that a success does to the options. -/
theorem eq_assign_of_set (h : o.set name v env = (.ok (), o', env')) : o' = o.assign name v := by
  have hsets := o.set_sets name v env
  rw [h] at hsets
  cases hsets with
  | done _ _ => rfl

/-! ## Setting many -/

/-- Entries set options one after the other, and none of them fails.  They lead from some options
and their surroundings to others. -/
inductive Applied : Settings σ → Env σ → List (String × Entry) → Settings σ → Env σ → Prop where
  | done (o : Settings σ) (env : Env σ) : Applied o env [] o env
  | next {o o₁ o₂ : Settings σ} {env env₁ env₂ : Env σ} {key : String} {entry : Entry}
      {rest : List (String × Entry)} (hset : o.set key entry.toValue env = (.ok (), o₁, env₁))
      (hrest : Applied o₁ env₁ rest o₂ env₂) : Applied o env ((key, entry) :: rest) o₂ env₂

theorem Applied.eq_assignAll (h : Applied o env entries o' env') : o' = o.assignAll entries := by
  induction h with
  | done o env => rfl
  | next hset _ ih => rw [ih, eq_assign_of_set hset, assignAll, assignAll, List.foldl_cons]

/-- What comes after entries that were applied goes on from there. -/
theorem Applied.setEntries_append {front : List (String × Entry)} (h : Applied o env front o' env')
    (back : List (String × Entry)) :
    o.setEntries env (front ++ back) = o'.setEntries env' back := by
  induction h with
  | done o env => rfl
  | next hset _ ih => simpa only [List.cons_append, setEntries, hset] using ih

theorem setEntries_eq_ok_iff :
    o.setEntries env entries = (.ok (), o', env') ↔ Applied o env entries o' env' := by
  constructor
  · intro h
    induction entries generalizing o env with
    | nil =>
      cases h
      exact .done ..
    | cons p rest ih =>
      rcases p with ⟨key, entry⟩
      rcases hset : o.set key entry.toValue env with ⟨result, o₁, env₁⟩
      cases result with
      | error e => simp [setEntries, hset] at h
      | ok u =>
        rw [setEntries, hset] at h
        exact .next hset (ih h)
  · intro h
    simpa [setEntries] using h.setEntries_append []

/-- A failure is that of one entry, after those before it were applied; those behind it are left
alone. -/
theorem setEntries_eq_error_iff :
    o.setEntries env entries = (.error e, o', env') ↔
      ∃ front key entry back o₁ env₁, entries = front ++ (key, entry) :: back ∧
        Applied o env front o₁ env₁ ∧ o₁.set key entry.toValue env₁ = (.error e, o', env') := by
  constructor
  · intro h
    induction entries generalizing o env with
    | nil => cases h
    | cons p rest ih =>
      rcases p with ⟨key, entry⟩
      rcases hset : o.set key entry.toValue env with ⟨result, o₁, env₁⟩
      cases result with
      | error e' =>
        simp only [setEntries, hset, Prod.mk.injEq, Except.error.injEq] at h
        rcases h with ⟨rfl, rfl, rfl⟩
        exact ⟨[], key, entry, rest, o, env, rfl, .done o env, hset⟩
      | ok u =>
        rw [setEntries, hset] at h
        rcases ih h with ⟨front, key', entry', back, o₂, env₂, rfl, happlied, hfails⟩
        exact ⟨(key, entry) :: front, key', entry', back, o₂, env₂, rfl, .next hset happlied,
          hfails⟩
  · rintro ⟨front, key, entry, back, o₁, env₁, rfl, happlied, hfails⟩
    rw [happlied.setEntries_append, setEntries, hfails]

/-- How far entries were applied that failed with an error, and the options after that. -/
inductive Interrupted (o : Settings σ) (entries : List (String × Entry)) (e : Error) :
    Settings σ → Prop where
  /-- An entry is refused; those before it are applied. -/
  | refused (front : List (String × Entry)) {back : List (String × Entry)} {key : String}
      {entry : Entry} (hentries : entries = front ++ (key, entry) :: back)
      (hrefuses : (o.assignAll front).Refuses key entry.toValue e) :
      Interrupted o entries e (o.assignAll front)
  /-- A trigger fails on the value of an entry; this one is applied too. -/
  | stopped (front : List (String × Entry)) {back : List (String × Entry)} {key : String}
      {entry : Entry} {s : Setting σ} {host : σ}
      (hentries : entries = front ++ (key, entry) :: back)
      (hs : (o.assignAll front).get? key = some s) (hcheck : s.check entry.toValue = .ok ())
      (hstops : Setting.Stops entry.toValue e s.triggers host) :
      Interrupted o entries e (o.assignAll (front ++ [(key, entry)]))

/-- A failure while options are set from entries leaves the rest of the entries alone. -/
theorem setEntries_interrupted (h : (o.setEntries env entries).1 = .error e) :
    Interrupted o entries e (o.setEntries env entries).2.1 := by
  rcases hresult : o.setEntries env entries with ⟨result, o', env'⟩
  obtain rfl : result = .error e := by rwa [hresult] at h
  change Interrupted o entries e o'
  rcases setEntries_eq_error_iff.1 hresult with
    ⟨front, key, entry, back, o₁, env₁, hentries, happlied, hfails⟩
  obtain rfl : o₁ = o.assignAll front := happlied.eq_assignAll
  have hsets := (o.assignAll front).set_sets key entry.toValue env₁
  rw [hfails] at hsets
  cases hsets with
  | refused hrefuses => exact .refused front hentries hrefuses
  | stopped hs hcheck hstops =>
    change Interrupted o entries e ((o.assignAll front).assignAll [(key, entry)])
    rw [← assignAll_append]
    exact .stopped front hentries hs hcheck hstops

end Settings
end SignalTree
