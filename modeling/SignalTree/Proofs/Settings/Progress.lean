import SignalTree.Proofs.Setting.Assign
import SignalTree.Proofs.Settings.Configure

/-!
# Progress — which options a frame has reached

A frame is applied to options entry by entry.  The entries up to a failure split the options into
those that hold a new value, the one at which it stopped, and those that were not reached.

* `Settings.Updated`: options that hold the values of some entries, and are otherwise as they were;
* `Applied.updated`: so they are after entries that were applied;
* `configure_outcome`: a frame that is applied, in every case.
-/

namespace SignalTree
namespace Settings

variable {σ : Type} {o o' : Settings σ} {env env' : Env σ} {name key : String} {v : Value}
  {e : Error} {s : Setting σ} {entry : Entry} {entries front : List (String × Entry)}

/-- The options hold the values of some entries.  Whatever else belongs to an option is as it was,
the options that no entry names are the same, and all stand in their places. -/
structure Updated (o : Settings σ) (entries : List (String × Entry)) (o' : Settings σ) : Prop where
  named : ∀ key entry, (key, entry) ∈ entries →
    ∃ s, o.get? key = some s ∧ o'.get? key = some { s with value := entry.toValue }
  others : ∀ name, name ∉ Keyed.keys entries → o'.get? name = o.get? name
  names_eq : o'.names = o.names
  owner_eq : o'.owner = o.owner

/-- Only the option of the name matters, and how errors name the list. -/
theorem Refuses.congr (h : o'.Refuses name v e) (hget : o'.get? name = o.get? name)
    (hlabel : o'.label = o.label) : o.Refuses name v e := by
  cases h with
  | unknown hs => exact hlabel ▸ .unknown (hget ▸ hs)
  | checked hs hcheck => exact .checked (hget ▸ hs) hcheck

/-- A failure leaves the options as they are, or it is that of a trigger. -/
theorem Sets.of_error (h : o.set name v env = (.error e, o', env')) :
    (o' = o ∧ o.Refuses name v e) ∨ (o' = o.assign name v ∧ ∃ s, o.get? name = some s ∧
      s.check v = .ok () ∧ Setting.Stops v e s.triggers env.host) := by
  have hsets := o.set_sets name v env
  rw [h] at hsets
  cases hsets with
  | refused hrefuses => exact Or.inl ⟨rfl, hrefuses⟩
  | stopped hs hcheck hstops => exact Or.inr ⟨rfl, _, hs, hcheck, hstops⟩

/-- A success found the option. -/
theorem exists_of_set_eq_ok (h : o.set name v env = (.ok (), o', env')) :
    ∃ s, o.get? name = some s ∧ s.check v = .ok () := by
  have hsets := o.set_sets name v env
  rw [h] at hsets
  cases hsets with
  | done hs hcheck => exact ⟨_, hs, hcheck⟩

/-- An option that takes over a value is still there, and there were no others before. -/
theorem exists_get?_assign_iff :
    (∃ s, (o.assign key v).get? name = some s) ↔ ∃ s, o.get? name = some s := by
  rw [get?_assign]
  split
  · simp
  · rfl

theorem Applied.exists_option (h : Applied o env entries o' env') {p : String × Entry}
    (hp : p ∈ entries) : ∃ s, o.get? p.1 = some s := by
  induction h with
  | done o env => cases hp
  | next hset _ ih =>
    rcases List.mem_cons.1 hp with rfl | hrest
    · rcases exists_of_set_eq_ok hset with ⟨s, hs, _⟩
      exact ⟨s, hs⟩
    · have hlater := ih hrest
      rw [eq_assign_of_set hset] at hlater
      exact exists_get?_assign_iff.1 hlater

/-- Entries under distinct keys do not overwrite each other. -/
theorem updated_assignAll (hdistinct : Keyed.Distinct entries)
    (hoptions : ∀ p ∈ entries, ∃ s, o.get? p.1 = some s) :
    Updated o entries (o.assignAll entries) where
  named := by
    intro key entry hentry
    obtain ⟨s, hs⟩ := hoptions (key, entry) hentry
    have hreverse : Keyed.Distinct entries.reverse := by
      simpa [Keyed.Distinct, Keyed.keys] using hdistinct
    have hlookup : entries.reverse.lookup key = some entry :=
      Keyed.lookup_eq_some_of_mem hreverse (List.mem_reverse.2 hentry)
    exact ⟨s, hs, by simp [get?_assignAll, hlookup, hs]⟩
  others := by
    intro name hname
    have hlookup : entries.reverse.lookup name = none := by
      rw [Keyed.lookup_eq_none_iff_notMem_keys]
      simpa [Keyed.keys] using hname
    simp [get?_assignAll, hlookup]
  names_eq := names_assignAll ..
  owner_eq := owner_assignAll ..

theorem Applied.updated (h : Applied o env entries o' env') (hdistinct : Keyed.Distinct entries) :
    Updated o entries o' := by
  rw [h.eq_assignAll]
  exact updated_assignAll hdistinct fun _ => h.exists_option

/-- One more option takes over a value. -/
theorem Applied.updated_assign (h : Applied o env front o' env')
    (hdistinct : Keyed.Distinct (front ++ [(key, entry)])) (hs : o.get? key = some s) :
    Updated o (front ++ [(key, entry)]) (o'.assign key entry.toValue) := by
  have hassigned : o'.assign key entry.toValue = o.assignAll (front ++ [(key, entry)]) := by
    rw [h.eq_assignAll, assignAll_append]
    rfl
  rw [hassigned]
  apply updated_assignAll hdistinct
  intro p hp
  rcases List.mem_append.1 hp with hp | hp
  · exact h.exists_option hp
  · rw [List.mem_singleton.1 hp]
    exact ⟨s, hs⟩

/-- Applying a frame, in every case.  The entries set options in their order.  If none of them
fails, every key names an option, which now holds the value of its entry, and nothing else of any
option has changed.  Otherwise the same holds of the entries before the first that fails, and those
behind it have no effect.  The one that fails names no option, or its option refuses the value and
is as it was, or a trigger of the option fails, after the value was taken over. -/
theorem configure_outcome (o : Settings σ) {f : Frame} (hkeys : Keyed.Distinct f.entries)
    (env : Env σ) :
    (∀ o' env', o.configure f env = (.ok (), o', env') →
      Applied o env f.entries o' env' ∧ Updated o f.entries o') ∧
    ∀ e o' env', o.configure f env = (.error e, o', env') →
      ∃ front key entry back o₁ env₁, f.entries = front ++ (key, entry) :: back ∧
        Applied o env front o₁ env₁ ∧ o₁.set key entry.toValue env₁ = (.error e, o', env') ∧
        ((o.get? key = none ∧ e = .unknownOption o.label key ∧ Updated o front o') ∨
          ∃ s, o.get? key = some s ∧
            (s.Refusal entry.toValue e ∧ Updated o front o' ∨
              (∀ e', ¬ s.Refusal entry.toValue e') ∧
                Setting.Stops entry.toValue e s.triggers env₁.host ∧
                Updated o (front ++ [(key, entry)]) o')) := by
  constructor
  · intro o' env' h
    have happlied := setEntries_eq_ok_iff.1 h
    exact ⟨happlied, happlied.updated hkeys⟩
  · intro e o' env' h
    rcases setEntries_eq_error_iff.1 h with
      ⟨front, key, entry, back, o₁, env₁, hentries, happlied, hfails⟩
    refine ⟨front, key, entry, back, o₁, env₁, hentries, happlied, hfails, ?_⟩
    have hreached : Keyed.Distinct (front ++ [(key, entry)]) := by
      have hsplit : f.entries = (front ++ [(key, entry)]) ++ back := by simp [hentries]
      rw [hsplit] at hkeys
      exact Keyed.distinct_of_append hkeys
    have hupdated := happlied.updated (Keyed.distinct_of_append hreached)
    -- no entry before it has touched the option
    have hget : o₁.get? key = o.get? key :=
      hupdated.others key (Keyed.notMem_of_append_cons hreached)
    have hlabel : o₁.label = o.label := by rw [label, label, hupdated.owner_eq]
    rcases Sets.of_error hfails with ⟨rfl, hrefuses⟩ | ⟨rfl, s, hs, hcheck, hstops⟩
    · rcases hrefuses.congr hget hlabel with hs | ⟨hs, hcheck⟩
      · exact Or.inl ⟨hs, rfl, hupdated⟩
      · exact Or.inr ⟨_, hs, Or.inl ⟨Setting.check_eq_error_iff.1 hcheck, hupdated⟩⟩
    · rw [hget] at hs
      exact Or.inr ⟨s, hs, Or.inr ⟨Setting.not_refusal_of_check hcheck, hstops,
        happlied.updated_assign hreached hs⟩⟩

/-- A map, a level that must not become three, and a text. -/
def panel (limits : List (String × Value)) (n : Int64) : Settings (List (List Value)) where
  owner := "cpath:/a"
  items := [
    ("limits", ⟨"limits", "", "", .map limits, .map [], [], .advanced, [], []⟩),
    ("level", ⟨"level", "", "", Setting.level n, Setting.level 1, [], .basic,
      [Setting.watchAndRefuse], []⟩),
    ("mode", ⟨"mode", "", "", .ofString "fast", .ofString "fast", [], .advanced, [], []⟩)]

/-- The map is given as a frame, the level is three, and the text comes last. -/
def panelFrame : Frame where
  description := ""
  tier := none
  entries := [
    ("limits", .frame (.ofMap [("low", Setting.level 0)])),
    ("level", .value (Setting.level 3) .none),
    ("mode", .value (.ofString "slow") .none)]

theorem configure_outcome_panel :
    Keyed.Distinct panelFrame.entries ∧
      (panel [] 1).configure panelFrame ⟨[], [], []⟩ =
        (.error (.other "refused"), panel [("low", Setting.level 0)] 3,
          ⟨[], [[]], [.optionChanged "limits" (.map [("low", Setting.level 0)]),
            .optionChanged "level" (Setting.level 3),
            .triggerFailed "level" 0 (.other "refused")]⟩) ∧
      ∃ front key entry back o₁ env₁, panelFrame.entries = front ++ (key, entry) :: back ∧
        Applied (panel [] 1) ⟨[], [], []⟩ front o₁ env₁ ∧
        ∃ s, (panel [] 1).get? key = some s ∧
          Setting.Stops entry.toValue (.other "refused") s.triggers env₁.host ∧
          Updated (panel [] 1) (front ++ [(key, entry)]) (panel [("low", Setting.level 0)] 3) := by
  have hkeys : Keyed.Distinct panelFrame.entries := by decide
  refine ⟨hkeys, rfl, ?_⟩
  rcases (configure_outcome (panel [] 1) hkeys ⟨[], [], []⟩).2 _ _ _ rfl with
    ⟨front, key, entry, back, o₁, env₁, hentries, happlied, _, hfails⟩
  rcases hfails with ⟨_, hunknown, _⟩ | ⟨s, hs, ⟨hrefusal, _⟩ | ⟨_, hstops, hupdated⟩⟩
  · cases hunknown
  · cases hrefusal
  · exact ⟨front, key, entry, back, o₁, env₁, hentries, happlied, s, hs, hstops, hupdated⟩

end Settings
end SignalTree
