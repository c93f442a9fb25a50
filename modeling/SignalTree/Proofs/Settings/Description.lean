import SignalTree.Proofs.Setting.Assign
import SignalTree.Proofs.Settings.Configure
import SignalTree.Proofs.Settings.Schema

/-!
# Description — the options that a description describes

A frame describes the options of a component: their values, and what a form needs to know about
them.  The description is made into options again, and it is itself a frame that the options can be
configured with.  An option that was overwritten by one of another name is described under the name
that it has, and neither found nor rebuilt under the key at which it stands.

* `describe_rebuilt`: what an option that was made of a description says of itself;
* `Orderly.ofFrame_toFrame_eq`: the options that are made of a description;
* `set_self`: an option takes the value that it has;
* `ofFrame_toFrame`: the description of options rebuilds them, and configuring them with it changes
  nothing, if each stands under its own name.
-/

namespace SignalTree
namespace Settings

variable {σ τ : Type} {o : Settings σ} {s : Setting σ} {env : Env σ}
  {entries : List (String × Entry)}

/-! ## Options from their description -/

theorem describe_rebuilt (hconsistent : Setting.Consistent s.kind s) :
    describe (s.rebuilt : Setting τ) = describe s := by
  have hpretty := (Setting.sameSchema_rebuilt (τ := τ) hconsistent).pretty
  rw [describe, hpretty]
  rfl

theorem Orderly.ofFrame_toFrame_eq (ho : o.Orderly) (owner : String) :
    ofFrame owner o.toFrame = .ok (o.copied owner Setting.rebuilt : Settings τ) := by
  rw [toFrame_eq]
  exact ho.addEntries_copied owner (fun _ s => describe s)
    (fun s => (rfl : s.rebuilt.name = s.name)) fun _ => ofEntry_describe

theorem Orderly.toFrame_rebuilt (ho : o.Orderly) (owner : String) :
    (o.copied owner Setting.rebuilt : Settings τ).toFrame = o.toFrame := by
  have hname : ∀ s : Setting σ, (s.rebuilt : Setting τ).name = s.name := fun _ => rfl
  have hown : (o.copied owner Setting.rebuilt : Settings τ).Own := own_copied hname owner
  have hdistinct : Keyed.Distinct (o.copied owner Setting.rebuilt : Settings τ).items :=
    (distinct_byName o).of_keys_eq (Keyed.keys_map _ _)
  rw [toFrame_eq o, toFrame_eq, byName_of_own hown hdistinct, copied, List.map_map]
  congr 1
  refine List.map_congr_left fun p hp => ?_
  have hmade := ho.made_of_mem_byName hp
  exact congrArg (Prod.mk p.1) (describe_rebuilt hmade.consistent)

/-- Options under their own names are rebuilt with the schemas they had. -/
theorem Orderly.sameSchema_rebuilt (ho : o.Orderly) (hown : o.Own) (owner : String) :
    List.Forall₂ Setting.SameSchema o.all (o.copied owner Setting.rebuilt : Settings τ).all :=
  (forall₂_copied_iff ho.names_distinct hown owner).2 fun _ hs =>
    Setting.sameSchema_rebuilt (ho.made_of_mem_all hs).consistent

/-! ## Options configured with their description -/

/-- The value that an option has passes its checks again, if no slot is linked. -/
theorem check_self (hconsistent : Setting.Consistent s.kind s) (hslots : s.slots = []) :
    s.check s.value = .ok () := by
  refine Setting.check_eq_ok_iff.2 ⟨hconsistent.value_kind, ?_, by simp [hslots]⟩
  by_cases hempty : s.restricted = []
  · exact Or.inl hempty
  · exact Or.inr (hconsistent.value_allowed hempty)

/-- An option takes the value that it has. -/
theorem set_self {name : String} (hs : o.get? name = some s)
    (hconsistent : Setting.Consistent s.kind s) (hslots : s.slots = [])
    (hpassing : Setting.Passing s.value s.triggers) (env : Env σ) :
    ∃ env', o.set name s.value env = (.ok (), o, env') ∧ env'.cells = env.cells := by
  have hget : o.get name = .ok s := get_eq_ok_iff.2 hs
  have hset : s.set s.value env = s.commit s.value env :=
    Setting.set_eq_commit (Setting.not_refusal_of_check (check_self hconsistent hslots)) env
  have hresult : (s.commit s.value env).1 = .ok () := hpassing.runTriggers_eq_ok s.name 0 _
  have hoption : o.replace name (s.commit s.value env).2.1 = o :=
    (replace_with_value hget s.value).trans (assign_eq_self hs rfl)
  refine ⟨(s.commit s.value env).2.2, ?_, ?_⟩
  · simp only [Settings.set, hget, hset, hresult, hoption]
  · rw [Setting.commit_cells, hslots]
    rfl

/-- Options take what they have, whatever the order. -/
theorem applied_self (h : ∀ p ∈ entries, ∃ s, o.get? p.1 = some s ∧ s.value = p.2.toValue ∧
      Setting.Consistent s.kind s ∧ s.slots = [] ∧ Setting.Passing s.value s.triggers)
    (env : Env σ) : ∃ env', Applied o env entries o env' ∧ env'.cells = env.cells := by
  induction entries generalizing env with
  | nil => exact ⟨env, .done o env, rfl⟩
  | cons p rest ih =>
    rw [List.forall_mem_cons] at h
    rcases h with ⟨⟨s, hs, hvalue, hconsistent, hslots, hpassing⟩, hrest⟩
    rcases set_self hs hconsistent hslots hpassing env with ⟨env₁, hset, hcells₁⟩
    rcases ih hrest env₁ with ⟨env₂, happlied, hcells₂⟩
    rw [hvalue] at hset
    exact ⟨env₂, .next hset happlied, hcells₂.trans hcells₁⟩

/-- Options under their own names take what their description says. -/
theorem Orderly.configure_toFrame (ho : o.Orderly) (hown : o.Own)
    (hslots : ∀ s ∈ o.all, s.slots = [])
    (hpassing : ∀ s ∈ o.all, Setting.Passing s.value s.triggers) (env : Env σ) :
    ∃ env', o.configure o.toFrame env = (.ok (), o, env') ∧ env'.cells = env.cells := by
  have hentries : ∀ p ∈ o.toFrame.entries, ∃ s, o.get? p.1 = some s ∧ s.value = p.2.toValue ∧
      Setting.Consistent s.kind s ∧ s.slots = [] ∧ Setting.Passing s.value s.triggers := by
    rw [toFrame_eq, byName_of_own hown ho.names_distinct, List.forall_mem_map]
    intro p hp
    have hall : p.2 ∈ o.all := List.mem_map_of_mem hp
    exact ⟨p.2, Keyed.lookup_eq_some_of_mem ho.names_distinct hp, rfl, (ho.each p hp).consistent,
      hslots _ hall, hpassing _ hall⟩
  rcases applied_self hentries env with ⟨env', happlied, hcells⟩
  exact ⟨env', setEntries_eq_ok_iff.2 happlied, hcells⟩

/-- The description of options that were declared, changed and overwritten is made into options
again, and these describe themselves in the same way.  They have the same names in the same order
if and only if each of the options stands under its own name.  If so, each of them has the schema
of the original and its value, also for a default; and configuring the options with their own
description succeeds and changes nothing, if no cell is linked and no trigger fails on the value
that its option has. -/
theorem ofFrame_toFrame (o : Settings σ) (ho : o.Reached) (owner : String) :
    (∃ copy : Settings τ, ofFrame owner o.toFrame = .ok copy ∧ copy.owner = owner ∧
      copy.toFrame = o.toFrame ∧ (copy.names = o.names ↔ o.Own) ∧
      (o.Own → List.Forall₂ Setting.SameSchema o.all copy.all)) ∧
    (o.Own → (∀ s ∈ o.all, s.slots = []) → (∀ s ∈ o.all, Setting.Passing s.value s.triggers) →
      ∀ env, ∃ env', o.configure o.toFrame env = (.ok (), o, env') ∧ env'.cells = env.cells) := by
  have horderly := ho.orderly
  constructor
  · exact ⟨o.copied owner Setting.rebuilt, horderly.ofFrame_toFrame_eq owner, rfl,
      horderly.toFrame_rebuilt owner, names_copied_iff horderly.names_distinct owner,
      fun hown => horderly.sameSchema_rebuilt hown owner⟩
  · exact fun hown => horderly.configure_toFrame hown

def real (x : Real64) : Value := .scalar (.real x)

/-- A number whose default is none, restricted when it was zero, and a level that must not become
three. -/
def mixer : Settings Unit where
  owner := "cpath:/a"
  items := [
    ("gain", ⟨"gain", "", "gain", real (.zero false), real .nan, [real .nan, real (.zero false)],
      .advanced, [], []⟩),
    ("level", ⟨"level", "how far", "", Setting.level 2, Setting.level 1, [], .advanced,
      [Setting.refuseThree], []⟩)]

theorem reached_mixer : mixer.Reached := by
  let env : Env Unit := ⟨[], (), []⟩
  have hgain : Reached (σ := Unit) _ := .add "gain" "" (real .nan) rfl (.empty "cpath:/a")
  have hzero := hgain.set "gain" (real (.zero false)) env
  have hnamed := hzero.change "gain" rfl (.rename "gain") env trivial
  have hfirst := hnamed.change "gain" rfl (.restrictTo [real (.zero false)]) env trivial
  have hlevel := ReachedBy.add "level" "how far" (Setting.level 1) rfl hfirst
  have hset := hlevel.set "level" (Setting.level 2) env
  exact hset.change "level" rfl (.attach Setting.refuseThree) env trivial

theorem ofFrame_toFrame_mixer :
    mixer.Reached ∧ mixer.Own ∧ (∀ s ∈ mixer.all, s.slots = []) ∧
      (∀ s ∈ mixer.all, Setting.Passing s.value s.triggers) ∧
      (∃ copy : Settings Unit, ofFrame "cpath:/b" mixer.toFrame = .ok copy ∧
        copy.names = mixer.names ∧ List.Forall₂ Setting.SameSchema mixer.all copy.all ∧
        copy.toFrame = mixer.toFrame) ∧
      ∃ env', mixer.configure mixer.toFrame ⟨[], (), []⟩ = (.ok (), mixer, env') := by
  have hown : mixer.Own := by
    simp [Own, mixer]
  have hslots : ∀ s ∈ mixer.all, s.slots = [] := by
    intro s hs
    rcases List.mem_pair.1 hs with rfl | rfl <;> rfl
  have hpassing : ∀ s ∈ mixer.all, Setting.Passing s.value s.triggers := by
    intro s hs t ht cells host
    rcases List.mem_pair.1 hs with rfl | rfl
    · cases ht
    · rw [List.mem_singleton.1 ht]
      rfl
  rcases ofFrame_toFrame (τ := Unit) mixer reached_mixer "cpath:/b" with ⟨hcopy, hsame⟩
  rcases hcopy with ⟨copy, hcopy, _, hframe, hnames, hschema⟩
  rcases hsame hown hslots hpassing ⟨[], (), []⟩ with ⟨env', hconfigure, _⟩
  exact ⟨reached_mixer, hown, hslots, hpassing,
    ⟨copy, hcopy, hnames.2 hown, hschema hown, hframe⟩, env', hconfigure⟩

/-- Of the switch that has overwritten two others there is one description, so it is rebuilt once;
and it is described under a name at which nothing stands, so the description cannot be applied. -/
theorem configure_toFrame_foreignOptions :
    foreignOptions.Reached ∧ (∀ s ∈ foreignOptions.all, s.slots = [] ∧ s.triggers = []) ∧
      (∃ copy : Settings Unit, ofFrame "cpath:/b" foreignOptions.toFrame = .ok copy ∧
        copy.names = ["c"] ∧ foreignOptions.names = ["a", "b"]) ∧
      ∀ env, foreignOptions.configure foreignOptions.toFrame env
        = (.error (.unknownOption "cpath:/a" "c"), foreignOptions, env) := by
  have hplain : ∀ s ∈ foreignOptions.all, s.slots = [] ∧ s.triggers = [] := by
    simp [all, Keyed.values, foreignOptions, switchOn]
  exact ⟨reached_foreignOptions, hplain,
    ⟨_, reached_foreignOptions.orderly.ofFrame_toFrame_eq "cpath:/b", rfl, rfl⟩, fun _ => rfl⟩

end Settings
end SignalTree
