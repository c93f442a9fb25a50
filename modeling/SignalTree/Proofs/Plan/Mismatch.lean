import SignalTree.Proofs.Plan.Options
import SignalTree.Proofs.Setting.Assign
import SignalTree.Proofs.Settings.Configure
import SignalTree.Proofs.Wire.Reading

/-!
# Mismatch — where a mismatch of kinds comes from

No reader ends with a mismatch: what is read has the kind that was asked for, at every depth.  So
when a plan sets an option, the kind of the value is right by then, and a mismatch can only come
from outside, from a slot that is too narrow for the value or from a trigger that reports one.

* `Setting.Clashes`: these two sources of an error;
* `Plan.clashes_of_setOption`: a mismatch while a plan sets an option has one of them;
* `readers_give_their_kind`: all readers, and the options of a plan.
-/

namespace SignalTree

variable {σ η : Type}

/-- A value of the right kind meets an error from outside: a slot cannot hold it, or a trigger fails
on it. -/
inductive Setting.Clashes (s : Setting σ) (v : Value) (host : σ) : Error → Prop where
  | slot {slot : Slot} (hslot : slot ∈ s.slots) (hnarrow : slot.view.read v = none) :
      Clashes s v host (.mismatch (s.name ++ " (linked slot)") s.kind v.kind)
  | trigger {e : Error} (hstops : Stops v e s.triggers host) : Clashes s v host e

theorem Setting.clashes_of_check {s : Setting σ} {v : Value} (hkind : v.kind = s.kind)
    {name : String} {expected found : Kind}
    (h : s.check v = .error (.mismatch name expected found)) (host : σ) :
    s.Clashes v host (.mismatch name expected found) := by
  cases Setting.check_eq_error_iff.1 h with
  | kind hne => exact absurd hkind hne
  | slot _ _ hslot hnarrow => exact .slot hslot hnarrow

theorem Settings.clashes_of_set {o : Settings σ} {key : String} {s : Setting σ} {v : Value}
    {env : Env σ} (hs : o.get? key = some s) (hkind : v.kind = s.kind) {name : String}
    {expected found : Kind} (h : (o.set key v env).1 = .error (.mismatch name expected found)) :
    s.Clashes v env.host (.mismatch name expected found) := by
  have hsets := o.set_sets key v env
  rw [h] at hsets
  generalize (o.set key v env).2.1 = o' at hsets
  cases hsets with
  | refused hrefuses =>
    cases hrefuses with
    | checked hs' hcheck =>
      obtain rfl := Option.some.inj (hs.symm.trans hs')
      exact Setting.clashes_of_check hkind hcheck env.host
  | stopped hs' _ hstops =>
    obtain rfl := Option.some.inj (hs.symm.trans hs')
    exact .trigger hstops

namespace Plan

variable {w : World σ η} {id : NodeId} {key name : String} {y : Yaml} {v : Value} {e : Error}
  {expected found : Kind}

theorem gives_locatedAt {α : Type} {P : α → Prop} {r : Except Error α} (h : Gives P r) :
    Gives P (locatedAt key r) := by
  cases r with
  | ok a => exact h
  | error e => exact h.located key

/-- If there is no value to set, then there is no such option, or the text cannot be read. -/
theorem optionValue_ne_mismatch :
    optionValue w id key y ≠ .error (.mismatch name expected found) := by
  intro h
  rcases bind_eq_error h with hc | ⟨c, _, h⟩
  · unfold Tree.component at hc
    split at hc
    · cases hc
    · cases hc
  · rcases bind_eq_error h with hs | ⟨s, _, h⟩
    · unfold Settings.get at hs
      split at hs
      · cases hs
      · cases hs
    · exact (gives_locatedAt (Yaml.gives_toValue y s.kind)).of_eq_error h

theorem clashes_of_setOption
    (h : (setOption id (key, y) w).1 = .error (.mismatch name expected found)) :
    ∃ c s v, w.tree.get? id = some c ∧ c.options.get? key = some s ∧ y.toValue s.kind = .ok v ∧
      s.Clashes v w.env.host (.mismatch name expected found) := by
  unfold setOption at h
  cases hvalue : optionValue w id key y with
  | error e =>
    simp only [hvalue] at h
    cases h
    exact absurd hvalue optionValue_ne_mismatch
  | ok v =>
    simp only [hvalue] at h
    rcases optionValue_eq_ok_iff.1 hvalue with ⟨c, s, hc, hs, hv⟩
    have hset : (c.options.set key v w.env).1 = .error (.mismatch name expected found) := by
      simpa only [World.setOption, World.changeOptions, Tree.component_eq_ok_iff.2 hc] using h
    exact ⟨c, s, v, hc, hs, hv, Settings.clashes_of_set hs (Yaml.kind_of_toValue hv) hset⟩

end Plan

/-! ## All readers -/

open Wire in
/-- Every reader gives values of the kind that it is asked for, or says that a text cannot be read,
and never ends with a mismatch: the reader of scalars, that of all values, that of the values of a
plan, and those of documents, where the elements ask for the kinds.  The lists in what they give
hold scalars of their own kind, at every depth.  So a mismatch while a plan sets an option comes
from a slot of the option or from one of its triggers. -/
theorem readers_give_their_kind :
    (∀ text kind, Gives (fun s => s.kind = kind) (Scalar.decode text kind)) ∧
    (∀ text kind, Gives (fun v => v.kind = kind ∧ v.Homogeneous) (Value.decode text kind)) ∧
    (∀ (y : Yaml) (kind : Kind),
      Gives (fun v => v.kind = kind ∧ v.Homogeneous) (y.toValue kind)) ∧
    (∀ text, Gives (fun f => (∃ m, readRoot text >>= mapOf = .ok m ∧ FitsFrame m f) ∧
      (Value.map f.toMap).Homogeneous) (readFrame text)) ∧
    (∀ text, Gives (fun d => (∃ n, readRoot text >>= signalOf = .ok n ∧
      FitsFrame (n.child? mapTag) d.frame) ∧ (Value.map d.frame.toMap).Homogeneous)
      (readDocument text)) ∧
    ∀ (w : World σ η) (id : NodeId) (key : String) (y : Yaml) (name : String)
      (expected found : Kind),
      (Plan.setOption id (key, y) w).1 = .error (.mismatch name expected found) →
      ∃ c s v, w.tree.get? id = some c ∧ c.options.get? key = some s ∧
        y.toValue s.kind = .ok v ∧ s.Clashes v w.env.host (.mismatch name expected found) := by
  refine ⟨Scalar.gives_decode, ?_, ?_, ?_, ?_, ?_⟩
  · intro text kind
    exact (Value.gives_decode text kind).mono fun v hv => ⟨hv, v.homogeneous⟩
  · intro y kind
    exact (Yaml.gives_toValue y kind).mono fun v hv => ⟨hv, v.homogeneous⟩
  · intro text
    exact (gives_readFrame text).mono fun f hf => ⟨hf, Value.homogeneous _⟩
  · intro text
    exact (gives_readDocument text).mono fun d hd => ⟨hd, Value.homogeneous _⟩
  · intro w id key y name expected found h
    exact Plan.clashes_of_setOption h

/-- A level that is linked to a slot of half the width. -/
def narrowLevel : Setting Unit where
  name := "level"
  description := ""
  pretty := ""
  value := .scalar (.integer 0)
  default := .scalar (.integer 0)
  restricted := []
  tier := .basic
  triggers := []
  slots := [⟨0, .scalar .int32⟩]

def meters : Registry Unit Unit :=
  ⟨[("Meter", fun name env =>
    (.ok { (Component.new name "Meter" : Component Unit Unit) with
      options := ⟨"", [("level", narrowLevel)]⟩ }, env))]⟩

/-- The level is beyond the slot, but not beyond its kind. -/
def meterPlan : Plan :=
  ⟨"Root", [⟨"", "meter", "Meter", [], [("level", .number (.natural 3000000000))]⟩], []⟩

/-- What is built when the level is to be set. -/
def meterWorld : World Unit Unit :=
  ((⟨Tree.new "Root" meters, ⟨[.scalar (.integer 0)], (), []⟩⟩ : World Unit Unit).createChild 0
    "Meter" "meter").2

theorem readers_give_their_kind_meter :
    (Plan.setOption 1 ("level", .number (.natural 3000000000)) meterWorld).1 =
        .error (.mismatch "level (linked slot)" (.scalar .integer) (.scalar .integer)) ∧
      (meterPlan.build meters ⟨[.scalar (.integer 0)], (), []⟩).1 =
        .error (.mismatch "level (linked slot)" (.scalar .integer) (.scalar .integer)) ∧
      ∃ c s v, meterWorld.tree.get? 1 = some c ∧ c.options.get? "level" = some s ∧
        Yaml.toValue (.number (.natural 3000000000)) s.kind = .ok v ∧
        s.Clashes v () (.mismatch "level (linked slot)" (.scalar .integer) (.scalar .integer)) := by
  have hset : (Plan.setOption 1 ("level", .number (.natural 3000000000)) meterWorld).1 =
      .error (.mismatch "level (linked slot)" (.scalar .integer) (.scalar .integer)) := rfl
  exact ⟨hset, rfl, readers_give_their_kind.2.2.2.2.2 meterWorld 1 "level" _ _ _ _ hset⟩

end SignalTree
