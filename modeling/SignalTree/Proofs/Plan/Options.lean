import SignalTree.Plan.Build
import SignalTree.Proofs.Plan.Reading
import SignalTree.Proofs.Settings.Run
import SignalTree.Proofs.Tree.Lookup

/-!
# Options — what a plan does to the options of one component

A part of a plan declares options after those that the builder made, and then sets some of all of
them.  Both happen in the order of the plan, and each step adds to the ones before it.

* `Plan.Declaration.Describes`: an option is as it was declared;
* `Settings.Declares`, `Settings.Assigns`: what the steps do that all succeed;
* `Declares.lookup_of_mem`, `Assigns.lookup_of_mem`: what is found under a name in the end.
-/

namespace SignalTree

variable {σ : Type}

/-! ## A declared option -/

namespace Plan

/-- The option is the one that was declared under the name. -/
structure Declaration.Describes (name : String) (d : Declaration) (s : Setting σ) : Prop where
  name_eq : s.name = name
  kind_eq : Kind.ofName? d.kind = some s.kind
  /-- What is declared is read for the kind; the zero of the kind stands for what is left out. -/
  default_eq : match d.default with
    | some y => y.toValue s.kind = .ok s.default
    | none => s.default = .zero s.kind
  description_eq : s.description = d.description
  pretty_eq : s.pretty = d.pretty.getD ""
  tier_eq : s.tier = if d.basic then .basic else .advanced
  /-- Every declared value is allowed, and so is the default. -/
  members : ∀ y ∈ d.restricted, ∃ v, y.toValue s.kind = .ok v ∧ v ∈ s.restricted
  default_allowed : s.restricted ≠ [] → s.default.isIn s.restricted = true

/-- A declaration does not say which value an option has later. -/
theorem Declaration.Describes.with_value {name : String} {d : Declaration} {s : Setting σ}
    (h : d.Describes name s) (v : Value) : d.Describes name { s with value := v } :=
  ⟨h.name_eq, h.kind_eq, h.default_eq, h.description_eq, h.pretty_eq, h.tier_eq, h.members,
    h.default_allowed⟩

theorem exists_of_allowedValues {kind : Kind} {i : Nat} {items : List Yaml} {values : List Value}
    (h : allowedValues kind i items = .ok values) {y : Yaml} (hy : y ∈ items) :
    ∃ v, y.toValue kind = .ok v ∧ v ∈ values := by
  induction items generalizing i values with
  | nil => cases hy
  | cons first rest ih =>
    unfold allowedValues at h
    cases hfirst : first.toValue kind with
    | error e => simp [hfirst] at h
    | ok v =>
      rw [hfirst] at h
      rcases map_eq_ok_iff.1 h with ⟨more, hmore, rfl⟩
      rcases List.mem_cons.1 hy with rfl | hy
      · exact ⟨v, hfirst, List.mem_cons_self ..⟩
      · rcases ih hmore hy with ⟨w, hw, hmem⟩
        exact ⟨w, hw, List.mem_cons_of_mem _ hmem⟩

theorem locatedAt_eq_ok_iff {α : Type} {name : String} {r : Except Error α} {a : α} :
    locatedAt name r = .ok a ↔ r = .ok a := by
  cases r with
  | ok a => exact Iff.rfl
  | error e => simp [locatedAt, Except.mapError]

theorem Declaration.kind_of_readDefault {d : Declaration} {kind : Kind} {v : Value}
    (h : d.readDefault kind = .ok v) : v.kind = kind := by
  unfold readDefault at h
  split at h
  · exact Yaml.kind_of_toValue h
  · rw [← Except.ok.inj h, Value.kind_zero]

/-- What a declaration stands for is as it says, and starts at its default. -/
theorem Declaration.describes_of_setting {name : String} {d : Declaration} {s : Setting σ}
    (h : d.setting name = .ok s) : d.Describes name s ∧ s.value = s.default := by
  unfold setting at h
  rcases bind_eq_ok_iff.1 h with ⟨kind, hkind, h⟩
  rcases bind_eq_ok_iff.1 h with ⟨default, hdefault, h⟩
  rcases bind_eq_ok_iff.1 h with ⟨s₀, hnew, h⟩
  rw [locatedAt_eq_ok_iff] at hkind hdefault
  rcases Setting.new_eq_ok_iff.1 hnew with ⟨_, rfl⟩
  obtain rfl : default.kind = kind := kind_of_readDefault hdefault
  have hname : Kind.ofName? d.kind = some default.kind := by
    unfold readKind at hkind
    split at hkind
    · rename_i kind' hkind'
      rw [hkind', Except.ok.inj hkind]
    · cases hkind
  have hzero : match d.default with
      | some y => y.toValue default.kind = .ok default
      | none => default = .zero default.kind := by
    unfold readDefault at hdefault
    cases hd : d.default with
    | none =>
      rw [hd] at hdefault
      exact (Except.ok.inj hdefault).symm
    | some y =>
      rw [hd] at hdefault
      exact hdefault
  extract_lets s₁ at h
  by_cases hempty : d.restricted = []
  · rw [if_pos (by simpa using hempty)] at h
    rw [← Except.ok.inj h]
    exact ⟨⟨rfl, hname, hzero, rfl, rfl, rfl, by simp [hempty], fun hne => absurd rfl hne⟩, rfl⟩
  · rw [if_neg (by simpa using hempty)] at h
    rcases bind_eq_ok_iff.1 h with ⟨values, hvalues, h⟩
    rw [locatedAt_eq_ok_iff] at hvalues
    rcases Setting.restrictTo_eq_ok_iff.1 h with ⟨_, rfl, hallowed⟩
    refine ⟨⟨rfl, hname, hzero, rfl, rfl, rfl, ?_, fun _ => hallowed⟩, rfl⟩
    intro y hy
    rcases exists_of_allowedValues hvalues hy with ⟨v, hv, hmem⟩
    refine ⟨v, hv, ?_⟩
    change v ∈ if _ then values else _ :: values
    split
    · exact hmem
    · exact List.mem_cons_of_mem _ hmem

/-! ## A value to set -/

/-- A value is read for the kind of the option that it is for. -/
theorem optionValue_eq_ok_iff {η : Type} {w : World σ η} {id : NodeId} {name : String} {y : Yaml}
    {v : Value} : optionValue w id name y = .ok v ↔
      ∃ c s, w.tree.get? id = some c ∧ c.options.get? name = some s ∧ y.toValue s.kind = .ok v := by
  simp only [optionValue, bind_eq_ok_iff, locatedAt_eq_ok_iff, Tree.component_eq_ok_iff,
    Settings.get_eq_ok_iff, Settings.get?]
  constructor
  · rintro ⟨c, hc, s, hs, hv⟩
    exact ⟨c, s, hc, hs, hv⟩
  · rintro ⟨c, s, hc, hs, hv⟩
    exact ⟨c, hc, s, hs, hv⟩

end Plan

/-! ## The options of a component -/

namespace Settings

/-- Options are declared after others, and each is new. -/
inductive Declares : List (String × Plan.Declaration) → Settings σ → Settings σ → Prop where
  | none (o : Settings σ) : Declares [] o o
  | next {name : String} {d : Plan.Declaration} {rest : List (String × Plan.Declaration)}
      {s : Setting σ} {o o₁ o₂ : Settings σ} (hs : d.setting name = .ok s)
      (ho : o.insert s = .ok o₁) (hrest : Declares rest o₁ o₂) : Declares ((name, d) :: rest) o o₂

/-- Options are set, each to a value that passes its checks. -/
inductive Assigns : List (String × Yaml) → Settings σ → Settings σ → Prop where
  | none (o : Settings σ) : Assigns [] o o
  | next {name : String} {y : Yaml} {rest : List (String × Yaml)} {s : Setting σ} {v : Value}
      {o o₂ : Settings σ} (hs : o.get name = .ok s) (hv : y.toValue s.kind = .ok v)
      (hcheck : s.check v = .ok ())
      (hrest : Assigns rest (o.replace name { s with value := v }) o₂) :
      Assigns ((name, y) :: rest) o o₂

variable {declared : List (String × Plan.Declaration)} {options : List (String × Yaml)}
  {o o' : Settings σ} {name : String} {s : Setting σ}

namespace Declares

/-- The names that are declared come after the others, in their order. -/
theorem names_eq (h : Declares declared o o') : o'.names = o.names ++ Keyed.keys declared := by
  induction h with
  | none o => simp [Keyed.keys]
  | next hs ho _ ih =>
    rcases insert_eq_ok_iff.1 ho with ⟨_, rfl⟩
    have hname := (Plan.Declaration.describes_of_setting hs).1.name_eq
    rw [ih]
    simp [names, Keyed.keys, hname]

/-- An option that was there before stays. -/
theorem lookup_of_before (h : Declares declared o o') (hs : o.items.lookup name = some s) :
    o'.items.lookup name = some s := by
  induction h with
  | none o => exact hs
  | next _ ho _ ih =>
    rcases insert_eq_ok_iff.1 ho with ⟨_, rfl⟩
    apply ih
    rw [List.lookup_append, hs]
    rfl

/-- Each declared option is there. -/
theorem lookup_of_mem (h : Declares declared o o') {d : Plan.Declaration}
    (hd : (name, d) ∈ declared) : ∃ s, d.setting name = .ok s ∧ o'.items.lookup name = some s := by
  induction h with
  | none o => cases hd
  | @next name' d' rest s o o₁ o₂ hs ho hrest ih =>
    rcases List.mem_cons.1 hd with heq | hd
    · cases heq
      rcases insert_eq_ok_iff.1 ho with ⟨hfree, rfl⟩
      have hname := (Plan.Declaration.describes_of_setting hs).1.name_eq
      rw [hname] at hfree
      refine ⟨s, hs, hrest.lookup_of_before ?_⟩
      rw [List.lookup_append, hfree, hname]
      simp
    · exact ih hd

end Declares

namespace Assigns

theorem names_eq (h : Assigns options o o') : o'.names = o.names := by
  induction h with
  | none o => rfl
  | next _ _ _ _ ih => exact ih.trans (Keyed.keys_modify ..)

theorem lookup_replace (hs : o.get name = .ok s) (t : Setting σ) (other : String) :
    (o.replace name t).items.lookup other
      = if other = name then some t else o.items.lookup other := by
  rw [replace, Keyed.lookup_modify]
  by_cases hother : other = name
  · rw [if_pos hother, if_pos hother, hother, get_eq_ok_iff.1 hs]
    rfl
  · rw [if_neg hother, if_neg hother]

/-- What is not set stays as it is. -/
theorem lookup_of_notMem (h : Assigns options o o') (hname : name ∉ Keyed.keys options) :
    o'.items.lookup name = o.items.lookup name := by
  induction h with
  | none o => rfl
  | next hs _ _ _ ih =>
    rcases not_or.1 (mt List.mem_cons.2 hname) with ⟨hne, hrest⟩
    rw [ih hrest, lookup_replace hs, if_neg hne]

/-- What is set holds the value, if it is set only once. -/
theorem lookup_of_mem (h : Assigns options o o') (hdistinct : Keyed.Distinct options) {y : Yaml}
    (hy : (name, y) ∈ options) :
    ∃ s v, o.items.lookup name = some s ∧ y.toValue s.kind = .ok v ∧
      o'.items.lookup name = some { s with value := v } := by
  induction h with
  | none o => cases hy
  | @next name' y' rest s v o o₂ hs hv _ hrest ih =>
    rcases List.nodup_cons.1 hdistinct with ⟨hnew, hdistinct⟩
    rcases List.mem_cons.1 hy with heq | hmem
    · cases heq
      refine ⟨s, v, get_eq_ok_iff.1 hs, hv, ?_⟩
      rw [hrest.lookup_of_notMem hnew, lookup_replace hs, if_pos rfl]
    · have hne : name ≠ name' := by
        rintro rfl
        exact hnew (List.mem_map.2 ⟨(name, y), hmem, rfl⟩)
      rcases ih hdistinct hmem with ⟨s', v', hs', hv', hafter⟩
      rw [lookup_replace hs, if_neg hne] at hs'
      exact ⟨s', v', hs', hv', hafter⟩

end Assigns
end Settings
end SignalTree
