import SignalTree.Plan.Value
import SignalTree.Proofs.Value.Reading

/-!
# Reading — what is read from the values of a plan

Where the kind is known, the values of a plan are read like texts.  Inside a map they choose their
kinds themselves, and the first item of a sequence chooses for the others, which are then read for
that kind, whatever kinds they would have chosen.

* `Yaml.gives_toList`: a sequence that is read for a kind;
* `Yaml.gives_infer`: the induction over values that choose their kinds;
* `Yaml.gives_toValue`: a value of a plan has the kind it is read for.
-/

namespace SignalTree
namespace Yaml

theorem gives_scalarText (kind : Kind) (y : Yaml) : Gives (fun _ => True) (scalarText kind y) := by
  induction y using scalarText.induct with
  | case1 s => trivial
  | case2 b => trivial
  | case3 n => trivial
  | case4 tag y ih => exact ih
  | case5 y htext hbool hnumber htagged =>
    unfold scalarText
    split
    · trivial
    · trivial
    · trivial
    · exact absurd rfl (htagged _ _)
    · trivial

theorem gives_toScalar (kind : ScalarKind) (y : Yaml) :
    Gives (fun s => s.kind = kind) (toScalar kind y) :=
  (gives_scalarText _ y).bind fun text _ => Scalar.gives_decode text kind

theorem gives_toScalars (kind : ScalarKind) (i : Nat) (items : List Yaml) :
    Gives (fun values => ∀ v ∈ values, v.kind = .scalar kind) (toScalars kind i items) := by
  induction items generalizing i with
  | nil => exact List.forall_mem_nil _
  | cons y rest ih =>
    rw [toScalars]
    have hfirst := gives_toScalar kind y
    generalize toScalar kind y = first at hfirst ⊢
    cases first with
    | error e => exact hfirst.located _
    | ok s =>
      exact (ih (i + 1)).map fun others hothers =>
        List.forall_mem_cons.2 ⟨congrArg Kind.scalar hfirst, hothers⟩

theorem gives_toList (kind : ScalarKind) (items : List Yaml) :
    Gives (fun v => v.kind = .list kind) (toList kind items) :=
  (gives_toScalars kind 0 items).bind fun _ hvalues =>
    (Value.gives_ofValues hvalues).map fun _ => congrArg Kind.list

mutual

theorem gives_infer (y : Yaml) : Gives (fun _ => True) (infer y) := by
  cases y with
  | null => trivial
  | bool b => trivial
  | number n => trivial
  | text s => trivial
  | sequence items =>
    unfold infer
    refine (gives_inferFirst items).bind fun first _ => ?_
    -- whatever the first item chooses, the others are read for it
    cases first with
    | none => exact (gives_toList .string items).mono fun _ _ => trivial
    | some first =>
      cases first with
      | scalar s => exact (gives_toList s.kind items).mono fun _ _ => trivial
      | list l => trivial
      | map entries => trivial
  | mapping entries =>
    unfold infer
    exact (gives_inferEntries entries []).map fun _ _ => trivial
  | tagged tag y =>
    unfold infer
    exact gives_infer y

theorem gives_inferFirst (items : List Yaml) : Gives (fun _ => True) (inferFirst items) := by
  cases items with
  | nil =>
    unfold inferFirst
    trivial
  | cons y rest =>
    unfold inferFirst
    exact (gives_infer y).map fun _ _ => trivial

theorem gives_inferEntries (entries : List (Yaml × Yaml)) (done : List (String × Value)) :
    Gives (fun _ => True) (inferEntries entries done) := by
  cases entries with
  | nil =>
    unfold inferEntries
    trivial
  | cons p rest =>
    rcases p with ⟨key, y⟩
    cases key with
    | text key =>
      unfold inferEntries
      have hfirst := gives_infer y
      generalize infer y = first at hfirst ⊢
      cases first with
      | error e => exact hfirst.located key
      | ok value => exact gives_inferEntries rest _
    | _ =>
      unfold inferEntries
      trivial

end

theorem gives_toValue (y : Yaml) (kind : Kind) :
    Gives (fun v => v.kind = kind) (y.toValue kind) := by
  cases kind with
  | scalar k => exact (gives_toScalar k y).map fun _ => congrArg Kind.scalar
  | list k =>
    cases y with
    | sequence items => exact gives_toList k items
    | text s => exact Value.gives_decode s (.list k)
    | _ => trivial
  | map =>
    cases y with
    | mapping entries =>
      unfold toValue
      simp only [infer]
      exact (gives_inferEntries entries []).map fun _ _ => rfl
    | text s => exact Value.gives_decode s .map
    | _ => trivial

theorem kind_of_toValue {y : Yaml} {kind : Kind} {v : Value} (h : y.toValue kind = .ok v) :
    v.kind = kind :=
  (gives_toValue y kind).of_eq_ok h

end Yaml
end SignalTree
