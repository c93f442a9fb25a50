import SignalTree.Proofs.Result
import SignalTree.Value.Text

/-!
# Reading — what is read from a text

Values are read by many readers, one inside the other.  Whatever the text, a reader gives something
of the kind that it was asked for, or it says that the text cannot be read.  There is no third case:
the items of a list have been read for its kind by the time they are put together, so that no reader
ends with a mismatch.

* `Error.IsUnreadable`: the failure of a reader;
* `Gives`: what a result is, unless it is this failure;
* `Scalar.gives_decode`, `Value.gives_decode`: texts are read for a kind;
* `Value.Homogeneous`: each list at any depth holds scalars of its own kind.
-/

namespace SignalTree

variable {α β : Type}

/-- A text cannot be read. -/
def Error.IsUnreadable : Error → Prop
  | .unreadable _ _ _ _ => True
  | _ => False

theorem Error.IsUnreadable.located {e : Error} (h : e.IsUnreadable) (segment : String) :
    (e.located segment).IsUnreadable := by
  cases e with
  | unreadable expected text reason location => trivial
  | _ => exact h.elim

/-- What is read has a property, unless the text cannot be read. -/
def Gives (P : α → Prop) : Except Error α → Prop
  | .ok a => P a
  | .error e => e.IsUnreadable

namespace Gives

variable {P : α → Prop} {Q : β → Prop} {r : Except Error α} {a : α} {e : Error}

theorem of_eq_ok (h : Gives P r) (hr : r = .ok a) : P a := by
  rw [hr] at h
  exact h

theorem of_eq_error (h : Gives P r) (hr : r = .error e) : e.IsUnreadable := by
  rw [hr] at h
  exact h

theorem bind (h : Gives P r) {f : α → Except Error β} (hf : ∀ a, P a → Gives Q (f a)) :
    Gives Q (r >>= f) := by
  cases r with
  | ok a => exact hf a h
  | error e => exact h

/-- The second step may use that its input is the result of the first. -/
theorem bind_of_eq (h : Gives P r) {f : α → Except Error β}
    (hf : ∀ a, r = .ok a → Gives Q (f a)) : Gives Q (r >>= f) := by
  cases r with
  | ok a => exact hf a rfl
  | error e => exact h

theorem map (h : Gives P r) {f : α → β} (hf : ∀ a, P a → Q (f a)) : Gives Q (r.map f) := by
  cases r with
  | ok a => exact hf a h
  | error e => exact h

theorem mono (h : Gives P r) {P' : α → Prop} (hP : ∀ a, P a → P' a) : Gives P' r := by
  cases r with
  | ok a => exact hP a h
  | error e => exact h

end Gives

/-! ## Scalars -/

theorem Uri.gives_parse (text : String) : Gives (fun _ => True) (Uri.parse text) := by
  unfold Uri.parse
  extract_lets cs
  split
  · trivial
  · trivial

theorem Scalar.gives_decode (text : String) (kind : ScalarKind) :
    Gives (fun s => s.kind = kind) (Scalar.decode text kind) := by
  unfold Scalar.decode
  extract_lets body fail
  -- every reader but the one for references fails in the same way
  have hfail : ∀ reason, Gives (fun s => s.kind = kind) (fail reason) := fun reason => trivial
  cases kind with
  | string => exact rfl
  | path =>
    refine Gives.map (Uri.gives_parse _) ?_
    intro u _
    rfl
  | _ =>
    simp only
    split
    · exact rfl
    · exact hfail _

/-! ## Lists -/

namespace Value

/-- Scalars of one kind make up a list. -/
theorem succeeds_ofValues {kind : ScalarKind} {values : List Value}
    (h : ∀ v ∈ values, v.kind = .scalar kind) : Succeeds (ScalarList.ofValues kind values) := by
  suffices hscalars : ∀ i, Succeeds (scalarsOf kind i values) from
    succeeds_map_iff.2 (hscalars 0)
  induction values with
  | nil => exact fun i => succeeds_ok _
  | cons v rest ih =>
    rcases List.forall_mem_cons.1 h with ⟨hv, hrest⟩
    intro i
    cases v with
    | scalar s =>
      rw [scalarsOf, dif_pos (Kind.scalar.inj hv)]
      exact succeeds_map_iff.2 (ih hrest (i + 1))
    | _ => cases hv

theorem gives_ofValues {kind : ScalarKind} {values : List Value}
    (h : ∀ v ∈ values, v.kind = .scalar kind) :
    Gives (fun l => l.kind = kind) (ScalarList.ofValues kind values) := by
  rcases succeeds_ofValues h with ⟨l, hl⟩
  rcases map_eq_ok_iff.1 hl with ⟨items, _, rfl⟩
  rw [hl]
  exact rfl

theorem gives_decodeItems (kind : ScalarKind) (i : Nat) (items : List Json) :
    Gives (fun values => ∀ v ∈ values, v.kind = .scalar kind) (decodeItems kind i items) := by
  induction items generalizing i with
  | nil => exact List.forall_mem_nil _
  | cons j rest ih =>
    cases j with
    | text t =>
      rw [decodeItems]
      have hfirst := Scalar.gives_decode t kind
      generalize Scalar.decode t kind = first at hfirst ⊢
      cases first with
      | error e => exact hfirst.located _
      | ok s =>
        exact (ih (i + 1)).map fun others hothers =>
          List.forall_mem_cons.2 ⟨congrArg Kind.scalar hfirst, hothers⟩
    | _ => trivial

theorem gives_decodeList (kind : ScalarKind) (text : String) (j : Json) :
    Gives (fun v => v.kind = .list kind) (decodeList kind text j) := by
  cases j with
  | array items =>
    exact (gives_decodeItems kind 0 items).bind fun values hvalues =>
      (gives_ofValues hvalues).map fun _ => congrArg Kind.list
  | _ => trivial

/-! ## Maps -/

mutual

theorem gives_decodeTagged (j : Json) : Gives (fun _ => True) (decodeTagged j) := by
  unfold decodeTagged
  split
  · rename_i name payload
    cases hkind : Kind.ofName? name with
    | none => trivial
    | some kind =>
      cases kind with
      | scalar k =>
        cases payload with
        | text s => exact (Scalar.gives_decode s k).map fun _ _ => trivial
        | _ => trivial
      | list k => exact (gives_decodeList k _ payload).mono fun _ _ => trivial
      | map =>
        cases payload with
        | object members => exact (gives_decodeMembers members).map fun _ _ => trivial
        | _ => trivial
  · trivial

theorem gives_decodeMembers (members : List (String × Json)) :
    Gives (fun _ => True) (decodeMembers members) := by
  cases members with
  | nil =>
    unfold decodeMembers
    trivial
  | cons m rest =>
    rcases m with ⟨key, j⟩
    unfold decodeMembers
    have hfirst := gives_decodeTagged j
    generalize decodeTagged j = first at hfirst ⊢
    cases first with
    | error e => exact hfirst.located key
    | ok v => exact (gives_decodeMembers rest).map fun _ _ => trivial

end

/-! ## Values -/

theorem gives_readJson (text : String) (kind : Kind) :
    Gives (fun _ => True) (readJson text kind) := by
  unfold readJson
  split
  · trivial
  · trivial

/-- A text is read for a kind, and gives a value of that kind. -/
theorem gives_decode (text : String) (kind : Kind) :
    Gives (fun v => v.kind = kind) (decode text kind) := by
  cases kind with
  | scalar k => exact (Scalar.gives_decode text k).map fun _ => congrArg Kind.scalar
  | list k => exact (gives_readJson text (.list k)).bind fun j _ => gives_decodeList k text j
  | map =>
    refine (gives_readJson text .map).bind fun j _ => ?_
    cases j with
    | object members => exact (gives_decodeMembers members).map fun _ _ => rfl
    | _ => trivial

/-! ## Inside a value -/

mutual

/-- Each list at any depth holds scalars of its own kind. -/
def Homogeneous : Value → Prop
  | .scalar _ => True
  | .list l => ∀ s ∈ l.items, s.kind = l.kind
  | .map entries => HomogeneousEntries entries

/-- `Homogeneous` for each value of a map. -/
def HomogeneousEntries : List (String × Value) → Prop
  | [] => True
  | (_, v) :: rest => v.Homogeneous ∧ HomogeneousEntries rest

end

mutual

/-- No list is made without the proof that the kinds agree. -/
theorem homogeneous (v : Value) : v.Homogeneous := by
  cases v with
  | scalar s => trivial
  | list l => exact l.uniform
  | map entries =>
    unfold Homogeneous
    exact homogeneousEntries entries

theorem homogeneousEntries (entries : List (String × Value)) : HomogeneousEntries entries := by
  cases entries with
  | nil =>
    unfold HomogeneousEntries
    trivial
  | cons p rest =>
    rcases p with ⟨key, v⟩
    unfold HomogeneousEntries
    exact ⟨homogeneous v, homogeneousEntries rest⟩

end

end Value
end SignalTree
