import SignalTree.Proofs.Uri
import SignalTree.Proofs.Value.Reading

/-!
# Location — where a text stands that cannot be read

A map is made of texts at many places: values, items of lists, and those of the maps inside it.  The
readers take them one after the other, stop at the first that cannot be read, and put its location
together from the inside out.

* `Leaf`: a text and its place, and `Leaf.location`: what is said about the place;
* `Leaf.place_eq_location`: the location put together from the inside out is the same;
* `Unread`: a value whose texts are still to be read, and `Unread.leaves`: its texts in order;
* `Reports`: what a reader of some texts does, whichever of them can be read;
* `Unread.reports_decode`: the texts of a map in the notation of maps.
-/

namespace SignalTree

/-! ## Places -/

/-- A text that is read on its own: that of a value, or of an item of a list. -/
structure Leaf where
  /-- The keys from the top to the entry. -/
  keys : List String
  /-- The number of the item. -/
  index : Option Nat
  kind : ScalarKind
  text : String

/-- A key that a location can be taken apart at. -/
def IsKey (key : String) : Prop := key ≠ "" ∧ key.toList.head? ≠ some '['

instance (key : String) : Decidable (IsKey key) := by unfold IsKey; infer_instance

namespace Leaf

/-- Whether the text can be read. -/
def reads (l : Leaf) : Bool := (Scalar.decode l.text l.kind).toOption.isSome

theorem reads_iff (l : Leaf) : l.reads = true ↔ Succeeds (Scalar.decode l.text l.kind) := by
  rw [reads, Succeeds]
  cases Scalar.decode l.text l.kind <;> simp [Except.toOption]

/-- The end of the location of an item. -/
def suffix (l : Leaf) : String := (l.index.map Error.index).getD ""

/-- The keys with dots between them, and the number of an item in brackets. -/
def location (l : Leaf) : String := ".".intercalate l.keys ++ l.suffix

/-- The location as it is put together from the inside out. -/
def place (l : Leaf) : String := l.keys.foldr Error.outer l.suffix

/-- The leaf seen from outside of an entry. -/
def under (key : String) (l : Leaf) : Leaf := { l with keys := key :: l.keys }

/-- The end is empty, or it starts with a bracket. -/
theorem suffix_spec (l : Leaf) : l.suffix = "" ∨ l.suffix.toList.head? = some '[' := by
  rcases l with ⟨keys, index, kind, text⟩
  cases index with
  | none => exact .inl rfl
  | some i => exact .inr (by simp [suffix, Error.index])

theorem outer_suffix (l : Leaf) (key : String) : Error.outer key l.suffix = key ++ l.suffix := by
  rcases l.suffix_spec with h | h
  · rw [h, Error.outer, if_pos rfl, String.append_empty]
  · have hne : l.suffix ≠ "" := by
      intro hempty
      rw [hempty] at h
      cases h
    rw [Error.outer, if_neg hne, if_pos h]

/-- In front of a location that starts with a key there is a dot. -/
theorem outer_of_isKey {inner : String} (hinner : IsKey inner) (key rest : String) :
    Error.outer key (inner ++ rest) = key ++ "." ++ (inner ++ rest) := by
  rcases hinner with ⟨hne, hhead⟩
  have hcons : inner.toList ≠ [] := by simpa using hne
  have hfirst : (inner ++ rest).toList.head? = inner.toList.head? := by
    rw [String.toList_append, List.head?_append_of_ne_nil _ hcons]
  have hnonempty : inner ++ rest ≠ "" := by
    intro h
    have hlist := congrArg String.toList h
    simp [hne] at hlist
  rw [Error.outer, if_neg hnonempty, hfirst, if_neg hhead]

/-- Several keys with dots between them start with the first. -/
theorem exists_intercalate_eq (key : String) (rest : List String) :
    ∃ tail, ".".intercalate (key :: rest) = key ++ tail := by
  cases rest with
  | nil => exact ⟨"", by simp⟩
  | cons next more =>
    exact ⟨"." ++ ".".intercalate (next :: more), by
      rw [String.intercalate_cons_cons, String.append_assoc]⟩

/-- Put together from the inside out, the location is that of the keys. -/
theorem place_eq_location {l : Leaf} (h : ∀ key ∈ l.keys, IsKey key) : l.place = l.location := by
  rcases l with ⟨keys, index, kind, text⟩
  induction keys with
  | nil => simp [place, location]
  | cons key rest ih =>
    rcases List.forall_mem_cons.1 h with ⟨_, hrest⟩
    let inner : Leaf := ⟨rest, index, kind, text⟩
    have hplace : Leaf.place ⟨key :: rest, index, kind, text⟩ = Error.outer key inner.location :=
      congrArg (Error.outer key) (ih hrest)
    rw [hplace]
    -- the end of the location follows the last key without a dot, and the others have one
    cases rest with
    | nil =>
      have hinner : inner.location = inner.suffix := by simp [inner, location]
      rw [hinner, inner.outer_suffix]
      simp [inner, location, suffix]
    | cons next more =>
      rcases exists_intercalate_eq next more with ⟨tail, htail⟩
      have hinner : inner.location = next ++ (tail ++ inner.suffix) := by
        rw [location, htail, String.append_assoc]
      rw [hinner, outer_of_isKey (hrest next List.mem_cons_self), ← hinner]
      simp only [location, inner, String.intercalate_cons_cons, String.append_assoc]
      rfl

end Leaf

/-! ## Texts that are still to be read -/

/-- A value with its texts as they stand. -/
inductive Unread where
  | scalar (kind : ScalarKind) (text : String)
  | list (kind : ScalarKind) (texts : List String)
  | map (entries : List (String × Unread))

namespace Unread

/-- The items of a list from `i` on. -/
def itemLeaves (kind : ScalarKind) (i : Nat) : List String → List Leaf
  | [] => []
  | text :: rest => ⟨[], some i, kind, text⟩ :: itemLeaves kind (i + 1) rest

mutual

/-- The texts in the order in which they stand. -/
def leaves : Unread → List Leaf
  | .scalar kind text => [⟨[], none, kind, text⟩]
  | .list kind texts => itemLeaves kind 0 texts
  | .map entries => leavesOf entries

/-- The texts of some entries. -/
def leavesOf : List (String × Unread) → List Leaf
  | [] => []
  | (key, v) :: rest => v.leaves.map (Leaf.under key) ++ leavesOf rest

end

end Unread

/-! ## Reports -/

variable {α β : Type}

/-- What a reader of some texts does.  The first that cannot be read makes it fail, with the name of
its kind and its place; if all can be read, there is a result. -/
def Reports (leaves : List Leaf) (r : Except Error α) : Prop :=
  match leaves.find? fun l => !l.reads with
  | none => Succeeds r
  | some l => ∃ shown reason, r = .error (.unreadable l.kind.name shown reason l.place)

namespace Reports

variable {leaves others : List Leaf} {r : Except Error α}

theorem nil_iff : Reports [] r ↔ Succeeds r := Iff.rfl

/-- A second step reads the texts that follow. -/
theorem bind (h : Reports leaves r) {f : α → Except Error β}
    (hf : ∀ a, r = .ok a → Reports others (f a)) : Reports (leaves ++ others) (r >>= f) := by
  unfold Reports at h
  rw [Reports, List.find?_append]
  cases hfirst : leaves.find? fun l => !l.reads with
  | none =>
    rw [hfirst] at h
    rcases h with ⟨a, rfl⟩
    rw [Option.none_or]
    exact hf a rfl
  | some l =>
    rw [hfirst] at h
    rcases h with ⟨shown, reason, rfl⟩
    exact ⟨shown, reason, rfl⟩

/-- A second step that reads no text has to succeed. -/
theorem bind_succeeds (h : Reports leaves r) {f : α → Except Error β}
    (hf : ∀ a, r = .ok a → Succeeds (f a)) : Reports leaves (r >>= f) := by
  have hbind : Reports (leaves ++ []) (r >>= f) := h.bind fun a ha => nil_iff.2 (hf a ha)
  rwa [List.append_nil] at hbind

theorem map (h : Reports leaves r) (f : α → β) : Reports leaves (r.map f) := by
  have hmap : r.map f = r >>= fun a => .ok (f a) := by cases r <;> rfl
  rw [hmap]
  exact h.bind_succeeds fun a _ => succeeds_ok (f a)

/-- A reader that puts a key in front of locations reads the texts of one entry. -/
theorem under (h : Reports leaves r) (key : String) :
    Reports (leaves.map (Leaf.under key)) (r.mapError fun e => e.located key) := by
  unfold Reports at h
  rw [Reports, List.find?_map]
  -- the key does not matter to what can be read, so the same text is the first
  change match (leaves.find? fun l => !l.reads).map (Leaf.under key) with | none => _ | some l => _
  cases hfirst : leaves.find? fun l => !l.reads with
  | none =>
    rw [hfirst] at h
    exact succeeds_mapError_iff.2 h
  | some l =>
    rw [hfirst] at h
    rcases h with ⟨shown, reason, rfl⟩
    exact ⟨shown, reason, rfl⟩

/-- The texts up to the first that cannot be read, in a row. -/
theorem of_append {before after : List Leaf} {l : Leaf} (h : Reports (before ++ l :: after) r)
    (hbefore : ∀ k ∈ before, k.reads = true) (hl : l.reads = false) :
    ∃ shown reason, r = .error (.unreadable l.kind.name shown reason l.place) := by
  have hfirst : (before ++ l :: after).find? (fun k => !k.reads) = some l := by
    rw [List.find?_append, List.find?_eq_none.2 (by simpa using hbefore), Option.none_or,
      List.find?_cons_of_pos (by simp [hl])]
  rw [Reports, hfirst] at h
  exact h

end Reports

/-! ## Scalars -/

/-- A scalar that cannot be read is reported for its kind, where its text starts. -/
theorem Scalar.decode_eq_error {text : String} {kind : ScalarKind} {e : Error}
    (h : decode text kind = .error e) :
    ∃ shown reason, e = .unreadable kind.name shown reason "" := by
  unfold decode at h
  extract_lets body fail at h
  have hfail : ∀ reason, fail reason = .error e →
      ∃ shown reason, e = .unreadable kind.name shown reason "" :=
    fun reason h => ⟨text, reason, (Except.error.inj h).symm⟩
  clear_value fail
  -- a path is reported by its own reader, and all other kinds by `fail`
  cases kind with
  | string => cases h
  | path =>
    cases hparse : Uri.parse (String.ofList body) with
    | ok u => simp [hparse, Except.map] at h
    | error e' =>
      rw [hparse] at h
      obtain rfl : e' = e := Except.error.inj h
      exact ⟨_, _, Uri.parse_eq_error hparse⟩
  | _ =>
    simp only at h
    split at h
    · cases h
    · exact hfail _ h

/-- Blanks around a text make no difference to whether it can be read. -/
theorem Scalar.succeeds_decode_trimmed (text : String) (kind : ScalarKind) :
    Succeeds (decode (Text.trimmed text) kind) ↔ Succeeds (decode text kind) := by
  have hbody : Text.trim (Text.trimmed text).toList = Text.trim text.toList := by
    rw [Text.trimmed, String.toList_ofList, Text.trim_trim]
  cases kind with
  | string => exact iff_of_true (succeeds_ok _) (succeeds_ok _)
  | path => simp only [decode, hbody]
  | _ =>
    simp only [decode, hbody]
    split
    · exact iff_of_true (succeeds_ok _) (succeeds_ok _)
    · exact iff_of_false (not_succeeds_error _) (not_succeeds_error _)

namespace Reports

variable {kind : ScalarKind} {text written : String}

/-- One text is read, if not as it is written then without the blanks around it. -/
theorem single {l : Leaf} {r : Except Error α}
    (hsame : Succeeds (Scalar.decode written l.kind) ↔ Succeeds (Scalar.decode l.text l.kind))
    (hok : ∀ s, Scalar.decode written l.kind = .ok s → Succeeds r)
    (herror : ∀ shown reason,
      Scalar.decode written l.kind = .error (.unreadable l.kind.name shown reason "") →
        r = .error (.unreadable l.kind.name shown reason l.place)) :
    Reports [l] r := by
  rw [← l.reads_iff] at hsame
  cases hread : Scalar.decode written l.kind with
  | ok s =>
    have hreads : l.reads = true := hsame.1 ⟨s, hread⟩
    simpa [Reports, hreads] using hok s hread
  | error e =>
    have hreads : l.reads = false := by
      rw [Bool.eq_false_iff, ne_eq, ← hsame, hread]
      exact not_succeeds_error e
    rcases Scalar.decode_eq_error hread with ⟨shown, reason, rfl⟩
    simpa [Reports, hreads] using ⟨shown, reason, herror shown reason hread⟩

theorem scalar
    (hsame : Succeeds (Scalar.decode written kind) ↔ Succeeds (Scalar.decode text kind)) :
    Reports [⟨[], none, kind, text⟩] (Scalar.decode written kind) :=
  single hsame (fun s hs => ⟨s, hs⟩) fun _ _ h => h

theorem item (i : Nat)
    (hsame : Succeeds (Scalar.decode written kind) ↔ Succeeds (Scalar.decode text kind)) :
    Reports [⟨[], some i, kind, text⟩]
      ((Scalar.decode written kind).mapError fun e => e.located (Error.index i)) := by
  refine single hsame (fun s hs => succeeds_mapError_iff.2 ⟨s, hs⟩) fun shown reason h => ?_
  rw [h]
  rfl

end Reports

/-! ## The notation of maps -/

namespace Unread

mutual

/-- A value stands in the notation of maps, under the name of its kind. -/
def InJson : Unread → Json → Prop
  | .scalar kind text, j =>
    ∃ name, Kind.ofName? name = some (.scalar kind) ∧ j = .object [(name, .text text)]
  | .list kind texts, j =>
    ∃ name, Kind.ofName? name = some (.list kind) ∧ j = .object [(name, .array (texts.map .text))]
  | .map entries, j =>
    ∃ name members, Kind.ofName? name = some .map ∧ j = .object [(name, .object members)] ∧
      InMembers entries members

/-- Each entry of a map stands under its key. -/
def InMembers : List (String × Unread) → List (String × Json) → Prop
  | [], members => members = []
  | (key, v) :: rest, members =>
    ∃ j more, members = (key, j) :: more ∧ v.InJson j ∧ InMembers rest more

end

open Value in
theorem reports_decodeItems (kind : ScalarKind) (i : Nat) (texts : List String) :
    Reports (itemLeaves kind i texts) (decodeItems kind i (texts.map .text)) := by
  induction texts generalizing i with
  | nil => exact succeeds_ok _
  | cons text rest ih =>
    have hcons : decodeItems kind i ((text :: rest).map .text) =
        ((Scalar.decode text kind).mapError fun e => e.located (Error.index i)) >>= fun v =>
          (decodeItems kind (i + 1) (rest.map .text)).map (.scalar v :: ·) := by
      rw [List.map_cons, decodeItems]
      cases Scalar.decode text kind <;> rfl
    rw [hcons]
    exact (Reports.item i Iff.rfl).bind fun _ _ => (ih (i + 1)).map _

theorem reports_decodeList (kind : ScalarKind) (shown : String) (texts : List String) :
    Reports (itemLeaves kind 0 texts) (Value.decodeList kind shown (.array (texts.map .text))) := by
  refine (reports_decodeItems kind 0 texts).bind_succeeds fun values hvalues => ?_
  have hkinds := (Value.gives_decodeItems kind 0 _).of_eq_ok hvalues
  exact succeeds_map_iff.2 (Value.succeeds_ofValues hkinds)

mutual

theorem reports_decodeTagged {v : Unread} {j : Json} (h : v.InJson j) :
    Reports v.leaves (Value.decodeTagged j) := by
  cases v with
  | scalar kind text =>
    rw [InJson] at h
    rcases h with ⟨name, hname, rfl⟩
    rw [leaves, Value.decodeTagged]
    · simp only [hname]
      exact (Reports.scalar Iff.rfl).map _
    · exact fun _ => Json.noConfusion
  | list kind texts =>
    rw [InJson] at h
    rcases h with ⟨name, hname, rfl⟩
    rw [leaves, Value.decodeTagged]
    · simp only [hname]
      exact reports_decodeList kind _ texts
    · exact fun _ => Json.noConfusion
  | map entries =>
    rw [InJson] at h
    rcases h with ⟨name, members, hname, rfl, hmembers⟩
    rw [leaves, Value.decodeTagged]
    simp only [hname]
    exact (reports_decodeMembers hmembers).map _

theorem reports_decodeMembers {entries : List (String × Unread)} {members : List (String × Json)}
    (h : InMembers entries members) : Reports (leavesOf entries) (Value.decodeMembers members) := by
  match entries with
  | [] =>
    rw [InMembers] at h
    rw [h, leavesOf, Value.decodeMembers]
    exact succeeds_ok _
  | (key, v) :: rest =>
    rw [InMembers] at h
    rcases h with ⟨j, more, rfl, hv, hrest⟩
    have hcons : Value.decodeMembers ((key, j) :: more) =
        ((Value.decodeTagged j).mapError fun e => e.located key) >>= fun v =>
          (Value.decodeMembers more).map ((key, v) :: ·) := by
      rw [Value.decodeMembers]
      cases Value.decodeTagged j <;> rfl
    rw [hcons, leavesOf]
    exact ((reports_decodeTagged hv).under key).bind fun _ _ => (reports_decodeMembers hrest).map _

end

/-- A map is read from a text in its notation up to the first text inside that cannot be read. -/
theorem reports_decode {text : String} {members : List (String × Json)}
    {entries : List (String × Unread)} (hjson : Value.readJson text .map = .ok (.object members))
    (h : InMembers entries members) : Reports (leavesOf entries) (Value.decode text .map) := by
  have hdecode : Value.decode text .map = (Value.decodeMembers members).map .map := by
    rw [Value.decode, hjson]
    rfl
  rw [hdecode]
  exact (reports_decodeMembers h).map _

end Unread
end SignalTree
