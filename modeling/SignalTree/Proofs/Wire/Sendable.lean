import SignalTree.Proofs.Value.Text
import SignalTree.Proofs.Xml.Layout
import SignalTree.Wire.Writer

/-!
# Sendable — what survives the wire

The document of a signal is text, and a reader of documents changes some texts: it drops blanks
around the content of an element and turns carriage returns and, in attributes, tabs and line feeds
into other blanks.  A signal is sendable if it has no such text in such a place.

* `Wire.IsContent`: a text that can stand in an element;
* `Scalar.Sendable`, `Value.Sendable`, `Value.Choice`: values, and values to choose from;
* `Meta.Sendable`, `Entry.Sendable`, `Wire.Document.Sendable`: what the values stand in.
-/

namespace SignalTree

/-- A text that can stand in an element: it has no carriage return and no blanks at its ends. -/
structure Wire.IsContent (s : String) : Prop where
  line : Xml.IsLine s
  trimmed : Text.trim s.toList = s.toList

instance (s : String) : Decidable (Wire.IsContent s) :=
  decidable_of_iff (Xml.IsLine s ∧ Text.trim s.toList = s.toList)
    ⟨fun h => ⟨h.1, h.2⟩, fun h => ⟨h.line, h.trimmed⟩⟩

open Wire (IsContent)

/-! ## Scalars -/

namespace Scalar

/-- Neither `nan`, nor a text that is changed on its way, nor a reference that reading would not
give. -/
def Sendable : Scalar → Prop
  | .real x => x ≠ .nan
  | .string s => IsContent s
  | .path u => u.IsParsed ∧ Xml.IsLegal u.text
  | _ => True

theorem Sendable.regular {s : Scalar} (h : s.Sendable) : s.Regular := by
  cases s with
  | real x => exact h
  | path u => exact h.1
  | _ => trivial

theorem Sendable.isContent {s : Scalar} (h : s.Sendable) : IsContent s.encode := by
  by_cases hstring : s.kind = .string
  · cases s with
    | string t => exact h
    | _ => cases hstring
  · refine ⟨?_, trim_encode hstring h.regular⟩
    by_cases hpath : s.kind = .path
    · cases s with
      | path u =>
        intro c hc
        refine ⟨h.2 c hc, ?_⟩
        rintro rfl
        exact absurd (h.1.not_blank_of_mem_text hc) (by decide)
      | _ => cases hpath
    · intro c hc
      have hplain := Xml.attribute_of_graphic (graphic_of_mem_encode hstring hpath hc)
      exact ⟨hplain.1, hplain.2.2.2⟩

end Scalar

/-! ## Values -/

namespace Value

mutual

/-- A value that is written as elements: its keys become attributes, and its lists are counted by
a machine word. -/
def Sendable : Value → Prop
  | .scalar s => s.Sendable
  | .list l => l.items.length < UInt64.size ∧ ∀ s ∈ l.items, s.Sendable
  | .map entries => Keyed.Distinct entries ∧ SendableEntries entries

/-- `Sendable` for the entries of a map. -/
def SendableEntries : List (String × Value) → Prop
  | [] => True
  | (k, v) :: rest => Xml.IsAttribute k ∧ v.Sendable ∧ SendableEntries rest

end

/-- A value that is written as one text: a scalar, or a list or a map with the notation for it. -/
def Choice : Value → Prop
  | .scalar s => s.Sendable
  | v => v.Distinct ∧ v.Every Scalar.Regular ∧ v.payload.depth ≤ Json.maxDepth ∧
      Xml.IsLegal v.encode

/-- A value is read back from the text that it is written as, settled. -/
theorem Choice.decode_settled {v : Value} (h : v.Choice) :
    decode v.encode v.kind = .ok v.settled := by
  cases v with
  | scalar s =>
    have hs : Every Scalar.Regular (.scalar s) := by
      rw [Every]
      exact Scalar.Sendable.regular h
    exact decode_encode (by simp [Distinct]) hs (by simp [payload, Json.depth])
  | list l => exact decode_encode h.1 h.2.1 h.2.2.1
  | map entries => exact decode_encode h.1 h.2.1 h.2.2.1

/-- The notation for lists and maps has brackets at its ends and no control characters. -/
theorem plain_render {v : Value} {first last : Char} {inner : List Char}
    (hwrite : v.payload.write = first :: (inner ++ [last])) (hfirst : Text.isBlank first = false)
    (hlast : Text.isBlank last = false) :
    '\r' ∉ v.payload.render.toList ∧
      Text.trim v.payload.render.toList = v.payload.render.toList := by
  rw [Json.render, String.toList_ofList]
  refine ⟨?_, Text.trim_of_ends ?_ ?_⟩
  · intro hc
    have hvisible := (Json.spelled_of_mem_write (plain_payload v) hc).1
    exact absurd hvisible (by decide)
  · intro c hc
    rw [hwrite] at hc
    cases hc
    exact hfirst
  · intro c hc
    rw [hwrite, ← List.cons_append, List.getLast?_append] at hc
    cases hc
    exact hlast

theorem plain_encode {v : Value} (hv : ∀ s, v ≠ .scalar s) :
    '\r' ∉ v.encode.toList ∧ Text.trim v.encode.toList = v.encode.toList := by
  cases v with
  | scalar s => exact absurd rfl (hv s)
  | list l =>
    have hwrite : (list l).payload.write
        = '[' :: (Json.writeItems (l.items.map fun s => Json.text s.encode) ++ [']']) := by
      rw [payload, itemTexts, Json.write]
    exact plain_render hwrite (by decide) (by decide)
  | map entries =>
    have hwrite : (map entries).payload.write
        = '\x7b' :: (Json.writeMembers (payloads entries) ++ ['\x7d']) := by
      rw [payload, Json.write]
    exact plain_render hwrite (by decide) (by decide)

theorem isContent_encode {v : Value} (hv : ∀ s, v ≠ .scalar s) (hlegal : Xml.IsLegal v.encode) :
    IsContent v.encode :=
  ⟨fun c hc => ⟨hlegal c hc, fun hreturn => (plain_encode hv).1 (hreturn ▸ hc)⟩,
    (plain_encode hv).2⟩

theorem Choice.isContent {v : Value} (h : v.Choice) : IsContent v.encode := by
  cases v with
  | scalar s => exact Scalar.Sendable.isContent h
  | list l => exact isContent_encode (by simp) h.2.2.2
  | map entries => exact isContent_encode (by simp) h.2.2.2

/-! ### Values to choose from

A value that can be sent as elements can be sent as one text, if the reader of the notation does
not give up on its depth. -/

theorem legal_kind_name (kind : Kind) : Xml.IsLegal kind.name := by
  cases kind with
  | scalar k => cases k <;> decide
  | list k => cases k <;> decide
  | map => decide

mutual

theorem Sendable.distinct {v : Value} (h : v.Sendable) : v.Distinct := by
  match v with
  | .scalar s => simp [Distinct]
  | .list l => simp [Distinct]
  | .map entries =>
    rw [Sendable] at h
    rw [Distinct]
    exact ⟨h.1, SendableEntries.distinct h.2⟩

theorem SendableEntries.distinct {entries : List (String × Value)} (h : SendableEntries entries) :
    DistinctEntries entries := by
  match entries with
  | [] => simp [DistinctEntries]
  | (k, v) :: rest =>
    rw [SendableEntries] at h
    rw [DistinctEntries]
    exact ⟨Sendable.distinct h.2.1, SendableEntries.distinct h.2.2⟩

end

mutual

theorem Sendable.regular {v : Value} (h : v.Sendable) : v.Every Scalar.Regular := by
  match v with
  | .scalar s =>
    rw [Sendable] at h
    rw [Every]
    exact h.regular
  | .list l =>
    rw [Sendable] at h
    rw [Every]
    exact fun s hs => (h.2 s hs).regular
  | .map entries =>
    rw [Sendable] at h
    rw [Every]
    exact SendableEntries.regular h.2

theorem SendableEntries.regular {entries : List (String × Value)} (h : SendableEntries entries) :
    EveryEntry Scalar.Regular entries := by
  match entries with
  | [] => simp [EveryEntry]
  | (k, v) :: rest =>
    rw [SendableEntries] at h
    rw [EveryEntry]
    exact ⟨Sendable.regular h.2.1, SendableEntries.regular h.2.2⟩

end

theorem legal_letters_texts {items : List Scalar} (h : ∀ s ∈ items, s.Sendable) :
    ∀ c ∈ Json.lettersOfItems (items.map fun s => Json.text s.encode), Xml.isChar c = true := by
  induction items with
  | nil => simp [Json.lettersOfItems]
  | cons s rest ih =>
    rw [List.forall_mem_cons] at h
    simp only [List.map_cons, Json.lettersOfItems, Json.letters, List.forall_mem_append]
    exact ⟨h.1.isContent.line.isLegal, ih h.2⟩

mutual

/-- The texts in the notation for a sendable value, kinds and keys among them, are legal. -/
theorem Sendable.legal_letters {v : Value} (h : v.Sendable) :
    ∀ c ∈ v.payload.letters, Xml.isChar c = true := by
  match v with
  | .scalar s =>
    rw [Sendable] at h
    rw [payload, Json.letters]
    exact h.isContent.line.isLegal
  | .list l =>
    rw [Sendable] at h
    rw [payload, itemTexts, Json.letters]
    exact legal_letters_texts h.2
  | .map entries =>
    rw [Sendable] at h
    rw [payload, Json.letters]
    exact SendableEntries.legal_letters h.2

theorem SendableEntries.legal_letters {entries : List (String × Value)}
    (h : SendableEntries entries) :
    ∀ c ∈ Json.lettersOfMembers (payloads entries), Xml.isChar c = true := by
  match entries with
  | [] => simp [payloads, Json.lettersOfMembers]
  | (k, v) :: rest =>
    rw [SendableEntries] at h
    simp only [payloads, Json.lettersOfMembers, Json.letters, List.append_nil,
      List.forall_mem_append]
    exact ⟨⟨fun c hc => (h.1 c hc).1, legal_kind_name v.kind, Sendable.legal_letters h.2.1⟩,
      SendableEntries.legal_letters h.2.2⟩

end

/-- A sendable value that is not too deep can be chosen. -/
theorem Sendable.choice {v : Value} (h : v.Sendable) (hdepth : v.payload.depth ≤ Json.maxDepth) :
    v.Choice := by
  have hrender : Xml.IsLegal v.payload.render := by
    intro c hc
    rw [Json.render, String.toList_ofList] at hc
    rcases Json.spelled_of_mem_write (plain_payload v) hc with ⟨hlow, hhigh | hletter⟩
    · by_cases hblank : c.toNat = 0x20
      · obtain rfl : c = ' ' := Char.toNat_inj.1 hblank
        decide
      · exact (Xml.attribute_of_graphic ⟨by omega, by omega⟩).1
    · exact h.legal_letters c hletter
  cases v with
  | scalar s =>
    rw [Sendable] at h
    exact h
  | list l => exact ⟨h.distinct, h.regular, hdepth, hrender⟩
  | map entries => exact ⟨h.distinct, h.regular, hdepth, hrender⟩

end Value

/-! ## Frames -/

/-- What is known about a value of a kind can be sent. -/
structure Meta.Sendable (kind : Kind) (info : Meta) : Prop where
  description : Xml.IsAttribute info.description
  pretty : Xml.IsAttribute info.pretty
  restricted_count : info.restricted.length < UInt64.size
  restricted_kind : ∀ v ∈ info.restricted, v.kind = kind
  restricted_choice : ∀ v ∈ info.restricted, v.Choice

mutual

/-- A value with what is known about it, or a frame. -/
def Entry.Sendable : Entry → Prop
  | .value v info => v.Sendable ∧ info.Sendable v.kind
  | .frame f => f.Sendable

/-- A frame with distinct keys. -/
def Frame.Sendable : Frame → Prop
  | ⟨description, _, entries⟩ =>
    Xml.IsAttribute description ∧ Keyed.Distinct entries ∧ Entry.AllSendable entries

/-- `Sendable` for the entries of a frame. -/
def Entry.AllSendable : List (String × Entry) → Prop
  | [] => True
  | (k, e) :: rest => Xml.IsAttribute k ∧ e.Sendable ∧ Entry.AllSendable rest

end

/-- The signal can be sent. -/
structure Wire.Document.Sendable (d : Wire.Document) : Prop where
  target : Xml.IsAttribute d.target
  receiver : Xml.IsAttribute d.receiver
  frame : d.frame.Sendable

end SignalTree
