import SignalTree.Proofs.Wire.Shape
import SignalTree.Proofs.Xml.Skeleton

/-!
# Skeleton — no text of a frame alters the markup

Which elements and attributes a frame is written with depends on its shape alone: on the kinds of
its values and the lengths of its lists, on how they are nested, and on which descriptions and names
to show there are.  What these texts are makes no difference, and the same goes for keys and values.

* `Frame.shape`: a frame up to its texts;
* `Shape.markup`: the markup of a shape, without texts;
* `Wire.erased_frame`: a frame without its texts is written like its shape;
* `Wire.skeleton_writeFrame`: two frames of one shape are written with the same tags.
-/

namespace SignalTree

/-! ## Shapes -/

/-- What is known about a value, up to the texts. -/
structure MetaShape where
  described : Bool
  /-- Whether a name is shown that is not the key. -/
  named : Bool
  tier : Option Tier
  /-- The number of allowed values. -/
  choices : Nat

/-- A value up to its texts: its kind, or the shapes of its entries without their keys. -/
inductive Shape where
  | scalar (kind : ScalarKind)
  | list (kind : ScalarKind) (length : Nat)
  | map (entries : List (MetaShape × Shape))

def Meta.shape (key : String) (info : Meta) : MetaShape where
  described := !(info.description == "")
  named := !(info.pretty == "" || info.pretty == key)
  tier := info.tier
  choices := info.restricted.length

mutual

def Value.shape : Value → Shape
  | .scalar s => .scalar s.kind
  | .list l => .list l.kind l.items.length
  | .map entries => .map (Value.shapes entries)

/-- Nothing is known about the values in a map. -/
def Value.shapes : List (String × Value) → List (MetaShape × Shape)
  | [] => []
  | (k, v) :: rest => (Meta.none.shape k, v.shape) :: Value.shapes rest

end

mutual

def Entry.shape (key : String) : Entry → MetaShape × Shape
  | .value v info => (info.shape key, v.shape)
  | .frame ⟨description, tier, entries⟩ =>
    (Meta.shape key ⟨description, "", tier, []⟩, .map (Entry.shapes entries))

def Entry.shapes : List (String × Entry) → List (MetaShape × Shape)
  | [] => []
  | (k, e) :: rest => e.shape k :: Entry.shapes rest

end

/-- A frame up to its texts: what is known about it, and the shapes of its entries. -/
def Frame.shape (f : Frame) : MetaShape × List (MetaShape × Shape) :=
  (Meta.shape "" ⟨f.description, "", f.tier, []⟩, Entry.shapes f.entries)

/-! ## Markup -/

namespace MetaShape

open Wire Xml

/-- The attributes that say what is known. -/
def attributes (i : MetaShape) : List (String × String) :=
  (if !i.described then [] else [(descriptionName, "")]) ++
    (if !i.named then [] else [(prettyName, "")]) ++
    (if i.tier.isSome then [(tierName, "")] else [])

/-- The element for the allowed values. -/
def restricted (i : MetaShape) : List Markup :=
  if i.choices = 0 then []
  else [.block restrictedTag [(typeName, ""), (sizeName, "")]
    (List.replicate i.choices (.leaf itemTag [] ""))]

end MetaShape

namespace Shape

open Wire Xml

mutual

/-- The element of a value, without its texts. -/
def markup (i : MetaShape) : Shape → Markup
  | .scalar kind =>
    .block valueTag ((keyName, "") :: i.attributes) (.leaf kind.name [] "" :: i.restricted)
  | .list _ length =>
    .block arrayTag ((keyName, "") :: (typeName, "") :: (sizeName, "") :: i.attributes)
      (List.replicate length (.leaf itemTag [] "") ++ i.restricted)
  | .map entries => mapMarkup ((keyName, "") :: i.attributes) (markups entries ++ i.restricted)

def markups : List (MetaShape × Shape) → List Markup
  | [] => []
  | (i, s) :: rest => s.markup i :: markups rest

end

/-- The element of a frame, which has no key. -/
def frameMarkup (s : MetaShape × List (MetaShape × Shape)) : Markup :=
  mapMarkup s.1.attributes (markups s.2)

end Shape

namespace Wire

open Xml (Markup)
open Xml.Markup (bare erasedAll erasedAll_eq_map)

theorem bare_append (first second : List (String × String)) :
    bare (first ++ second) = bare first ++ bare second := by
  simp [bare]

/-- An attribute that is left out under some condition. -/
theorem bare_ite (p : Prop) [Decidable p] (name text : String) :
    bare (if p then [] else [(name, text)]) = if p then [] else [(name, "")] := by
  split <;> rfl

theorem bare_meta (key : String) (info : Meta) :
    bare (metaAttributes key info) = (info.shape key).attributes := by
  have htier : bare (info.tier.map fun t => (tierName, t.name)).toList
      = if info.tier.isSome then [(tierName, "")] else [] := by
    cases info.tier <;> rfl
  rw [metaAttributes, bare_append, bare_append, bare_ite, bare_ite, htier]
  simp [MetaShape.attributes, Meta.shape]

theorem erasedAll_append (ms ns : List Markup) :
    erasedAll (ms ++ ns) = erasedAll ms ++ erasedAll ns := by
  simp [erasedAll_eq_map]

theorem erasedAll_leaves {α : Type} (name : String) (text : α → String) (items : List α) :
    erasedAll (items.map fun a => .leaf name [] (text a))
      = List.replicate items.length (.leaf name [] "") := by
  rw [erasedAll_eq_map, List.map_map, List.eq_replicate_iff]
  refine ⟨by simp, fun m hm => ?_⟩
  rcases List.mem_map.1 hm with ⟨a, -, rfl⟩
  rfl

theorem erased_map (attributes : List (String × String)) (children : List Markup) :
    (mapMarkup attributes children).erased = mapMarkup (bare attributes) (erasedAll children) := by
  cases children with
  | nil => rfl
  | cons m rest => rfl

theorem erasedAll_restricted (key : String) (kind : Kind) (info : Meta) :
    erasedAll (restrictedMarkup kind info.restricted) = (info.shape key).restricted := by
  by_cases h : info.restricted = []
  · simp [restrictedMarkup, MetaShape.restricted, Meta.shape, h, erasedAll]
  · have hcount : info.restricted.length ≠ 0 := by simpa using h
    simp only [restrictedMarkup, MetaShape.restricted, Meta.shape, List.isEmpty_iff, h, hcount,
      if_false, erasedAll, Markup.erased, erasedAll_leaves]
    rfl

mutual

theorem erased_value (key : String) (v : Value) (info : Meta) :
    (entryMarkup key (.value v info)).erased = v.shape.markup (info.shape key) := by
  have hrestricted := erasedAll_restricted key v.kind info
  have hmeta := bare_meta key info
  match v with
  | .scalar s =>
    rw [entryMarkup, valueMarkup, Markup.erased, erasedAll, Markup.erased, hrestricted]
    simp only [bare, List.map_cons, List.map_nil] at hmeta ⊢
    rw [hmeta]
    rfl
  | .list l =>
    rw [entryMarkup, valueMarkup, Markup.erased, erasedAll_append, erasedAll_leaves, hrestricted]
    simp only [bare, List.map_cons, sizeAttribute] at hmeta ⊢
    rw [hmeta]
    rfl
  | .map entries =>
    rw [entryMarkup, valueMarkup, erased_map, erasedAll_append, hrestricted,
      erasedAll_mapEntries entries]
    simp only [bare, List.map_cons] at hmeta ⊢
    rw [hmeta]
    rfl

theorem erasedAll_mapEntries (entries : List (String × Value)) :
    erasedAll (mapEntries entries) = Shape.markups (Value.shapes entries) := by
  match entries with
  | [] => rfl
  | (k, v) :: rest =>
    rw [mapEntries_cons, erasedAll, erased_value k v Meta.none, erasedAll_mapEntries rest,
      Value.shapes, Shape.markups]

end

mutual

theorem erased_entry (key : String) (e : Entry) :
    (entryMarkup key e).erased = (e.shape key).2.markup (e.shape key).1 := by
  match e with
  | .value v info => exact erased_value key v info
  | .frame ⟨description, tier, entries⟩ =>
    have hmeta := bare_meta key ⟨description, "", tier, []⟩
    rw [entryMarkup, frameAttributes_eq key, erased_map, erasedAll_entries entries]
    simp only [bare, List.map_cons] at hmeta ⊢
    rw [hmeta, Entry.shape, Shape.markup]
    simp [MetaShape.restricted, Meta.shape]

theorem erasedAll_entries (entries : List (String × Entry)) :
    erasedAll (entryMarkups entries) = Shape.markups (Entry.shapes entries) := by
  match entries with
  | [] => rfl
  | (k, e) :: rest =>
    rw [entryMarkups, erasedAll, erased_entry k e, erasedAll_entries rest, Entry.shapes]
    rfl

end

/-- Without its texts, a frame is written like its shape. -/
theorem erased_frame (f : Frame) : (frameMarkup f).erased = Shape.frameMarkup f.shape := by
  rw [frameMarkup, frameAttributes_eq "", erased_map, bare_meta, erasedAll_entries]
  rfl

/-! ## Texts -/

theorem tags_frame_of_shape {f g : Frame} (h : f.shape = g.shape) :
    (frameMarkup f).tags = (frameMarkup g).tags := by
  rw [← Markup.tags_erased (frameMarkup f), ← Markup.tags_erased (frameMarkup g), erased_frame,
    erased_frame, h]

theorem skeleton_writeFrame (f : Frame) : Xml.skeleton (writeFrame f) = (frameMarkup f).tags := by
  have h := Markup.skeleton_write (shaped_frame f) 0 []
  simpa [writeFrame, Xml.skeleton, Xml.skeletonFrom] using h

/-- Two frames of one shape are written with the same elements and attributes, in the same order
and nested in the same way, and with the same marks; and each `&` in them starts a reference.  So no
text of a frame adds, closes or alters an element or an attribute. -/
theorem writeFrame_of_shape {f g : Frame} (h : f.shape = g.shape) :
    Xml.skeleton (writeFrame f) = Xml.skeleton (writeFrame g) ∧
      (writeFrame f).filter Xml.isMark = (writeFrame g).filter Xml.isMark ∧
      Xml.Referenced (writeFrame f) ∧ Xml.Referenced (writeFrame g) := by
  have htags := tags_frame_of_shape h
  refine ⟨?_, ?_, ?_, ?_⟩
  · rw [skeleton_writeFrame, skeleton_writeFrame, htags]
  · rw [writeFrame, writeFrame, Markup.filter_write, Markup.filter_write, htags]
  · exact Markup.referenced_write (shaped_frame f) 0
  · exact Markup.referenced_write (shaped_frame g) 0

/-- A frame with one text in many places. -/
def echoFrame (text : String) : Frame :=
  ⟨text, none, [
    (text, .value (.ofString text) ⟨text, text ++ "!", none, [.ofString text, .ofString "x"]⟩),
    (text ++ "s", .value (.map [(text, .ofString text)]) Meta.none),
    ("f", .frame ⟨text, none, [(text, .value (.ofString text) Meta.none)]⟩)]⟩

theorem writeFrame_echo :
    (echoFrame "a").shape = (echoFrame "\"/><e>&lt;]]>'").shape ∧
      Xml.skeleton (writeFrame (echoFrame "a"))
        = Xml.skeleton (writeFrame (echoFrame "\"/><e>&lt;]]>'")) := by
  have hshape : (echoFrame "a").shape = (echoFrame "\"/><e>&lt;]]>'").shape := rfl
  exact ⟨hshape, (writeFrame_of_shape hshape).1⟩

end Wire
end SignalTree
