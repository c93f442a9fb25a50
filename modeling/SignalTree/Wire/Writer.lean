import SignalTree.Value.Text
import SignalTree.Wire
import SignalTree.Xml.Markup

/-!
# Writer — from a frame to a document

Each entry of a frame becomes one element (`Wire.entryMarkup`).  What is empty is left out: a
description, a tier, a list of allowed values, and a name to show that is the key itself.
-/

namespace SignalTree
namespace Wire

open Xml (Markup)

def sizeAttribute (n : Nat) : String × String := (sizeName, String.ofList (Numeral.digits n))

def frameAttributes (description : String) (tier : Option Tier) : List (String × String) :=
  (if description = "" then [] else [(descriptionName, description)]) ++
    (tier.map fun t => (tierName, t.name)).toList

/-- The attributes for what a form needs to know. -/
def metaAttributes (key : String) (info : Meta) : List (String × String) :=
  (if info.description = "" then [] else [(descriptionName, info.description)]) ++
    (if info.pretty = "" || info.pretty = key then [] else [(prettyName, info.pretty)]) ++
    (info.tier.map fun t => (tierName, t.name)).toList

/-- The element for the allowed values of a kind, if there are any. -/
def restrictedMarkup (kind : Kind) (values : List Value) : List Markup :=
  if values.isEmpty then []
  else [.block restrictedTag [(typeName, kind.name), sizeAttribute values.length]
    (values.map fun v => .leaf itemTag [] v.encode)]

/-- A map element; one without content is written as a single tag. -/
def mapMarkup (attributes : List (String × String)) (children : List Markup) : Markup :=
  if children.isEmpty then .mark mapTag attributes else .block mapTag attributes children

mutual

/-- The element of a value under a key, with more attributes and more children. -/
def valueMarkup (key : String) (attributes : List (String × String)) (children : List Markup) :
    Value → Markup
  | .scalar s =>
    .block valueTag ((keyName, key) :: attributes)
      (.leaf s.kind.name [] s.encode :: children)
  | .list l =>
    .block arrayTag
      ((keyName, key) :: (typeName, l.kind.name) :: sizeAttribute l.items.length :: attributes)
      ((l.items.map fun s => .leaf itemTag [] s.encode) ++ children)
  | .map entries => mapMarkup ((keyName, key) :: attributes) (mapEntries entries ++ children)

def mapEntries : List (String × Value) → List Markup
  | [] => []
  | (k, v) :: rest => valueMarkup k [] [] v :: mapEntries rest

end

mutual

def entryMarkup (key : String) : Entry → Markup
  | .value v info =>
    valueMarkup key (metaAttributes key info) (restrictedMarkup v.kind info.restricted) v
  | .frame ⟨description, tier, entries⟩ =>
    mapMarkup ((keyName, key) :: frameAttributes description tier) (entryMarkups entries)

def entryMarkups : List (String × Entry) → List Markup
  | [] => []
  | (k, e) :: rest => entryMarkup k e :: entryMarkups rest

end

def frameMarkup (f : Frame) : Markup :=
  mapMarkup (frameAttributes f.description f.tier) (entryMarkups f.entries)

/-- A frame as a document of its own. -/
def writeFrame (f : Frame) : List Char := (frameMarkup f).write 0

def documentMarkup (d : Document) : Markup :=
  .block documentTag [("version", "1.0")]
    [.block signalTag [(targetName, d.target), (receiverName, d.receiver)] [frameMarkup d.frame]]

def writeDocument (d : Document) : List Char :=
  "<?xml version=\"1.0\" encoding=\"UTF-8\"?>\n".toList ++ (documentMarkup d).write 0

end Wire
end SignalTree
