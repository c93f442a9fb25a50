import SignalTree.Message
import SignalTree.Wire
import SignalTree.Xml.Reader

/-!
# Reader — from a document to a frame

* `Wire.readFrame` and `Wire.readDocument`: the frame, or the signal, of a document;
* `Wire.skippedIn`: the messages about elements that the reader does not know and passes over.

A `valuemap` inside a frame is a frame, unless it says something only a value can have: a name to
show or a list of allowed values.  Then it is a map.  The text of a value is read without the
blanks around it, and a failure is located by the keys on the way to it.
-/

namespace SignalTree
namespace Wire

open Xml (Node)

/-- The text an element starts with, without the blanks around it. -/
def textOf (n : Node) : String := Text.trimmed n.leadingText

/-- An attribute that has to be there. -/
def required (n : Node) (name : String) : Except Error String :=
  match n.attribute? name with
  | some v => .ok v
  | none => .error (.format n.name "" ("missing '" ++ name ++ "' attribute"))

def readTier (n : Node) : Except Error (Option Tier) :=
  match n.attribute? tierName with
  | none => .ok none
  | some text =>
    match Tier.ofName? text with
    | some t => .ok (some t)
    | none => .error (.format "mode" text "expected basic or advanced")

/-- The items with these texts, from `i` on. -/
def readItems (decode : String → Except Error Value) (i : Nat) :
    List String → Except Error (List Value)
  | [] => .ok []
  | text :: rest =>
    match decode text with
    | .error e => .error (e.located (Error.index i))
    | .ok v => (readItems decode (i + 1) rest).map (v :: ·)

/-- Whether a size says the number of items. -/
def checkSize (name : String) (items : List Value) : Option String → Except Error Unit
  | none => .ok ()
  | some size =>
    match Numeral.readUnsigned (Text.trim size.toList) with
    | .error _ => .error (.format "array size" size "not an unsigned integer")
    | .ok n =>
      if n.toNat = items.length then .ok ()
      else .error (.format name size
        ("size attribute says " ++ Message.count n.toNat ++ " elements, found " ++
          Message.count items.length))

/-- The items inside an element; `name` is the name of their kind. -/
def itemsOf (n : Node) (name : String) (decode : String → Except Error Value) :
    Except Error (List Value) := do
  let texts := (n.children.filter (Node.isNamed itemTag)).map textOf
  let items ← readItems decode 0 texts
  checkSize name items (n.attribute? sizeName)
  return items

/-- The allowed values inside an element. -/
def readRestricted (n : Node) : Except Error (List Value) :=
  match n.child? restrictedTag with
  | none => .ok []
  | some r => do
    let name ← required r typeName
    match Kind.ofName? name with
    | none => .error (.format "restricted type" name "unknown kind")
    | some kind =>
      -- an item may be a list or a map here, in the notation for texts
      match itemsOf r name fun text => Value.decode text kind with
      | .ok values => .ok values
      | .error e => .error (e.located restrictedTag)

/-- What an element says about its value. -/
def readMeta (n : Node) : Except Error Meta := do
  let restricted ← readRestricted n
  let tier ← readTier n
  return {
    description := (n.attribute? descriptionName).getD ""
    pretty := (n.attribute? prettyName).getD ""
    tier, restricted }

def readScalar (n : Node) : Except Error Entry := do
  -- the first element that is not the list of allowed values says kind and value
  match n.children.find? fun c => c.isElement && !c.isNamed restrictedTag with
  | none => throw (.format "value" "" "a <value> needs one kind element")
  | some holder =>
    match ScalarKind.ofName? holder.name with
    | none => throw (.format "value kind" holder.name "unknown kind element")
    | some kind =>
      let s ← Scalar.decode (textOf holder) kind
      let info ← readMeta n
      return .value (.scalar s) info

def readArray (n : Node) : Except Error Entry := do
  let name ← required n typeName
  match ScalarKind.ofName? name with
  | none => throw (.format "array type" name "unknown element kind")
  | some kind =>
    let items ← itemsOf n kind.name fun text => (Scalar.decode text kind).map .scalar
    let l ← ScalarList.ofValues kind items
    let info ← readMeta n
    return .value (.list l) info

/-- The entry of a `valuemap` element inside a frame, when its own entries are known. -/
def nestedEntry (n : Node) (f : Frame) : Except Error Entry :=
  -- only a value has a name to show or allowed values
  if (n.attribute? prettyName).isNone && (n.child? restrictedTag).isNone then .ok (.frame f)
  else (readMeta n).map (.value (.map f.toMap))

/-- The frame of an element, when its entries are known. -/
def frameOf (n : Node) (tier : Option Tier) (entries : List (String × Entry)) : Frame :=
  ⟨(n.attribute? descriptionName).getD "", tier, Keyed.ofList entries⟩

mutual

/-- The entry of an element inside a frame; none if the element is passed over. -/
def readEntry : Node → Except Error (Option (String × Entry))
  | .element name attributes children =>
    let n : Node := .element name attributes children
    if name = valueTag || name = arrayTag || name = mapTag then do
      let key ← required n keyName
      let entry : Except Error Entry :=
        if name = valueTag then readScalar n
        else if name = arrayTag then readArray n
        else do
          let tier ← readTier n
          let entries ← readEntries children
          nestedEntry n (frameOf n tier entries)
      -- the key is known by now, so the failure can be located
      match entry with
      | .ok e => .ok (some (key, e))
      | .error e => .error (e.located key)
    else .ok none
  | _ => .ok none

def readEntries : List Node → Except Error (List (String × Entry))
  | [] => .ok []
  | n :: rest => do
    let entry ← readEntry n
    let entries ← readEntries rest
    return entry.toList ++ entries

end

def readMap (n : Node) : Except Error Frame := do
  let tier ← readTier n
  let entries ← readEntries n.children
  return frameOf n tier entries

/-! ## Elements passed over -/

mutual

/-- The messages about one element inside an element. -/
def skippedAt (parent : String) : Node → List Message
  | .element name attributes children =>
    let n : Node := .element name attributes children
    if name = mapTag then
      -- an element that cannot be read stops the reader before it looks inside
      if (n.attribute? keyName).isSome && (readTier n).toOption.isSome then
        skippedAll name children
      else []
    else if name = valueTag || name = arrayTag || name = restrictedTag then []
    else [.elementSkipped name parent]
  | _ => []

/-- The messages about some elements, up to the first that cannot be read. -/
def skippedAll (parent : String) : List Node → List Message
  | [] => []
  | n :: rest =>
    skippedAt parent n ++
      (match readEntry n with
        | .ok _ => skippedAll parent rest
        | .error _ => [])

end

/-- The messages about the elements passed over in a `valuemap` element. -/
def skippedIn (n : Node) : List Message :=
  match readTier n with
  | .ok _ => skippedAll n.name n.children
  | .error _ => []

/-! ## Documents -/

/-- The reason given for a text that is no document. -/
def notXml : String := "not a well-formed document"

def snippet (text : String) : String := String.ofList ((Text.trim text.toList).take 40)

/-- The root element of a text. -/
def readRoot (text : String) : Except Error Node :=
  match Xml.read text.toList with
  | some n => .ok n
  | none => .error (.format "xml document" (snippet text) notXml)

/-- The `signal` element of a document. -/
def signalOf (root : Node) : Except Error Node :=
  -- the outer element may be left out
  if root.isNamed signalTag then .ok root
  else
    let inner := if root.isNamed documentTag then root.child? signalTag else none
    match inner with
    | some n => .ok n
    | none =>
      .error (.format "signal document" root.name "expected a <signal> element at the top level")

/-- The element with the frame of a document, if it has one. -/
def mapOf (root : Node) : Except Error (Option Node) :=
  if root.isNamed mapTag then .ok (some root)
  else (signalOf root).map fun n => n.child? mapTag

/-- The frame of an element that may be missing. -/
def readMap? : Option Node → Except Error Frame
  | some n => readMap n
  | none => .ok Frame.empty

def readFrame (text : String) : Except Error Frame := do
  let root ← readRoot text
  let map ← mapOf root
  readMap? map

def readDocument (text : String) : Except Error Document := do
  let root ← readRoot text
  let n ← signalOf root
  let frame ← readMap? (n.child? mapTag)
  return ⟨(n.attribute? targetName).getD "", (n.attribute? receiverName).getD "", frame⟩

/-- The messages about what is passed over in the frame of a document. -/
def frameMessages (text : String) : List Message :=
  match readRoot text >>= mapOf with
  | .ok (some n) => skippedIn n
  | _ => []

/-- The messages about what is passed over in the frame of a signal document. -/
def documentMessages (text : String) : List Message :=
  match readRoot text >>= signalOf with
  | .ok n => ((n.child? mapTag).map skippedIn).getD []
  | .error _ => []

end Wire
end SignalTree
