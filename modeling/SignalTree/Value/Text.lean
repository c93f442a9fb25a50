import SignalTree.Json.Reader
import SignalTree.Value

/-!
# Text — values as text

A scalar has its natural text: digits, words, a date, base64 for binary data.  A list is an array
of the texts of its items, and a map is an object in which each value stands under the name of its
kind, so that a text and a kind determine the value.

* `Value.encode`: the text of a value;
* `Value.decode`: the value of a text and a kind.

A scalar is read without the blanks around it; only a string is taken as it is.
-/

namespace SignalTree

namespace Scalar

def encode : Scalar → String
  | bool b => if b then "true" else "false"
  | integer i => String.ofList (Numeral.signedDigits i.toInt)
  | unsigned n => String.ofList (Numeral.digits n.toNat)
  | real x => String.ofList (x.write .plain)
  | string s => s
  | path u => u.text
  | date m => String.ofList (Calendar.writeMoment m)
  | data bytes => String.ofList (Base64.encode bytes)

def readBool (s : String) : Option Bool :=
  match Text.lowered s with
  | "true" => some true
  | "1" => some true
  | "false" => some false
  | "0" => some false
  | _ => none

/-- The scalar of a text. -/
def decode (text : String) (kind : ScalarKind) : Except Error Scalar :=
  let body := Text.trim text.toList
  let fail (reason : String) : Except Error Scalar := .error (.format kind.name text reason)
  match kind with
  | .bool =>
    match readBool (String.ofList body) with
    | some b => .ok (.bool b)
    | none => fail "expected true, false, 1 or 0"
  | .integer =>
    match Numeral.readSigned body with
    | .ok i => .ok (.integer i)
    | .error fault => fail fault.message
  | .unsigned =>
    match Numeral.readUnsigned body with
    | .ok n => .ok (.unsigned n)
    | .error fault => fail fault.message
  | .real =>
    match Real64.read body with
    | .ok x => .ok (.real x)
    | .error fault => fail fault.message
  | .string => .ok (.string text)
  | .path => (Uri.parse (String.ofList body)).map .path
  | .date =>
    match Calendar.readMoment body with
    | .ok m => .ok (.date m)
    | .error fault =>
      fail ("expected YYYY-MM-DD or YYYY-MM-DDTHH:MM:SS (" ++ fault.message ++ ")")
  | .data =>
    match Base64.decode (String.ofList body) with
    | .ok bytes => .ok (.data bytes)
    | .error fault => fail fault.message

end Scalar

namespace Value

/-! ## Writing -/

/-- The texts of the items of a list. -/
def itemTexts (l : ScalarList) : Json := .array (l.items.map fun s => .text s.encode)

mutual

/-- A value without the name of its kind. -/
def payload : Value → Json
  | .scalar s => .text s.encode
  | .list l => itemTexts l
  | .map entries => .object (payloads entries)

/-- The entries of a map, each value under the name of its kind. -/
def payloads : List (String × Value) → List (String × Json)
  | [] => []
  | (k, v) :: rest => (k, .object [(v.kind.name, payload v)]) :: payloads rest

end

def encode : Value → String
  | .scalar s => s.encode
  | v => v.payload.render

/-! ## Reading -/

/-- The reason given for a text that is not in the notation of lists and maps. -/
def notJson : String := "not a JSON text"

/-- The items of a list from `i` on, each a text. -/
def decodeItems (kind : ScalarKind) (i : Nat) : List Json → Except Error (List Value)
  | [] => .ok []
  | .text s :: rest =>
    match Scalar.decode s kind with
    | .error e => .error (e.located (Error.index i))
    | .ok v => (decodeItems kind (i + 1) rest).map (.scalar v :: ·)
  | j :: _ =>
    .error ((Error.format kind.name j.render "expected a string element").located (Error.index i))

/-- A list from an array; `text` is shown if it is none. -/
def decodeList (kind : ScalarKind) (text : String) : Json → Except Error Value
  | .array items => do
    let values ← decodeItems kind 0 items
    (ScalarList.ofValues kind values).map .list
  | _ => .error (.format (Kind.list kind).name text "expected an array")

mutual

/-- A value under the name of its kind. -/
def decodeTagged : Json → Except Error Value
  | .object [(name, payload)] =>
    let text := Json.render (.object [(name, payload)])
    match Kind.ofName? name with
    | none => .error (.format "map" text ("unknown kind '" ++ name ++ "'"))
    | some (.scalar k) =>
      match payload with
      | .text s => (Scalar.decode s k).map .scalar
      | j => .error (.format k.name j.render "expected a string")
    | some (.list k) => decodeList k text payload
    | some .map =>
      match payload with
      | .object members => (decodeMembers members).map .map
      | _ => .error (.format "map" text "expected an object")
  | j => .error (.format "map" j.render "expected a single \x7bkind: value\x7d entry")

/-- The entries of a map, each located by its key. -/
def decodeMembers : List (String × Json) → Except Error (List (String × Value))
  | [] => .ok []
  | (k, j) :: rest =>
    match decodeTagged j with
    | .error e => .error (e.located k)
    | .ok v => (decodeMembers rest).map ((k, v) :: ·)

end

def decodeMap (text : String) : Json → Except Error Value
  | .object members => (decodeMembers members).map .map
  | _ => .error (.format "map" text "expected an object")

/-- The value in a text, one member per key. -/
def readJson (text : String) (kind : Kind) : Except Error Json :=
  match Json.read text.toList with
  | some j => .ok j.merged
  | none => .error (.format kind.name text notJson)

/-- The value of a text and a kind. -/
def decode (text : String) : Kind → Except Error Value
  | .scalar k => (Scalar.decode text k).map .scalar
  | .list k => do
    let j ← readJson text (.list k)
    decodeList k text j
  | .map => do
    let j ← readJson text .map
    decodeMap text j

end Value
end SignalTree
