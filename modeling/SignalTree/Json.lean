import SignalTree.Keyed
import SignalTree.Number

/-!
# Json — values of the notation

* `Json`: null, truth values, numbers, texts, arrays and objects;
* `Json.merged`: an object keeps one member per key, the last value at the first place;
* `Json.write`: the compact text, without a blank between tokens.
-/

namespace SignalTree

/-- A value. -/
inductive Json where
  | null
  | bool (b : Bool)
  | number (n : Number)
  | text (s : String)
  | array (items : List Json)
  | object (members : List (String × Json))
deriving Inhabited

namespace Json

/-! ## Repeated keys -/

mutual

/-- One member per key at every depth. -/
def merged : Json → Json
  | .array items => .array (mergedItems items)
  | .object members => .object (Keyed.ofList (mergedMembers members))
  | j => j

/-- `merged` for the items of an array. -/
def mergedItems : List Json → List Json
  | [] => []
  | j :: rest => merged j :: mergedItems rest

/-- `merged` for the values of an object's members. -/
def mergedMembers : List (String × Json) → List (String × Json)
  | [] => []
  | (k, j) :: rest => (k, merged j) :: mergedMembers rest

end

/-! ## Writing -/

/-- How one character stands in a text: quotes, backslashes and controls are escaped. -/
def escape (c : Char) : List Char :=
  match c with
  | '"' => ['\\', '"']
  | '\\' => ['\\', '\\']
  | '\n' => ['\\', 'n']
  | '\r' => ['\\', 'r']
  | '\t' => ['\\', 't']
  | '\x08' => ['\\', 'b']
  | '\x0c' => ['\\', 'f']
  | c =>
    if c.toNat < 0x20 then
      ['\\', 'u', '0', '0', Nat.digitChar (c.toNat / 16), Nat.digitChar (c.toNat % 16)]
    else [c]

/-- A text between quotes. -/
def writeText (s : String) : List Char := '"' :: (s.toList.flatMap escape ++ ['"'])

/-- The layout of numbers: every exponent has a sign. -/
def layout : Real64.Layout := { Real64.Layout.document with plus := true }

mutual

/-- The compact text of a value. -/
def write : Json → List Char
  | .null => "null".toList
  | .bool b => (if b then "true" else "false").toList
  | .number n => n.write layout
  | .text s => writeText s
  | .array items => '[' :: (writeItems items ++ [']'])
  | .object members => '\x7b' :: (writeMembers members ++ ['\x7d'])

def writeItems : List Json → List Char
  | [] => []
  | [j] => write j
  | j :: rest => write j ++ ',' :: writeItems rest

/-- Members with commas between them. -/
def writeMembers : List (String × Json) → List Char
  | [] => []
  | [(k, j)] => writeText k ++ ':' :: write j
  | (k, j) :: rest => writeText k ++ ':' :: (write j ++ ',' :: writeMembers rest)

end

def render (j : Json) : String := String.ofList j.write

end Json
end SignalTree
