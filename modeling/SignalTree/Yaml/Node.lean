import SignalTree.Yaml

/-!
# Node — a YAML document as it is written

A node keeps how a scalar is written, because a reader that expects a text takes `0x1F` as it
stands, and one that expects any value takes it as a number.

* `Yaml.Node.meaning`: the value of a node, by the rules for plain scalars;
* `Yaml.Node.depth`: how deeply collections are nested.
-/

namespace SignalTree
namespace Yaml

/-- How a scalar is written. -/
inductive Style where
  | plain
  | quoted
  | literal
  | folded
deriving DecidableEq, Repr

/-- A node with its tag. -/
inductive Node where
  | scalar (tag : Option String) (style : Style) (text : String)
  | sequence (tag : Option String) (items : List Node)
  | mapping (tag : Option String) (entries : List (Node × Node))
  /-- A reference to a node from inside itself; it has no value. -/
  | endless

namespace Node

/-- What stands where nothing is written. -/
def absent : Node := .scalar none .plain ""

instance : Inhabited Node := ⟨absent⟩

/-! ## Plain scalars -/

def readBool (s : String) : Option Bool :=
  if s = "true" || s = "True" || s = "TRUE" then some true
  else if s = "false" || s = "False" || s = "FALSE" then some false
  else none

def isNullWord (s : String) : Bool := s = "null" || s = "Null" || s = "NULL" || s = "~"

/-- Whether a text is digits after a superfluous zero. -/
def isPadded (cs : List Char) : Bool :=
  match cs with
  | '0' :: d :: rest => (d :: rest).all Char.isDigit
  | '+' :: '0' :: d :: rest => (d :: rest).all Char.isDigit
  | '-' :: '0' :: d :: rest => (d :: rest).all Char.isDigit
  | _ => false

/-- The value of a digit, of any base up to sixteen. -/
def digit? (c : Char) : Option Nat :=
  if c.isDigit then some (c.toNat - 48)
  else if 'a' ≤ c && c ≤ 'f' then some (c.toNat - 87)
  else if 'A' ≤ c && c ≤ 'F' then some (c.toNat - 55)
  else none

/-- The number of some digits in a base; there has to be one at least. -/
def readBase (base : Nat) (cs : List Char) : Option Nat :=
  if cs.isEmpty then none
  else cs.foldlM (fun n c => do
    let d ← digit? c
    if d < base then some (n * base + d) else none) 0

/-- The magnitude of a whole number, with the base in front if it is not ten. -/
def readMagnitude (padded : Bool) (cs : List Char) : Option Nat :=
  let based := match cs with
    | '0' :: 'x' :: rest => readBase 16 rest
    | '0' :: 'o' :: rest => readBase 8 rest
    | '0' :: 'b' :: rest => readBase 2 rest
    | _ => none
  match based with
  | some n => some n
  | none => if padded then none else readBase 10 cs

def readWhole (cs : List Char) : Option Int :=
  let padded := isPadded cs
  match cs with
  | '+' :: rest => (readMagnitude padded rest).map Int.ofNat
  | '-' :: rest => (readMagnitude padded rest).map fun n => -Int.ofNat n
  | _ => (readMagnitude padded cs).map Int.ofNat

def readReal (s : String) : Option Real64 :=
  let cs := s.toList
  let unsigned := if cs.head? = some '+' then cs.drop 1 else cs
  let word := String.ofList unsigned
  -- one sign only
  if cs.head? = some '+' && (unsigned.head? = some '+' || unsigned.head? = some '-') then none
  else if word = ".inf" || word = ".Inf" || word = ".INF" then some (.infinite false)
  else if s = "-.inf" || s = "-.Inf" || s = "-.INF" then some (.infinite true)
  else if s = ".nan" || s = ".NaN" || s = ".NAN" then some .nan
  else match Real64.read unsigned with
    -- words such as `inf` are numbers with a point only
    | .ok x => if x.isFinite then some x else none
    | .error _ => none

/-- What a whole number is as a value: it has none beyond 64 bits, and beyond 128 bits it counts as
a real number. -/
def wholeValue (i : Int) : Option (Option Yaml) :=
  if 0 ≤ i ∧ i < 0x10000000000000000 then some (some (.number (.natural (UInt64.ofNat i.toNat))))
  else if -0x8000000000000000 ≤ i ∧ i < 0 then some (some (.number (.negative (Int64.ofInt i))))
  else if -0x80000000000000000000000000000000 ≤ i ∧ i < 0x100000000000000000000000000000000 then
    some none
  else none

def otherValue (s : String) : Yaml :=
  if isPadded s.toList then .text s
  else match readReal s with
    | some x => .number (.real x)
    | none => .text s

/-- The value of a plain scalar, if it has one. -/
def plainValue (s : String) : Option Yaml :=
  if s = "" || isNullWord s then some .null
  else match readBool s with
    | some b => some (.bool b)
    | none => (((readWhole s.toList).bind wholeValue).getD (some (otherValue s)))

/-! ## Tags -/

/-- The name of one of the tags of YAML itself. -/
def coreTag (name : String) : String := "tag:yaml.org,2002:" ++ name

/-- The name of a tag that belongs to the document. -/
def ownTag (tag : Option String) : Option String :=
  match tag.map String.toList with
  | some ('!' :: name) => some (String.ofList name)
  | _ => none

/-- The value of a scalar whose tag is not the document's own. -/
def scalarValue (tag : Option String) (style : Style) (s : String) : Option Yaml :=
  if tag = some (coreTag "bool") then (readBool s).map .bool
  else if tag = some (coreTag "int") then ((readWhole s.toList).bind wholeValue).join
  else if tag = some (coreTag "float") then (readReal s).map fun x => .number (.real x)
  else if tag = some (coreTag "null") then if isNullWord s then some .null else none
  else if tag.isNone && style = .plain then plainValue s
  else some (.text s)

/-- Puts a tag of the document on a value; it needs a name. -/
def withTag (name : String) (v : Yaml) : Option Yaml :=
  if name = "" then none else some (.tagged name v)

/-! ## Values -/

mutual

/-- The value of a node.  It has none if a number is too large, if a mapping has a key twice, or
if the node contains itself. -/
def meaning : Node → Option Yaml
  | .scalar tag style s =>
    match ownTag tag with
    | some name => do
      -- a tag of the document leaves the value as it would be without one
      withTag name (← if style = .plain then plainValue s else some (.text s))
    | none => scalarValue tag style s
  | .sequence tag items => do
    let v := Yaml.sequence (← meaningItems items)
    match ownTag tag with
    | some name => withTag name v
    | none => some v
  | .mapping tag entries => do
    let v := Yaml.mapping (← meaningEntries entries [])
    match ownTag tag with
    | some name => withTag name v
    | none => some v
  | .endless => none

def meaningItems : List Node → Option (List Yaml)
  | [] => some []
  | n :: rest => do
    let v ← meaning n
    return v :: (← meaningItems rest)

/-- The values of entries after those in `done`, under keys that are all different. -/
def meaningEntries : List (Node × Node) → List (Yaml × Yaml) → Option (List (Yaml × Yaml))
  | [], done => some done
  | (k, n) :: rest, done => do
    let key ← meaning k
    -- keys are compared as values, so `1` and `0x1` are the same key
    if done.any fun p => p.1.same key then none
    else
      let v ← meaning n
      meaningEntries rest (done ++ [(key, v)])

end

/-! ## Nesting -/

mutual

/-- How many collections lie inside each other. -/
def depth : Node → Nat
  | .scalar .. => 0
  | .sequence _ items => depthItems items + 1
  | .mapping _ entries => depthEntries entries + 1
  | .endless => 0

def depthItems : List Node → Nat
  | [] => 0
  | n :: rest => max (depth n) (depthItems rest)

/-- The greatest depth of keys and values. -/
def depthEntries : List (Node × Node) → Nat
  | [] => 0
  | (k, v) :: rest => max (max (depth k) (depth v)) (depthEntries rest)

end

end Node
end Yaml
end SignalTree
