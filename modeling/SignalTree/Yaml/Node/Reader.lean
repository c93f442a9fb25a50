import SignalTree.Yaml.Token.Lexer

/-!
# Reader — the node of a YAML document

The reader takes the tokens of a text, which has to hold one document at most.  References are
replaced by what they refer to, so a node is a finite tree; a node that refers to itself has an
`endless` part.

* `Yaml.Node.readNode`: one node, with its anchor and tag;
* `Yaml.Node.read`: the node of a text.
-/

namespace SignalTree
namespace Yaml

/-- A node that can be referred to. -/
structure Anchor where
  name : String
  /-- The node, once it is complete. -/
  node : Option Node
  /-- The number of references inside the node, those inside of what they refer to included. -/
  references : Nat

/-- What is left of the tokens, and what is known from those before. -/
structure Reader where
  tokens : List Token
  /-- The latest first. -/
  anchors : List Anchor
  /-- What the handles of tags stand for. -/
  handles : List (String × String)
  /-- The number of nodes, references and ends of collections so far. -/
  events : Nat
  /-- The number of references so far, those inside of what they refer to included. -/
  references : Nat

namespace Reader

def next? (r : Reader) : Option Token := r.tokens.head?

def skip (r : Reader) : Reader := { r with tokens := r.tokens.drop 1 }

/-- Counts a node, a reference or the end of a collection. -/
def count (r : Reader) : Reader := { r with events := r.events + 1 }

/-- Opens an anchor: from now on there is a node of this name.  The result is its number. -/
def openAnchor (r : Reader) : Option String → Option Nat × Reader
  | none => (none, r)
  | some name =>
    (some r.anchors.length, { r with anchors := ⟨name, none, 0⟩ :: r.anchors })

/-- Completes the node of an anchor; `before` is the number of references before it. -/
def closeAnchor (r : Reader) (id : Option Nat) (before : Nat) (n : Node) : Reader :=
  match id with
  | none => r
  | some id =>
    -- anchors are kept with the latest first, but numbered from the first
    let place := r.anchors.length - 1 - id
    { r with anchors := r.anchors.modify place fun a =>
        { a with node := some n, references := r.references - before } }

/-- What a reference stands for. -/
def follow (r : Reader) (name : String) : Option (Node × Reader) := do
  let a ← r.anchors.find? (·.name = name)
  let r := { r.count with references := r.references + 1 + a.references }
  -- without a node, the reference is inside of what it refers to
  return (a.node.getD .endless, r)

/-- The full form of a tag. -/
def tagOf (r : Reader) (handle suffix : String) : Option String :=
  if handle = "" then some suffix
  else (r.handles.lookup handle).map (· ++ suffix)

/-- Reads the anchor and the tag in front of a node, in any order. -/
def readProperties (r : Reader) : Option (Option String × Option String × Reader) :=
  match r.tokens with
  | .anchor a :: .tag h s :: rest => do
    return (some a, some (← r.tagOf h s), { r with tokens := rest })
  | .tag h s :: .anchor a :: rest => do
    return (some a, some (← r.tagOf h s), { r with tokens := rest })
  | .anchor a :: rest => some (some a, none, { r with tokens := rest })
  | .tag h s :: rest => do
    return (none, some (← r.tagOf h s), { r with tokens := rest })
  | _ => some (none, none, r)

/-- Nothing where a node could be. -/
def nothing (r : Reader) : Option (Node × Reader) := some (.absent, r.count)

/-- Whether the next token is among some. -/
def at? (r : Reader) (ts : List Token) : Bool := r.next?.any ts.contains

end Reader

namespace Node

open Reader

/-- The tag of a scalar; a mark alone is no tag. -/
def scalarTag (tag : Option String) : Option String := if tag = some "!" then none else tag

def scalarOf (tag : Option String) (style : Style) (s : String) : Node :=
  .scalar (scalarTag tag) style s

mutual

/-- Reads a node.  `block` says whether block collections may stand here, and `items` whether items
may follow without a deeper column. -/
def readNode : Nat → Bool → Bool → Reader → Option (Node × Reader)
  | 0, _, _, _ => none
  | fuel + 1, block, items, r =>
    match r.tokens with
    | .alias name :: rest => { r with tokens := rest }.follow name
    | _ => do
      let (anchor, tag, r) ← r.readProperties
      let (id, r) := r.openAnchor anchor
      let before := r.references
      let (n, r) ← readContent fuel block items (anchor.isSome || tag.isSome) tag r
      return (n, r.closeAnchor id before n)

def readContent : Nat → Bool → Bool → Bool → Option String → Reader → Option (Node × Reader)
  | 0, _, _, _, _, _ => none
  | fuel + 1, block, items, marked, tag, r =>
    let inside := r.skip.count
    match r.next?, block with
    | some (.scalar style s), _ => some (scalarOf tag style s, inside)
    | some .flowSequence, _ => do
      let (l, r) ← readFlowItems fuel true inside
      return (.sequence tag l, r)
    | some .flowMapping, _ => do
      let (l, r) ← readFlowEntries fuel true inside
      return (.mapping tag l, r)
    | some .blockSequence, true => do
      let (l, r) ← readItems fuel inside
      return (.sequence tag l, r)
    | some .blockMapping, true => do
      let (l, r) ← readEntries fuel inside
      return (.mapping tag l, r)
    | t, _ =>
      -- items at the column of the mapping around them have no start token
      if items && t = some .item then do
        let (l, r) ← readFlatItems fuel r.count
        return (.sequence tag l, r)
      -- an anchor or a tag alone marks an empty scalar
      else if marked then some (.scalar tag .plain "", r.count)
      else none

/-- Reads the items of a block sequence up to its end. -/
def readItems : Nat → Reader → Option (List Node × Reader)
  | 0, _ => none
  | fuel + 1, r =>
    match r.next? with
    | some .item => do
      let (n, r) ← if r.skip.at? [.item, .blockEnd] then r.skip.nothing
        else readNode fuel true false r.skip
      let (l, r) ← readItems fuel r
      return (n :: l, r)
    | some .blockEnd => some ([], r.skip.count)
    | _ => none

/-- Reads items that are not deeper than the mapping around them. -/
def readFlatItems : Nat → Reader → Option (List Node × Reader)
  | 0, _ => none
  | fuel + 1, r =>
    if r.next? = some .item then do
      let (n, r) ← if r.skip.at? [.item, .key, .value, .blockEnd] then r.skip.nothing
        else readNode fuel true false r.skip
      let (l, r) ← readFlatItems fuel r
      return (n :: l, r)
    else some ([], r.count)

/-- Reads a key or a value of a block mapping after its mark. -/
def readPart : Nat → Reader → Option (Node × Reader)
  | 0, _ => none
  | fuel + 1, r =>
    if r.at? [.key, .value, .blockEnd] then r.nothing else readNode fuel true true r

/-- Reads the entries of a block mapping up to its end. -/
def readEntries : Nat → Reader → Option (List (Node × Node) × Reader)
  | 0, _ => none
  | fuel + 1, r =>
    match r.next? with
    | some .key => do
      let (k, r) ← readPart fuel r.skip
      let (v, r) ← if r.next? = some .value then readPart fuel r.skip else r.nothing
      let (l, r) ← readEntries fuel r
      return ((k, v) :: l, r)
    | some .blockEnd => some ([], r.skip.count)
    | _ => none

/-- Reads a key or a value inside a flow collection; before a token of `ends` there is nothing. -/
def readFlowPart : Nat → List Token → Reader → Option (Node × Reader)
  | 0, _, _ => none
  | fuel + 1, ends, r => if r.at? ends then r.nothing else readNode fuel false false r

/-- Reads the items of a flow sequence up to its end.  An item may be a single entry of a mapping;
if nothing is written for its key, the token after that is lost. -/
def readFlowItems : Nat → Bool → Reader → Option (List Node × Reader)
  | 0, _, _ => none
  | fuel + 1, first, r =>
    if r.next? = some .flowSequenceEnd then some ([], r.skip.count)
    else if !first && r.next? ≠ some .comma then none
    else
      -- the comma; after it the collection may end
      let r := if first then r else r.skip
      match r.next? with
      | some .flowSequenceEnd => some ([], r.skip.count)
      | some .key => do
        let ends := [.comma, .flowSequenceEnd]
        let r := r.skip.count
        let (k, r) ← if r.at? (.value :: ends) then r.skip.nothing
          else readNode fuel false false r
        let (v, r) ← if r.next? = some .value then readFlowPart fuel ends r.skip else r.nothing
        let (l, r) ← readFlowItems fuel false r.count
        return (.mapping none [(k, v)] :: l, r)
      | _ => do
        let (n, r) ← readNode fuel false false r
        let (l, r) ← readFlowItems fuel false r
        return (n :: l, r)

/-- Reads the entries of a flow mapping up to its end. -/
def readFlowEntries : Nat → Bool → Reader → Option (List (Node × Node) × Reader)
  | 0, _, _ => none
  | fuel + 1, first, r =>
    if r.next? = some .flowMappingEnd then some ([], r.skip.count)
    else if !first && r.next? ≠ some .comma then none
    else
      let r := if first then r else r.skip
      match r.next? with
      | some .flowMappingEnd => some ([], r.skip.count)
      | some .key => do
        let ends := [.comma, .flowMappingEnd]
        let (k, r) ← readFlowPart fuel (.value :: ends) r.skip
        let (v, r) ← if r.next? = some .value then readFlowPart fuel ends r.skip else r.nothing
        let (l, r) ← readFlowEntries fuel false r
        return ((k, v) :: l, r)
      | _ => do
        let (k, r) ← readNode fuel false false r
        let (l, r) ← readFlowEntries fuel false r.count
        return ((k, .absent) :: l, r)

end

/-! ## Documents -/

/-- What handles stand for without a directive. -/
def coreHandles : List (String × String) := [("!", "!"), ("!!", "tag:yaml.org,2002:")]

/-- Reads the directives before a document: whether there was one for the version, and the handles
that are declared. -/
def readDirectives (version : Bool) (handles : List (String × String)) :
    List Token → Option (Bool × List (String × String) × List Token)
  | .version major minor :: rest =>
    -- one version at most, and only 1.1 or 1.2
    if version || major ≠ 1 || (minor ≠ 1 && minor ≠ 2) then none
    else readDirectives true handles rest
  | .handle name expansion :: rest =>
    if (handles.lookup name).isSome then none
    else readDirectives version ((name, expansion) :: handles) rest
  | ts => some (version, handles, ts)

/-- Whether nothing follows a document but marks of its end. -/
def endsHere (ts : List Token) : Bool := ts.all (· = .documentEnd)

def readDocument (explicit : Bool) (handles : List (String × String)) (ts : List Token) :
    Option (Node × Reader) :=
  let r : Reader := ⟨ts, [], handles ++ coreHandles, 0, 0⟩
  let bare := r.next?.all fun
    | .version .. => true
    | .handle .. => true
    | .documentStart => true
    | .documentEnd => true
    | _ => false
  if explicit && bare then r.nothing else readNode (4 * ts.length + 4) true false r

/-- How deeply collections may be nested. -/
def maxDepth : Nat := 128

/-- How many references there may be for each event. -/
def maxReferences : Nat := 100

/-- Reads the tokens of a text with one document at most. -/
def ofTokens (ts : List Token) : Option Node := do
  if ts.isEmpty then some .absent
  else
    let (version, handles, body) ← readDirectives false [] ts
    let explicit := body.head? = some .documentStart
    -- directives need the mark of a document after them
    if !explicit && (version || !handles.isEmpty) then none
    else
      let (n, r) ← readDocument explicit handles (if explicit then body.drop 1 else body)
      -- the last two bounds keep references from blowing up a small text
      if endsHere r.tokens && r.references ≤ maxReferences * r.events && n.depth ≤ maxDepth then
        some n
      else none

def read (cs : List Char) : Option Node := (tokens cs).bind ofTokens

end Node
end Yaml
end SignalTree
