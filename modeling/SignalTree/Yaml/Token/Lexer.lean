import SignalTree.Yaml.Token.Scalar

/-!
# Lexer — the tokens of a YAML document

Whether a scalar or a collection is a key shows only when the colon after it is reached.  So where
a key could start, the lexer remembers a `Candidate`; the colon turns it into a key, and the tokens
that go before it are kept aside under its number until all tokens are known (`Lexer.inserted`).

* `Lexer.step`: reads one token and what belongs to it;
* `Yaml.tokens`: the tokens of a document, if it is well-formed up to here.
-/

namespace SignalTree
namespace Yaml

/-- Where a key may have started. -/
structure Candidate where
  /-- The number of tokens before it. -/
  number : Nat
  place : Place
  /-- Whether nothing but a key can stand there. -/
  required : Bool

/-- Whether a candidate is given up: a key is on one line and not too long. -/
def Candidate.isStale (c : Candidate) (p : Place) : Bool :=
  c.place.line < p.line || c.place.index + 1024 < p.index

/-- How far a document has been read. -/
structure Lexer where
  cursor : Cursor
  /-- The tokens so far, the latest first. -/
  tokens : List Token
  /-- The number of tokens so far. -/
  count : Nat
  /-- Tokens that go before the token of a number. -/
  inserted : List (Nat × List Token)
  /-- The candidate of the block context, and of every flow collection around, innermost first. -/
  candidate : Option Candidate
  outer : List (Option Candidate)
  /-- The columns of the block collections around, innermost first. -/
  columns : List Nat
  /-- Whether a key may start here. -/
  keyAllowed : Bool

namespace Lexer

def start (cs : List Char) : Lexer where
  cursor := .start cs
  tokens := []
  count := 0
  inserted := []
  candidate := none
  outer := []
  columns := []
  keyAllowed := true

def inFlow (l : Lexer) : Bool := !l.outer.isEmpty

/-- The column of the innermost block collection. -/
def parent (l : Lexer) : Option Nat := l.columns.head?

/-- The least column of what is inside the innermost block collection. -/
def indent (l : Lexer) : Nat :=
  match l.parent with
  | some n => n + 1
  | none => 0

def push (l : Lexer) (t : Token) : Lexer :=
  { l with tokens := t :: l.tokens, count := l.count + 1 }

def skip (l : Lexer) (n : Nat) : Lexer := { l with cursor := l.cursor.skipMany n }

/-- Adds the token of a mark of `n` characters. -/
def mark (l : Lexer) (n : Nat) (t : Token) : Lexer := (l.skip n).push t

/-! ## Candidates -/

def dropCandidate (l : Lexer) : Option Lexer :=
  if l.candidate.any (·.required) then none else some { l with candidate := none }

/-- Gives up a candidate that is stale. -/
def refresh (p : Place) : Option Candidate → Option (Option Candidate)
  | none => some none
  | some c =>
    -- a stale candidate is given up, unless it had to be a key
    if !c.isStale p then some (some c)
    else if c.required then none
    else some none

def refreshAll (l : Lexer) : Option Lexer := do
  let candidate ← refresh l.cursor.place l.candidate
  let outer ← l.outer.mapM (refresh l.cursor.place)
  return { l with candidate, outer }

/-- Remembers that a key may start here. -/
def saveCandidate (l : Lexer) : Option Lexer :=
  if !l.keyAllowed then some l
  else do
    let l ← l.dropCandidate
    -- at the column of the block collection around only a key can stand
    let required := !l.inFlow && l.parent = some l.cursor.column
    return { l with candidate := some ⟨l.count, l.cursor.place, required⟩ }

/-! ## Block collections -/

/-- Opens a block collection at a column, unless one is open there; its token goes before the token
of a number. -/
def openBlock (l : Lexer) (column number : Nat) (t : Token) (more : List Token) : Lexer :=
  -- the collection is open already if the column is not deeper
  let opens := !l.inFlow && l.parent.all (· < column)
  let ts := if opens then t :: more else more
  { l with
    columns := if opens then column :: l.columns else l.columns
    inserted := if ts.isEmpty then l.inserted else (number, ts) :: l.inserted }

def openHere (l : Lexer) (t : Token) : Lexer :=
  if !l.inFlow && l.parent.all (· < l.cursor.column) then
    { l with columns := l.cursor.column :: l.columns }.push t
  else l

/-- Closes block collections as long as a test holds of their columns. -/
def closeWhile (p : Nat → Bool) : List Nat → Lexer → Lexer
  | [], l => { l with columns := [] }
  | n :: rest, l =>
    if p n then closeWhile p rest (l.push .blockEnd) else { l with columns := n :: rest }

def closeTo (l : Lexer) (column : Nat) : Lexer :=
  if l.inFlow then l else closeWhile (column < ·) l.columns l

def closeAll (l : Lexer) : Lexer := if l.inFlow then l else closeWhile (fun _ => true) l.columns l

/-! ## Blanks and comments -/

/-- Goes on to the next token.  A tab may not stand where a key may start. -/
def skipSpace (l : Lexer) : Nat → Lexer
  | 0 => l
  | fuel + 1 =>
    -- tabs never count as indentation
    let tabs := l.inFlow || !l.keyAllowed
    let c := l.cursor.dropWhile fun ch => ch = ' ' || (tabs && ch = '\t')
    let c := if c.next? = some '#' then c.dropWhile (!isBreak ·) else c
    if c.next?.any isBreak then
      -- outside flow collections a key may start on each line
      { l with cursor := c.skip, keyAllowed := l.keyAllowed || !l.inFlow }.skipSpace fuel
    else { l with cursor := c }

/-! ## Directives, names and tags -/

/-- Reads a number of a version, of at most nine digits. -/
def readVersionNumber (c : Cursor) : Option (Nat × Cursor) :=
  let (ds, c) := c.takeWhile Char.isDigit
  if ds.isEmpty || 9 < ds.length then none else some (Numeral.value 0 ds, c)

/-- Reads the handle of a tag from its mark on. -/
def readHandle (c : Cursor) : Option (String × Cursor) :=
  if c.next? ≠ some '!' then none
  else
    let (name, c) := c.skip.takeWhile isNameChar
    if c.next? = some '!' then some (String.ofList ('!' :: name ++ ['!']), c.skip)
    else some (String.ofList ('!' :: name), c)

/-- Whether a character may stand in a tag; `verbatim` is for a tag between angle brackets. -/
def isTagChar (verbatim : Bool) (c : Char) : Bool :=
  isNameChar c || ";/?:@&=+$.%!~*'()".toList.contains c ||
    (verbatim && (c = ',' || c = '[' || c = ']'))

/-- Turns escapes by number into bytes. -/
def unescape : List Char → Option (List UInt8)
  | [] => some []
  | '%' :: a :: b :: rest => do
    let n ← Node.readBase 16 [a, b]
    return UInt8.ofNat n :: (← unescape rest)
  | c :: rest => if c = '%' then none else do return UInt8.ofNat c.toNat :: (← unescape rest)

def readTagText (verbatim : Bool) (c : Cursor) : Option (String × Cursor) := do
  let (cs, c) := c.takeWhile (isTagChar verbatim)
  let bytes ← unescape cs
  let s ← String.fromUTF8? ⟨bytes.toArray⟩
  return (s, c)

def readTag (c : Cursor) : Option (Token × Cursor) := do
  if c.skip.next? = some '<' then
    let (suffix, c) ← readTagText true (c.skipMany 2)
    if suffix = "" || c.next? ≠ some '>' then none else some (.tag "" suffix, c.skip)
  else
    let (handle, rest) ← readHandle c
    -- a handle between two marks stands for what its directive says
    if handle ≠ "!" && handle.toList.getLast? = some '!' then
      let (suffix, c) ← readTagText false rest
      if suffix = "" then none else some (.tag handle suffix, c)
    else
      -- otherwise the mark alone is the handle, and a mark alone is a tag as well
      let (suffix, c) ← readTagText false c.skip
      if suffix = "" then some (.tag "" "!", c) else some (.tag "!" suffix, c)

def readAnchor (c : Cursor) : Option (String × Cursor) :=
  let (name, c) := c.takeWhile isNameChar
  let ends := gapAhead c.rest || c.next?.any "?:,]\x7d%@`".toList.contains
  if name.isEmpty || !ends then none else some (String.ofList name, c)

def readDirective (c : Cursor) : Option (Token × Cursor) := do
  let (name, c) := c.skip.takeWhile isNameChar
  let c' := c.dropWhile isBlank
  if !gapAhead c.rest then none
  else if name = "YAML".toList then
    let (major, c) ← readVersionNumber c'
    if c.next? ≠ some '.' then none
    else
      let (minor, c) ← readVersionNumber c.skip
      some (.version major minor, ← c.endLine)
  else if name = "TAG".toList then
    let (handle, c) ← readHandle c'
    -- a handle ends with a mark
    if handle ≠ "!" && handle.toList.getLast? ≠ some '!' then none
    else if !c.next?.any isBlank then none
    else
      let (expansion, c) ← readTagText true (c.dropWhile isBlank)
      if expansion = "" || !gapAhead c.rest then none
      else some (.handle handle expansion, ← c.endLine)
  else none

/-! ## Tokens -/

def stepItem (l : Lexer) : Option Lexer := do
  if !l.inFlow && !l.keyAllowed then none
  else
    let l ← (l.openHere .blockSequence).dropCandidate
    return { l with keyAllowed := true }.mark 1 .item

/-- The token of a key with its mark. -/
def stepKey (l : Lexer) : Option Lexer := do
  if !l.inFlow && !l.keyAllowed then none
  else
    let l ← (l.openHere .blockMapping).dropCandidate
    return { l with keyAllowed := !l.inFlow }.mark 1 .key

/-- The token of a value; the candidate before it becomes a key. -/
def stepValue (l : Lexer) : Option Lexer :=
  match l.candidate with
  | some k =>
    -- the tokens of the key are there already, so its mark goes before them
    let l := l.openBlock k.place.column k.number .blockMapping [.key]
    some ({ l with candidate := none, keyAllowed := false }.mark 1 .value)
  | none =>
    if !l.inFlow && !l.keyAllowed then none
    else
      let l := l.openHere .blockMapping
      some ({ l with keyAllowed := !l.inFlow }.mark 1 .value)

def stepOpen (l : Lexer) (t : Token) : Option Lexer := do
  let l ← l.saveCandidate
  -- the bracket itself may start a key, so its candidate waits outside
  return { l with candidate := none, outer := l.candidate :: l.outer, keyAllowed := true }.mark 1 t

def stepClose (l : Lexer) (t : Token) : Option Lexer := do
  let l ← l.dropCandidate
  let l := match l.outer with
    | [] => l
    | k :: outer => { l with candidate := k, outer }
  return { l with keyAllowed := false }.mark 1 t

def stepComma (l : Lexer) : Option Lexer := do
  let l ← l.dropCandidate
  return { l with keyAllowed := true }.mark 1 .comma

/-- A token that may start a key. -/
def stepNamed (l : Lexer) (read : Cursor → Option (Token × Cursor)) : Option Lexer := do
  let l ← l.saveCandidate
  let (t, cursor) ← read l.cursor
  return { l with cursor, keyAllowed := false }.push t

def stepTag (l : Lexer) : Option Lexer := do
  let l ← l.stepNamed readTag
  let ends := gapAhead l.cursor.rest || (l.inFlow && l.cursor.next? = some ',')
  if ends then return l else none

def stepPlain (l : Lexer) : Option Lexer := do
  let l ← l.saveCandidate
  let (s, ended, cursor) ← readPlain l.inFlow l.indent l.cursor
  -- if a line has ended after the last word, a key may start
  return { l with cursor, keyAllowed := ended }.push (.scalar .plain s)

def stepQuoted (l : Lexer) (single : Bool) : Option Lexer :=
  l.stepNamed fun c => (readQuoted single c).map fun r => (.scalar .quoted r.1, r.2)

def stepBlock (l : Lexer) (folded : Bool) : Option Lexer := do
  let l ← l.dropCandidate
  let (s, cursor) ← readBlock folded l.parent l.cursor
  return { l with cursor, keyAllowed := true }.push
    (.scalar (if folded then .folded else .literal) s)

def stepDocument (l : Lexer) (t : Token) : Option Lexer := do
  let l ← l.closeAll.dropCandidate
  return { l with keyAllowed := false }.mark 3 t

def stepDirective (l : Lexer) : Option Lexer := do
  let l ← l.closeAll.dropCandidate
  let (t, cursor) ← readDirective l.cursor
  return { l with cursor, keyAllowed := false }.push t

/-- The characters no plain scalar starts with. -/
def indicators : List Char := "-?:,[]\x7b\x7d#&*!|>'\"%@`".toList

def startsPlain (flow : Bool) (c : Char) (rest : List Char) : Bool :=
  !(isBlank c || isBreak c || indicators.contains c) ||
    -- a hyphen may start a scalar before anything but a blank
    (c = '-' && !rest.head?.any isBlank) ||
    (!flow && (c = '?' || c = ':') && !gapAhead rest)

/-- The token that starts with a character. -/
def stepAt (l : Lexer) (c : Char) (rest : List Char) : Option Lexer :=
  let gap := gapAhead rest
  -- the order of the tests decides: marks of documents come before those of items
  if l.cursor.column = 0 && c = '%' then l.stepDirective
  else if l.cursor.atMark '-' then l.stepDocument .documentStart
  else if l.cursor.atMark '.' then l.stepDocument .documentEnd
  else if c = '[' then l.stepOpen .flowSequence
  else if c = '\x7b' then l.stepOpen .flowMapping
  else if c = ']' then l.stepClose .flowSequenceEnd
  else if c = '\x7d' then l.stepClose .flowMappingEnd
  else if c = ',' then l.stepComma
  else if c = '-' && gap then l.stepItem
  else if c = '?' && (l.inFlow || gap) then l.stepKey
  else if c = ':' && (l.inFlow || gap) then l.stepValue
  else if c = '*' then l.stepNamed fun c => (readAnchor c.skip).map fun r => (.alias r.1, r.2)
  else if c = '&' then l.stepNamed fun c => (readAnchor c.skip).map fun r => (.anchor r.1, r.2)
  else if c = '!' then l.stepTag
  else if c = '|' && !l.inFlow then l.stepBlock false
  else if c = '>' && !l.inFlow then l.stepBlock true
  else if c = '\'' then l.stepQuoted true
  else if c = '"' then l.stepQuoted false
  else if startsPlain l.inFlow c rest then l.stepPlain
  else none

def run (l : Lexer) : Nat → Option Lexer
  | 0 => none
  | fuel + 1 => do
    let l ← (l.skipSpace (l.cursor.rest.length + 1)).refreshAll
    match l.cursor.rest with
    | [] => l.closeAll.dropCandidate
    | c :: rest => (← (l.closeTo l.cursor.column).stepAt c rest).run fuel

/-- Puts the tokens that go before others in their places; `i` counts the tokens before. -/
def weave (inserted : List (Nat × List Token)) (i : Nat) : List Token → List Token
  | [] => []
  | t :: rest => (inserted.lookup i).getD [] ++ t :: weave inserted (i + 1) rest

end Lexer

def tokens (cs : List Char) : Option (List Token) :=
  if !cs.all isAllowed then none
  else
    let cs := unify (if cs.head? = some '\ufeff' then cs.drop 1 else cs)
    (Lexer.start cs).run (cs.length + 1) |>.map fun l => Lexer.weave l.inserted 0 l.tokens.reverse

end Yaml
end SignalTree
