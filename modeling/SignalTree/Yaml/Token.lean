import SignalTree.Yaml.Node

/-!
# Token — the marks and texts a YAML document is made of

Indentation is made explicit: a block collection has a token where it starts and one where it
ends, and every key of a mapping has one before it.

A `Cursor` is what is left of a document together with the place of its first character.  Line
breaks have been made uniform before (`unify`).
-/

namespace SignalTree
namespace Yaml

inductive Token where
  | version (major minor : Nat)
  | handle (name expansion : String)
  | documentStart
  | documentEnd
  | blockSequence
  | blockMapping
  | blockEnd
  | flowSequence
  | flowSequenceEnd
  | flowMapping
  | flowMappingEnd
  | item
  | comma
  | key
  | value
  | alias (name : String)
  | anchor (name : String)
  | tag (handle suffix : String)
  | scalar (style : Style) (text : String)
deriving DecidableEq

/-- A place in a document, all numbers counted from zero. -/
structure Place where
  line : Nat
  column : Nat
  /-- The number of characters before. -/
  index : Nat

/-- What is left of a document. -/
structure Cursor where
  place : Place
  rest : List Char

/-! ## Characters -/

def isBreak (c : Char) : Bool := c = '\n' || c = '\u2028' || c = '\u2029'

/-- Whether a character separates words of a line. -/
def isBlank (c : Char) : Bool := c = ' ' || c = '\t'

/-- Whether a character may stand in a name. -/
def isNameChar (c : Char) : Bool := c.isAlphanum || c = '_' || c = '-'

/-- Whether a character may stand in a document. -/
def isAllowed (c : Char) : Bool :=
  let n := c.toNat
  c = '\t' || c = '\n' || c = '\r' || (0x20 ≤ n && n ≤ 0x7E) || n = 0x85 ||
    (0xA0 ≤ n && n ≤ 0xD7FF) || (0xE000 ≤ n && n ≤ 0xFFFD) || 0x10000 ≤ n

/-- Makes every line break that is not a separator of lines or paragraphs a line feed. -/
def unify : List Char → List Char
  | '\r' :: '\n' :: rest => '\n' :: unify rest
  | '\r' :: rest => '\n' :: unify rest
  | '\u0085' :: rest => '\n' :: unify rest
  | c :: rest => c :: unify rest
  | [] => []

/-- Whether a blank, a line break or the end comes next. -/
def gapAhead : List Char → Bool
  | [] => true
  | c :: _ => isBlank c || isBreak c

/-! ## Moving on -/

namespace Place

/-- The place after a character. -/
def after (p : Place) (c : Char) : Place :=
  if isBreak c then ⟨p.line + 1, 0, p.index + 1⟩ else ⟨p.line, p.column + 1, p.index + 1⟩

end Place

namespace Cursor

def start (cs : List Char) : Cursor := ⟨⟨0, 0, 0⟩, cs⟩

def skip (c : Cursor) : Cursor :=
  match c.rest with
  | [] => c
  | ch :: rest => ⟨c.place.after ch, rest⟩

def skipMany (c : Cursor) : Nat → Cursor
  | 0 => c
  | n + 1 => (c.skip).skipMany n

def next? (c : Cursor) : Option Char := c.rest.head?

def column (c : Cursor) : Nat := c.place.column

/-- Goes on while a test holds, and gives what it passed. -/
def takeWhile (c : Cursor) (p : Char → Bool) : List Char × Cursor :=
  let taken := c.rest.takeWhile p
  (taken, c.skipMany taken.length)

def dropWhile (c : Cursor) (p : Char → Bool) : Cursor := (c.takeWhile p).2

/-- Goes over blanks and a comment to the end of the line; nothing else may stand there. -/
def endLine (c : Cursor) : Option Cursor :=
  let c := c.dropWhile isBlank
  let c := if c.next? = some '#' then c.dropWhile (!isBreak ·) else c
  match c.next? with
  | none => some c
  | some ch => if isBreak ch then some c.skip else none

/-- Whether a line starts here with three marks and nothing joined to them. -/
def atMark (c : Cursor) (mark : Char) : Bool :=
  c.column = 0 && c.rest.take 3 = [mark, mark, mark] && gapAhead (c.rest.drop 3)

/-- Whether a line starts here that begins or ends a document. -/
def atDocumentMark (c : Cursor) : Bool := c.atMark '-' || c.atMark '.'

end Cursor
end Yaml
end SignalTree
