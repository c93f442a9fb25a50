import SignalTree.Text.Blank
import SignalTree.Yaml.Token

/-!
# Writer — YAML values in block layout

Each entry of a mapping and each item of a sequence gets a line; what belongs to it is indented by
two columns, except that the items of a sequence under a key are not.  Empty collections are
written with brackets.

A text is written plainly if it reads back as itself and would in other versions of YAML too, as a
literal scalar if it has several lines, and else in quotes.
-/

namespace SignalTree
namespace Yaml

/-! ## Texts -/

/-- Whether a character may stand in a text as it is. -/
def isPrintable (c : Char) : Bool :=
  let n := c.toNat
  n = 0x0A || (0x20 ≤ n && n ≤ 0x7E) || (0xA0 ≤ n && n ≤ 0xFFFD && n ≠ 0xFEFF) || 0x10000 ≤ n

/-- Whether a plain scalar of this text would be something else than the text, here or elsewhere. -/
def isAmbiguous (s : String) : Bool :=
  let lowered := Text.lowered s
  (match Node.plainValue s with
    | some (.text _) => false
    | _ => true) ||
  (match Node.plainValue lowered with
    | some (.bool _) => true
    | some .null => true
    | _ => false) ||
  Node.isPadded s.toList ||
  -- truth values of older versions
  ["y", "yes", "n", "no", "on", "off"].contains lowered

/-- Whether a mark inside a text, after the character `before`, would end a plain scalar. -/
def breaksPlain (before : Char) : List Char → Bool
  | [] => false
  | c :: rest =>
    (c = ':' && gapAhead rest) || (c = '#' && (isBlank before || isBreak before)) ||
      breaksPlain c rest

/-- Whether a text starts like something that is no plain scalar. -/
def startsMarked (cs : List Char) : Bool :=
  match cs with
  | [] => true
  | c :: rest =>
    cs.take 3 = ['-', '-', '-'] || cs.take 3 = ['.', '.', '.'] ||
      "#,[]\x7b\x7d&*!|>'\"%@`".toList.contains c ||
      ((c = '?' || c = ':' || c = '-') && gapAhead rest)

/-- Whether the text has a line break next to a space, in this order of the two tests. -/
def adjoins (p q : Char → Bool) : List Char → Bool
  | c :: d :: rest => (p c && q d) || adjoins p q (d :: rest)
  | _ => false

/-- Whether a text has to be written with escapes. -/
def needsEscapes (cs : List Char) : Bool :=
  !cs.all isPrintable || adjoins (· = ' ') isBreak cs

/-- Whether a text may be written plainly. -/
def mayBePlain (cs : List Char) : Bool :=
  !startsMarked cs && !breaksPlain 'x' (cs.drop 1) && !needsEscapes cs && !cs.any isBreak &&
    cs.head? ≠ some ' ' && cs.getLast? ≠ some ' '

/-- Whether a text may be written in single quotes. -/
def mayBeSingle (cs : List Char) : Bool := !needsEscapes cs && !adjoins isBreak (· = ' ') cs

/-- A number in upper hexadecimal digits, at least so many. -/
def hexNumber (width n : Nat) : List Char :=
  let ds := (Nat.toDigits 16 n).map Char.toUpper
  List.replicate (width - ds.length) '0' ++ ds

/-- A character between double quotes. -/
def escapeDouble (c : Char) : List Char :=
  match c with
  | '"' => ['\\', '"']
  | '\\' => ['\\', '\\']
  | '\x00' => ['\\', '0']
  | '\x07' => ['\\', 'a']
  | '\x08' => ['\\', 'b']
  | '\t' => ['\\', 't']
  | '\n' => ['\\', 'n']
  | '\x0b' => ['\\', 'v']
  | '\x0c' => ['\\', 'f']
  | '\r' => ['\\', 'r']
  | '\x1b' => ['\\', 'e']
  | '\u0085' => ['\\', 'N']
  | '\u2028' => ['\\', 'L']
  | '\u2029' => ['\\', 'P']
  | c =>
    if isPrintable c then [c]
    else if c.toNat ≤ 0xFF then '\\' :: 'x' :: hexNumber 2 c.toNat
    else if c.toNat ≤ 0xFFFF then '\\' :: 'u' :: hexNumber 4 c.toNat
    else '\\' :: 'U' :: hexNumber 8 c.toNat

/-- A text in double quotes. -/
def doubleQuoted (cs : List Char) : List Char := '"' :: (cs.flatMap escapeDouble ++ ['"'])

/-- The spaces in front of a line. -/
def spaces (n : Nat) : List Char := List.replicate n ' '

/-- The start of a line. -/
def newLine (indent : Nat) : List Char := '\n' :: spaces indent

/-- A text between single quotes; what follows its line breaks is indented. -/
def escapeSingle (indent : Nat) : List Char → List Char
  | [] => []
  | c :: rest =>
    (if c = '\'' then ['\'', '\'']
      else if isBreak c && !rest.head?.any isBreak then c :: spaces indent
      else [c]) ++ escapeSingle indent rest

/-- A text in single quotes. -/
def singleQuoted (indent : Nat) (cs : List Char) : List Char :=
  '\'' :: (escapeSingle indent cs ++ ['\''])

/-- The lines of a literal scalar; an empty line is not indented. -/
def literalLines (indent : Nat) (fresh : Bool) : List Char → List Char
  | [] => []
  | c :: rest =>
    if isBreak c then c :: literalLines indent true rest
    else (if fresh then spaces indent else []) ++ c :: literalLines indent false rest

/-- The marks of a literal scalar: an indentation that does not show, and the breaks at the end. -/
def literalMarks (cs : List Char) : List Char :=
  let first := if cs.head?.any (fun c => c = ' ' || isBreak c) then ['2'] else []
  let last := match cs.reverse with
    | [] => ['-']
    | [c] => if isBreak c then ['+'] else ['-']
    -- without a mark exactly one line break is kept at the end
    | c :: d :: _ => if !isBreak c then ['-'] else if isBreak d then ['+'] else []
  first ++ last

/-- A text as a literal scalar. -/
def literal (indent : Nat) (cs : List Char) : List Char :=
  '|' :: (literalMarks cs ++ '\n' :: literalLines indent true cs)

/-- A text as a scalar; the key of an entry stays on its line. -/
def writeText (isKey : Bool) (indent : Nat) (s : String) : List Char :=
  let cs := s.toList
  if cs.contains '\n' then
    -- a key stays on its line, and a literal scalar may not end in a space
    if isKey || needsEscapes cs || cs.getLast? = some ' ' then doubleQuoted cs
    else literal indent cs
  else if isAmbiguous s || !mayBePlain cs then
    if mayBeSingle cs && !(isKey && cs.any isBreak) then singleQuoted indent cs
    else doubleQuoted cs
  else cs

/-! ## Values -/

/-- The text of what fits on one line. -/
def writeScalar (isKey : Bool) (indent : Nat) : Yaml → Option (List Char)
  | .null => some "null".toList
  | .bool b => some (if b then "true" else "false").toList
  | .number n => some (n.write .document)
  | .text s => some (writeText isKey indent s)
  | .sequence [] => some "[]".toList
  | .mapping [] => some "\x7b\x7d".toList
  | _ => none

/-- A tag. -/
def writeTag (tag : String) : List Char :=
  let byte (b : UInt8) : List Char :=
    let c := Char.ofNat b.toNat
    if c.isAlphanum || "-_;/?:@&=+$,.~*'()[]".toList.contains c then [c]
    else '%' :: hexNumber 2 b.toNat
  '!' :: tag.toUTF8.toList.flatMap byte

/-- The longest key, in bytes, that stands on the line of its value. -/
def maxKey : Nat := 128

/-- The text of a key that stands on the line of its value. -/
def writeKey (indent : Nat) (k : Yaml) : Option (List Char) :=
  match k with
  | .text s =>
    if s.toList.any isBreak || maxKey < s.utf8ByteSize then none else writeScalar true indent k
  | _ => writeScalar true indent k

/-- Where a value stands. -/
inductive Spot where
  | top
  /-- After the mark of an item, or of a key or value that stands by itself. -/
  | item
  /-- After a key. -/
  | value
deriving DecidableEq

/-- The column of the lines of a collection inside one at column `indent`. -/
def inner (spot : Spot) (flat : Bool) (indent : Nat) : Nat :=
  match spot with
  | .top => indent
  | .item => indent + 2
  | .value => if flat then indent else indent + 2

/-- What separates a scalar from what is before it. -/
def lead (spot : Spot) : List Char := if spot = .top then [] else [' ']

/-- What separates a collection from what is before it. -/
def opening (spot : Spot) (tagged : Bool) (column : Nat) : List Char :=
  if tagged || spot = .value then newLine column else lead spot

mutual

/-- A value inside a collection at column `indent`. -/
def writeAt (spot : Spot) (tagged : Bool) (indent : Nat) : Yaml → List Char
  | .tagged tag v => lead spot ++ writeTag tag ++ writeAt spot true indent v
  | .sequence items =>
    if items.isEmpty then (if tagged then [' '] else lead spot) ++ ['[', ']']
    else
      let column := inner spot true indent
      opening spot tagged column ++ writeItems column items
  | .mapping entries =>
    if entries.isEmpty then (if tagged then [' '] else lead spot) ++ ['\x7b', '\x7d']
    else
      let column := inner spot false indent
      opening spot tagged column ++ writeEntries column entries
  | v => (if tagged then [' '] else lead spot) ++ (writeScalar false (indent + 2) v).getD []

/-- The lines of a sequence at a column. -/
def writeItems (column : Nat) : List Yaml → List Char
  | [] => []
  | v :: rest =>
    '-' :: (writeAt .item false column v ++ (if rest.isEmpty then [] else newLine column) ++
      writeItems column rest)

/-- The lines of a mapping at a column. -/
def writeEntries (column : Nat) : List (Yaml × Yaml) → List Char
  | [] => []
  | (k, v) :: rest =>
    (match writeKey (column + 2) k with
      | some key => key ++ ':' :: writeAt .value false column v
      | none =>
        -- a key that is not simple stands by itself
        '?' :: (writeAt .item false column k ++ newLine column ++
          ':' :: writeAt .item false column v)) ++
      (if rest.isEmpty then [] else newLine column) ++ writeEntries column rest

end

/-- A value as a document, without a line break at the end. -/
def render (v : Yaml) : String := Text.trimmed (String.ofList (writeAt .top false 0 v))

end Yaml
end SignalTree
