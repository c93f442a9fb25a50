import SignalTree.Yaml.Token

/-!
# Scalar — the texts of plain, quoted and block scalars

A plain or quoted scalar may go over several lines.  Its lines are joined: the blanks around a line
break do not count, a single break is a space, and of several the first is dropped.

* `readPlain`: a scalar without quotes, which ends at the first thing that cannot belong to it;
* `readQuoted`: a scalar in single or double quotes;
* `readBlock`: a literal or folded scalar, which ends with its indentation.
-/

namespace SignalTree
namespace Yaml

/-! ## Between two words -/

structure Gap where
  /-- The blanks, as long as the line goes on. -/
  blanks : List Char
  /-- Whether the line has ended. -/
  ended : Bool
  /-- How it has ended; a line break that is escaped is not kept. -/
  first : Option Char
  /-- The line breaks after that. -/
  more : List Char

namespace Gap

/-- Nothing between two words. -/
def none : Gap := ⟨[], false, .none, []⟩

/-- An escaped line break. -/
def escaped : Gap := ⟨[], true, .none, []⟩

/-- What a gap adds to the text. -/
def text (g : Gap) : List Char :=
  if !g.ended then g.blanks
  else match g.first with
    | some '\n' => if g.more.isEmpty then [' '] else g.more
    | some c => c :: g.more
    | .none => g.more

end Gap

/-- Goes on to the next word.  A tab may not stand in the indentation, up to column `indent`. -/
def readGap (indent : Nat) (p : Place) (g : Gap) : List Char → Option (Gap × Cursor)
  | [] => some (g, ⟨p, []⟩)
  | c :: rest =>
    if isBlank c then
      if g.ended then
        -- a tab inside the indentation
        if c = '\t' && p.column < indent then none
        else readGap indent (p.after c) g rest
      else readGap indent (p.after c) { g with blanks := g.blanks ++ [c] } rest
    else if isBreak c then
      if g.ended then readGap indent (p.after c) { g with more := g.more ++ [c] } rest
      else readGap indent (p.after c) ⟨[], true, some c, []⟩ rest
    else some (g, ⟨p, c :: rest⟩)

/-! ## Plain scalars -/

/-- The marks of flow collections. -/
def isFlowMark (c : Char) : Bool := c = ',' || c = '[' || c = ']' || c = '\x7b' || c = '\x7d'

/-- Reads a word of a plain scalar.  In a flow collection no colon may stand before a mark. -/
def readWord (flow : Bool) (p : Place) : List Char → Option (List Char × Cursor)
  | [] => some ([], ⟨p, []⟩)
  | c :: rest =>
    if isBlank c || isBreak c then some ([], ⟨p, c :: rest⟩)
    else if flow && c = ':' && rest.head?.any (fun d => isFlowMark d || d = '?') then none
    else if (c = ':' && gapAhead rest) || (flow && isFlowMark c) then some ([], ⟨p, c :: rest⟩)
    else (readWord flow (p.after c) rest).map fun r => (c :: r.1, r.2)

/-- Reads words and what is between them.  The result says whether a line ended after the last
word. -/
def readPlainFrom (flow : Bool) (indent : Nat) (g : Gap) :
    Nat → Cursor → Option (List Char × Bool × Cursor)
  | 0, _ => none
  | fuel + 1, c =>
    -- what was between the words is dropped: it belongs to no word
    if c.atDocumentMark || c.next? = some '#' then some ([], g.ended, c)
    else do
      let (word, c) ← readWord flow c.place c.rest
      -- only a word makes the gap before it count
      let text := if word.isEmpty then [] else g.text ++ word
      let g := if word.isEmpty then g else Gap.none
      if c.rest.isEmpty || !gapAhead c.rest then some (text, g.ended, c)
      else
        let (g, c) ← readGap indent c.place g c.rest
        if !flow && c.column < indent then some (text, g.ended, c)
        else
          let (more, ended, c) ← readPlainFrom flow indent g fuel c
          some (text ++ more, ended, c)

def readPlain (flow : Bool) (indent : Nat) (c : Cursor) : Option (String × Bool × Cursor) :=
  (readPlainFrom flow indent Gap.none (c.rest.length + 1) c).map fun r =>
    (String.ofList r.1, r.2)

/-! ## Quoted scalars -/

/-- The number of hexadecimal digits that an escape takes. -/
def escapeLength : Char → Option Nat
  | 'x' => some 2
  | 'u' => some 4
  | 'U' => some 8
  | _ => none

/-- The character of an escape without digits. -/
def escapeChar : Char → Option Char
  | '0' => some '\x00'
  | 'a' => some '\x07'
  | 'b' => some '\x08'
  | 't' => some '\t'
  | '\t' => some '\t'
  | 'n' => some '\n'
  | 'v' => some '\x0b'
  | 'f' => some '\x0c'
  | 'r' => some '\r'
  | 'e' => some '\x1b'
  | ' ' => some ' '
  | '"' => some '"'
  | '/' => some '/'
  | '\\' => some '\\'
  | 'N' => some '\u0085'
  | '_' => some '\u00a0'
  | 'L' => some '\u2028'
  | 'P' => some '\u2029'
  | _ => none

def readEscape : List Char → Option (Char × Nat)
  | [] => none
  | c :: rest =>
    match escapeLength c with
    | some n => do
      let digits := rest.take n
      if digits.length < n then none
      else
        let v ← Node.readBase 16 digits
        -- the number of a surrogate is not that of a character
        if (0xD800 ≤ v && v ≤ 0xDFFF) || 0x10FFFF < v then none else some (Char.ofNat v, n + 1)
    | none => (escapeChar c).map (·, 1)

/-- Reads a word in quotes.  The result says whether it ends in an escaped line break. -/
def readQuotedWord (single : Bool) : Nat → Cursor → Option (List Char × Bool × Cursor)
  | 0, _ => none
  | fuel + 1, c =>
    let add (ch : Char) (c : Cursor) : Option (List Char × Bool × Cursor) :=
      (readQuotedWord single fuel c).map fun r => (ch :: r.1, r.2)
    match c.rest with
    | [] => some ([], false, c)
    | ch :: rest =>
      if isBlank ch || isBreak ch then some ([], false, c)
      else if single then
        if ch ≠ '\'' then add ch c.skip
        -- two quotes stand for one
        else if rest.head? = some '\'' then add ch (c.skipMany 2)
        else some ([], false, c)
      else if ch = '"' then some ([], false, c)
      else if ch ≠ '\\' then add ch c.skip
      else if rest.head?.any isBreak then some ([], true, c.skipMany 2)
      else do
        let (e, n) ← readEscape rest
        add e (c.skipMany (n + 1))

/-- Reads words up to and including the closing quote. -/
def readQuotedFrom (single : Bool) : Nat → Cursor → Option (List Char × Cursor)
  | 0, _ => none
  | fuel + 1, c =>
    if c.atDocumentMark || c.rest.isEmpty then none
    else do
      let (word, escaped, c) ← readQuotedWord single (c.rest.length + 1) c
      if c.next? = some (if single then '\'' else '"') then some (word, c.skip)
      else
        let (g, c) ← readGap 0 c.place (if escaped then Gap.escaped else Gap.none) c.rest
        let (more, c) ← readQuotedFrom single fuel c
        some (word ++ g.text ++ more, c)

def readQuoted (single : Bool) (c : Cursor) : Option (String × Cursor) :=
  (readQuotedFrom single (c.rest.length + 1) c.skip).map fun r => (String.ofList r.1, r.2)

/-! ## Block scalars -/

/-- What happens to the line breaks at the end of a block scalar. -/
inductive Chomp where
  | strip
  | clip
  | keep
deriving DecidableEq

/-- What a mark says about the line breaks at the end. -/
def chompOf : Char → Option Chomp
  | '-' => some .strip
  | '+' => some .keep
  | _ => none

/-- Reads the marks after the indicator of a block scalar: the line breaks at the end, and the
indentation if it is given. -/
def readHeader (c : Cursor) : Option (Chomp × Option Nat × Cursor) :=
  let chomp (c : Cursor) : Option Chomp × Cursor :=
    match c.next?.bind chompOf with
    | some k => (some k, c.skip)
    | none => (none, c)
  let (first, c) := chomp c
  let (increment, c) := match c.next? with
    | some d => if d.isDigit then (some (d.toNat - 48), c.skip) else (none, c)
    | none => (none, c)
  if increment = some 0 then none
  else
    -- the two marks may come in either order, each once
    let (last, c) := if first.isSome || increment.isNone then (none, c) else chomp c
    some (((first.or last).getD .clip), increment, c)

/-- Passes over empty lines of a block scalar: their line breaks, the greatest column of the
indentation, and what comes then.  Without an indentation all spaces are passed. -/
def readEmptyLines (indent : Option Nat) (p : Place) (widest : Nat) :
    List Char → Option (List Char × Nat × Cursor)
  | [] => some ([], max widest p.column, ⟨p, []⟩)
  | c :: rest =>
    let within := indent.all (p.column < ·)
    if within && c = ' ' then readEmptyLines indent (p.after c) widest rest
    else if within && c = '\t' then none
    else if isBreak c then
      (readEmptyLines indent (p.after c) (max widest p.column) rest).map fun r => (c :: r.1, r.2)
    else some ([], max widest p.column, ⟨p, c :: rest⟩)

/-- What stands between two lines of a block scalar; `ending` is the end of the first and `empty`
are the empty lines between. -/
def joinLines (folded blankBefore blankAfter : Bool) (ending empty : List Char) : List Char :=
  -- lines that start with a blank are not folded, nor those next to one
  if folded && ending = ['\n'] && !blankBefore && !blankAfter then
    if empty.isEmpty then [' '] else empty
  else ending ++ empty

/-- Reads the lines of a block scalar from column `indent` on. -/
def readLines (folded : Bool) (indent : Nat) (blankBefore : Bool) (ending empty : List Char) :
    Nat → Cursor → Option (List Char × List Char × List Char × Cursor)
  | 0, _ => none
  | fuel + 1, c =>
    match c.next? with
    | none => some ([], ending, empty, c)
    | some ch =>
      if c.column ≠ indent then some ([], ending, empty, c)
      else do
        let blank := isBlank ch
        let joint := joinLines folded blankBefore blank ending empty
        let (line, c) := c.takeWhile (!isBreak ·)
        let (ending, c) := (c.rest.take 1, c.skip)
        let (empty, _, c) ← readEmptyLines (some indent) c.place 0 c.rest
        let (more, ending, empty, c) ← readLines folded indent blank ending empty fuel c
        some (joint ++ line ++ more, ending, empty, c)

/-- Reads a block scalar from its indicator on.  `parent` is the column of the collection around
it, if there is one. -/
def readBlock (folded : Bool) (parent : Option Nat) (c : Cursor) : Option (String × Cursor) := do
  let (chomp, increment, c) ← readHeader c.skip
  let c ← c.endLine
  let given := increment.map fun n => parent.getD 0 + n
  let (empty, widest, c) ← readEmptyLines given c.place 0 c.rest
  let least := match parent with
    | some n => n + 1
    | none => 1
  -- without a mark the first line that is not empty sets the indentation
  let indent := given.getD (max widest least)
  let (body, ending, empty, c) ← readLines folded indent false [] empty (c.rest.length + 1) c
  let tail := match chomp with
    | .strip => []
    | .clip => ending
    | .keep => ending ++ empty
  some (String.ofList (body ++ tail), c)

end Yaml
end SignalTree
