import SignalTree.Json

/-!
# Reader — from text to a value

`Json.read` accepts the notation strictly: no comments, no comma at an end, no leading zeros, no
lone halves of a surrogate pair, and no more than 127 arrays and objects inside one another.

A number without point and exponent that fits into 64 bits is kept as a whole number.  For any
other, as many digits as fit into 64 bits are collected and scaled by one power of ten, so the
result may differ from the nearest real number in its last place; a number too large for the
format is refused.
-/

namespace SignalTree
namespace Json

/-- How deep arrays and objects may stand in one another. -/
def maxDepth : Nat := 127

def isSpace (c : Char) : Bool := c = ' ' || c = '\t' || c = '\n' || c = '\r'

def skip (cs : List Char) : List Char := cs.dropWhile isSpace

/-! ## Numbers -/

/-- The exponent range of a single power of ten. -/
def maxPower : Nat := 308

/-- Digits collected below `2^64`, and the exponent of ten that goes with them. -/
structure Scaled where
  significand : Nat
  exponent : Int

/-- Collects whole digits.  Once one more would not fit, the others count as powers of ten. -/
def collectWhole (acc : Scaled) : List Char → Scaled
  | [] => acc
  | c :: rest =>
    let n := 10 * acc.significand + (Numeral.digit? c).getD 0
    -- this digit and all after it count as zeros
    if Numeral.maxUnsigned < n then { acc with exponent := acc.exponent + (rest.length + 1 : Nat) }
    else collectWhole { acc with significand := n } rest

/-- Collects digits after the point.  Once one more would not fit, the others are dropped. -/
def collectPart (acc : Scaled) : List Char → Scaled
  | [] => acc
  | c :: rest =>
    let n := 10 * acc.significand + (Numeral.digit? c).getD 0
    if Numeral.maxUnsigned < n then acc
    else collectPart ⟨n, acc.exponent - 1⟩ rest

/-- The real number nearest to `10^k`, as a whole number. -/
def power (k : Nat) : Nat := (Real64.ofNat false (Nat.pow 10 k)).magnitude >>> 1074

/-- Scales down in steps that the format can hold. -/
def scaleDown (x : Real64) : Nat → Nat → Real64
  | 0, _ => x
  | steps + 1, k =>
    if k ≤ maxPower then x.divNat (power k)
    else scaleDown (x.divNat (power maxPower)) steps (k - maxPower)

/-- The real number of some collected digits; none if it is too large. -/
def Scaled.real? (s : Scaled) (negative : Bool) : Option Real64 :=
  let x := Real64.ofNat negative s.significand
  let y :=
    if 0 ≤ s.exponent then
      -- a zero stays one, however large its exponent
      if s.significand = 0 then x
      -- no finite number is as large as this
      else if maxPower < s.exponent.toNat then .infinite negative
      else x.mulNat (power s.exponent.toNat)
    -- three steps go below the least number of the format
    else scaleDown x 3 (-s.exponent).toNat
  if y.isFinite then some y else none

/-- A whole number that is kept as one. -/
def wholeNumber (negative : Bool) (n : Nat) : Number :=
  if !negative then .natural (UInt64.ofNat n)
  -- the negative zero is no whole number, and neither is what has no 64-bit form
  else if n = 0 || Numeral.maxSigned + 1 < n then .real (Real64.ofNat true n)
  else .negative (Int64.ofInt (-n))

/-- Reads a number after its sign. -/
def readNumber (negative : Bool) (cs : List Char) : Option (Number × List Char) := do
  let whole := cs.takeWhile Char.isDigit
  let rest := cs.dropWhile Char.isDigit
  -- a zero may not lead other digits
  if whole.isEmpty || (1 < whole.length && whole.head? = some '0') then none
  let start := collectWhole ⟨0, 0⟩ whole
  let (digits, rest, plain) ← match rest with
    | '.' :: after =>
      let part := after.takeWhile Char.isDigit
      if part.isEmpty then none
      else some (collectPart start part, after.dropWhile Char.isDigit, false)
    -- without a point the number is whole if all its digits were collected
    | rest => some (start, rest, start.exponent == 0)
  let exponentOf (after : List Char) : Option (Number × List Char) := do
    let (down, after) := Real64.splitSign after
    let ds := after.takeWhile Char.isDigit
    if ds.isEmpty then none
    let e : Int := Numeral.value 0 ds
    let e := if down then -e else e
    let x ← { digits with exponent := digits.exponent + e : Scaled }.real? negative
    some (.real x, after.dropWhile Char.isDigit)
  match rest with
  | 'e' :: after => exponentOf after
  | 'E' :: after => exponentOf after
  | rest =>
    if plain then some (wholeNumber negative digits.significand, rest)
    else
      let x ← digits.real? negative
      some (.real x, rest)

/-! ## Texts -/

def hex4 (a b c d : Char) : Option Nat := do
  let digit (c : Char) : Option Nat :=
    if c.isDigit then some (c.toNat - 48)
    else if 'a' ≤ c && c ≤ 'f' then some (c.toNat - 87)
    else if 'A' ≤ c && c ≤ 'F' then some (c.toNat - 55)
    else none
  let a ← digit a
  let b ← digit b
  let c ← digit c
  let d ← digit d
  some (((a * 16 + b) * 16 + c) * 16 + d)

/-- The character of an escape by number; a high surrogate needs its low one. -/
def readUnit (a b c d : Char) (rest : List Char) : Option (Char × List Char) := do
  let n ← hex4 a b c d
  -- a low half may not come first
  if 0xDC00 ≤ n && n ≤ 0xDFFF then none
  else if 0xD800 ≤ n && n ≤ 0xDBFF then
    match rest with
    | '\\' :: 'u' :: a :: b :: c :: d :: rest => do
      let low ← hex4 a b c d
      if 0xDC00 ≤ low && low ≤ 0xDFFF then
        -- ten bits from each half, counted from the end of the basic plane
        some (Char.ofNat ((n - 0xD800) * 0x400 + (low - 0xDC00) + 0x10000), rest)
      else none
    | _ => none
  else some (Char.ofNat n, rest)

/-- The character of an escape, after its backslash. -/
def readEscape : List Char → Option (Char × List Char)
  | '"' :: rest => some ('"', rest)
  | '\\' :: rest => some ('\\', rest)
  | '/' :: rest => some ('/', rest)
  | 'b' :: rest => some ('\x08', rest)
  | 'f' :: rest => some ('\x0c', rest)
  | 'n' :: rest => some ('\n', rest)
  | 'r' :: rest => some ('\r', rest)
  | 't' :: rest => some ('\t', rest)
  | 'u' :: a :: b :: c :: d :: rest => readUnit a b c d rest
  | _ => none

/-- Reads a text after its opening quote, up to and including the closing one. -/
def readText : Nat → List Char → Option (List Char × List Char)
  | 0, _ => none
  | fuel + 1, cs =>
    match cs with
    | [] => none
    | '"' :: rest => some ([], rest)
    | '\\' :: rest => do
      let (c, rest) ← readEscape rest
      let (s, rest) ← readText fuel rest
      some (c :: s, rest)
    | c :: rest =>
      if c.toNat < 0x20 then none
      else do
        let (s, rest) ← readText fuel rest
        some (c :: s, rest)

/-! ## Values -/

mutual

/-- Reads a value; `depth` more levels may be opened. -/
def readValue : Nat → Nat → List Char → Option (Json × List Char)
  | 0, _, _ => none
  | fuel + 1, depth, cs =>
    match skip cs with
    | 'n' :: 'u' :: 'l' :: 'l' :: rest => some (.null, rest)
    | 't' :: 'r' :: 'u' :: 'e' :: rest => some (.bool true, rest)
    | 'f' :: 'a' :: 'l' :: 's' :: 'e' :: rest => some (.bool false, rest)
    | '"' :: rest => do
      let (s, rest) ← readText (rest.length + 1) rest
      some (.text (String.ofList s), rest)
    | '[' :: rest =>
      match depth with
      | 0 => none
      | depth + 1 =>
        match skip rest with
        | ']' :: rest => some (.array [], rest)
        | rest => do
          let (items, rest) ← readItems fuel depth rest
          some (.array items, rest)
    | '\x7b' :: rest =>
      match depth with
      | 0 => none
      | depth + 1 =>
        match skip rest with
        | '\x7d' :: rest => some (.object [], rest)
        | rest => do
          let (members, rest) ← readMembers fuel depth rest
          some (.object members, rest)
    | '-' :: rest => do
      let (n, rest) ← readNumber true rest
      some (.number n, rest)
    | rest => do
      let (n, rest) ← readNumber false rest
      some (.number n, rest)

def readItems : Nat → Nat → List Char → Option (List Json × List Char)
  | 0, _, _ => none
  | fuel + 1, depth, cs => do
    let (j, rest) ← readValue fuel depth cs
    match skip rest with
    | ',' :: rest => do
      let (items, rest) ← readItems fuel depth rest
      some (j :: items, rest)
    | ']' :: rest => some ([j], rest)
    | _ => none

def readMembers : Nat → Nat → List Char → Option (List (String × Json) × List Char)
  | 0, _, _ => none
  | fuel + 1, depth, cs =>
    match skip cs with
    | '"' :: rest => do
      let (key, rest) ← readText (rest.length + 1) rest
      match skip rest with
      | ':' :: rest => do
        let (j, rest) ← readValue fuel depth rest
        match skip rest with
        | ',' :: rest => do
          let (members, rest) ← readMembers fuel depth rest
          some ((String.ofList key, j) :: members, rest)
        | '\x7d' :: rest => some ([(String.ofList key, j)], rest)
        | _ => none
      | _ => none
    | _ => none

end

/-- Reads a whole text as one value.  Repeated keys are kept as written. -/
def read (cs : List Char) : Option Json := do
  -- every step that costs fuel comes with a character, two of them at most with the same one
  let (j, rest) ← readValue (2 * cs.length + 2) maxDepth cs
  if (skip rest).isEmpty then some j else none

end Json
end SignalTree
