/-!
# Base64 — binary data as text

The standard alphabet with padding.  Three bytes are written as four symbols; one or two bytes at
the end are written as two or three symbols and filled up with `=`.

* `Base64.encode`: the text of some bytes;
* `Base64.decode`: reads the one text that `encode` writes for its result, and says at which
  offset another text goes wrong.

A text is decoded in blocks of eight characters.  Padding belongs to the last block, so a `=` in
an earlier one is reported as a foreign character.
-/

namespace SignalTree
namespace Base64

/-- The value of a padding character. -/
def pad : UInt8 := 61

/-- The character code of a six-bit number. -/
def symbol (n : Nat) : UInt8 :=
  if n < 26 then UInt8.ofNat (65 + n)
  else if n < 52 then UInt8.ofNat (97 + (n - 26))
  else if n < 62 then UInt8.ofNat (48 + (n - 52))
  else if n = 62 then 43
  else 47

/-- The six-bit number of a character code. -/
def bits? (b : UInt8) : Option Nat :=
  let n := b.toNat
  if 65 ≤ n && n ≤ 90 then some (n - 65)
  else if 97 ≤ n && n ≤ 122 then some (n - 97 + 26)
  else if 48 ≤ n && n ≤ 57 then some (n - 48 + 52)
  else if n = 43 then some 62
  else if n = 47 then some 63
  else none

def encodeCodes : List UInt8 → List UInt8
  | [] => []
  | [a] =>
    let n := a.toNat * 16
    [symbol (n / 64), symbol (n % 64), pad, pad]
  | [a, b] =>
    let n := (a.toNat * 256 + b.toNat) * 4
    [symbol (n / 4096), symbol (n / 64 % 64), symbol (n % 64), pad]
  | a :: b :: c :: rest =>
    let n := (a.toNat * 256 + b.toNat) * 256 + c.toNat
    symbol (n / 262144) :: symbol (n / 4096 % 64) :: symbol (n / 64 % 64)
      :: symbol (n % 64) :: encodeCodes rest

def encode (bytes : List UInt8) : List Char := (encodeCodes bytes).map fun b => Char.ofNat b.toNat

/-! ## Decoding -/

/-- Why a text is not the text of some bytes. -/
inductive Fault where
  /-- A character that may not stand at this offset. -/
  | byte (offset : Nat) (code : UInt8)
  /-- A single symbol is left over. -/
  | length
  /-- The last symbol has bits that belong to no byte. -/
  | lastSymbol (offset : Nat) (code : UInt8)
  /-- The padding is missing or too short. -/
  | padding
deriving DecidableEq, Repr

def Fault.message : Fault → String
  | .byte offset code => s!"Invalid byte {code.toNat}, offset {offset}."
  | .length => "Encoded text cannot have a 6-bit remainder."
  | .lastSymbol offset code => s!"Invalid last symbol {code.toNat}, offset {offset}."
  | .padding => "Invalid padding"

/-- The numbers of the symbols of a block without padding. -/
def readSymbols (offset : Nat) : List UInt8 → Except Fault (List Nat)
  | [] => .ok []
  | b :: rest =>
    match bits? b with
    | none => .error (.byte offset b)
    | some n => (readSymbols (offset + 1) rest).map (n :: ·)

/-- What has been read of the last block. -/
structure LastBlock where
  /-- The numbers of the symbols so far. -/
  symbols : List Nat
  /-- The number of padding characters so far. -/
  pads : Nat
  /-- Where the first padding character stands in the block. -/
  firstPad : Nat
  /-- The code of the last symbol. -/
  last : UInt8

/-- Reads the last block, from place `i` in it.  Padding may start after two or three symbols of
four, and nothing but padding may follow it. -/
def readLastBlock (offset : Nat) : Nat → LastBlock → List UInt8 → Except Fault LastBlock
  | _, block, [] => .ok block
  | i, block, b :: rest =>
    if b = pad then
      -- two symbols at least make up a byte
      if i % 4 < 2 then
        .error (.byte (offset + if 0 < block.pads then block.firstPad else i) b)
      else
        readLastBlock offset (i + 1)
          { block with
            pads := block.pads + 1
            firstPad := if block.pads = 0 then i else block.firstPad } rest
    -- a symbol after padding is blamed on the padding
    else if 0 < block.pads then .error (.byte (offset + block.firstPad) pad)
    else
      match bits? b with
      | none => .error (.byte (offset + i) b)
      | some n =>
        readLastBlock offset (i + 1)
          { block with symbols := block.symbols ++ [n], last := b } rest

/-- The bytes of some symbols, whole bytes only. -/
def bytesOf : List Nat → List UInt8
  | a :: b :: c :: d :: rest =>
    let n := ((a * 64 + b) * 64 + c) * 64 + d
    UInt8.ofNat (n / 65536) :: UInt8.ofNat (n / 256) :: UInt8.ofNat n :: bytesOf rest
  | [a, b, c] =>
    let n := (a * 64 + b) * 64 + c
    [UInt8.ofNat (n / 1024), UInt8.ofNat (n / 4)]
  | [a, b] => [UInt8.ofNat ((a * 64 + b) / 16)]
  | _ => []

/-- Whether the last symbol has bits set beyond the last whole byte. -/
def hasLooseBits (symbols : List Nat) : Bool :=
  match symbols.length % 4, symbols.getLast? with
  | 2, some n => n % 16 != 0
  | 3, some n => n % 4 != 0
  | _, _ => false

def decodeCodes (codes : List UInt8) : Except Fault (List UInt8) := do
  if codes.length % 4 = 1 then
    match codes.getLast? with
    | some b => if b != pad && (bits? b).isNone then throw (.byte (codes.length - 1) b)
    | none => pure ()
    throw .length
  -- the last block has eight characters at most, and one at least if there are any
  let start := (codes.length - 1) / 8 * 8
  let front ← readSymbols 0 (codes.take start)
  let block ← readLastBlock start 0 ⟨[], 0, 0, 0⟩ (codes.drop start)
  if (block.pads + block.symbols.length) % 4 ≠ 0 then throw .padding
  if hasLooseBits block.symbols then
    throw (.lastSymbol (start + block.symbols.length - 1) block.last)
  return bytesOf (front ++ block.symbols)

/-- Decodes a text; its characters count with the bytes of their UTF-8 form. -/
def decode (s : String) : Except Fault (List UInt8) := decodeCodes s.toUTF8.toList

end Base64
end SignalTree
