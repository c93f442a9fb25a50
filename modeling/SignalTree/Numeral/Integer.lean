/-!
# Integer — decimal text of 64-bit integers

* `Numeral.digits`: the decimal digits of a natural number;
* `Numeral.readUnsigned`, `Numeral.readSigned`: the readers, an optional sign and then digits;
* `IntegerFault`: why a text is no such number.

Digits are read from the left, and the first fault met on the way is the one reported: a letter
after too many digits is never looked at.
-/

namespace SignalTree

/-- Why a text is not a 64-bit integer. -/
inductive IntegerFault where
  | empty
  | digit
  | tooLarge
  | tooSmall
deriving DecidableEq, Repr

namespace IntegerFault

def message : IntegerFault → String
  | empty => "cannot parse integer from empty string"
  | digit => "invalid digit found in string"
  | tooLarge => "number too large to fit in target type"
  | tooSmall => "number too small to fit in target type"

end IntegerFault

namespace Numeral

/-- The value of a decimal digit. -/
def digit? (c : Char) : Option Nat :=
  if c.isDigit then some (c.toNat - '0'.toNat) else none

/-- The decimal digits of a number, the highest first. -/
def digits (n : Nat) : List Char := Nat.toDigits 10 n

/-- The decimal digits of an integer, after a minus sign when it is negative. -/
def signedDigits : Int → List Char
  | .ofNat n => digits n
  | .negSucc n => '-' :: digits (n + 1)

/-- The value of a run of digits, read on from `acc`; other characters count as zero. -/
def value (acc : Nat) (cs : List Char) : Nat :=
  cs.foldl (fun v c => 10 * v + (digit? c).getD 0) acc

/-- Reads digits on from `acc`.  The value may not exceed `limit`. -/
def readDigits (limit acc : Nat) : List Char → Except IntegerFault Nat
  | [] => .ok acc
  | c :: rest =>
    match digit? c with
    | none => .error .digit
    | some d =>
      if limit < 10 * acc + d then .error .tooLarge else readDigits limit (10 * acc + d) rest

/-- Reads at least one digit. -/
def readMagnitude (limit : Nat) : List Char → Except IntegerFault Nat
  | [] => .error .digit
  | cs => readDigits limit 0 cs

def maxUnsigned : Nat := 0xFFFFFFFFFFFFFFFF

def maxSigned : Nat := 0x7FFFFFFFFFFFFFFF

/-- Reads an unsigned integer; a plus sign may stand in front. -/
def readUnsigned : List Char → Except IntegerFault UInt64
  | [] => .error .empty
  | '+' :: rest => (readMagnitude maxUnsigned rest).map UInt64.ofNat
  | cs => (readMagnitude maxUnsigned cs).map UInt64.ofNat

/-- Reads a signed integer; either sign may stand in front. -/
def readSigned : List Char → Except IntegerFault Int64
  | [] => .error .empty
  | '+' :: rest => (readMagnitude maxSigned rest).map Int64.ofNat
  | '-' :: rest =>
    match readMagnitude (maxSigned + 1) rest with
    | .ok n => .ok (Int64.ofInt (-n))
    | .error .tooLarge => .error .tooSmall
    | .error fault => .error fault
  | cs => (readMagnitude maxSigned cs).map Int64.ofNat

end Numeral
end SignalTree
