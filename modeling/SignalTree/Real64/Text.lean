import SignalTree.Real64.Shortest
import SignalTree.Numeral.Integer

/-!
# Text — real numbers as text

The digits of a number are settled by `Real64.shortest`; a `Real64.Layout` says how they are laid
out.  Reading accepts digits with an optional point and an optional exponent, and the words for
infinity and `nan`, and rounds once.
-/

namespace SignalTree
namespace Real64

/-- How real numbers are written. -/
structure Layout where
  /-- The text of `nan`. -/
  nan : String
  /-- The text of an infinity, after its sign. -/
  infinity : String
  /-- Positional from here: the least place of the point, counted from the first digit. -/
  least : Option Int
  /-- Positional up to here: the greatest place of the point. -/
  most : Option Int
  /-- Whether a whole number ends in `.0`. -/
  fraction : Bool
  /-- Whether an exponent that is not negative has a sign. -/
  plus : Bool
  /-- Which of two equally near decimals is written. -/
  tie : Tie

/-- Real values: always positional, and a whole number has no point. -/
def Layout.plain : Layout where
  nan := "NaN"
  infinity := "inf"
  least := none
  most := none
  fraction := false
  plus := false
  tie := .up

/-- Numbers in structured documents: a whole number shows its point, and an exponent is written
where the point would stand before the fourth zero or after the sixteenth digit. -/
def Layout.document : Layout where
  nan := ".nan"
  infinity := ".inf"
  least := some (-4)
  most := some 16
  fraction := true
  plus := false
  tie := .even

/-- Whether a number with the point at place `point` is written positionally. -/
def Layout.positional (l : Layout) (point : Int) : Bool :=
  l.least.all (· ≤ point) && l.most.all (point ≤ ·)

/-- The digits with the point put in at its place. -/
def positionalText (fraction : Bool) (ds : List Char) (exponent : Int) : List Char :=
  let point : Int := ds.length + exponent
  if 0 ≤ exponent then
    ds ++ List.replicate exponent.toNat '0' ++ (if fraction then ['.', '0'] else [])
  else if 0 < point then ds.take point.toNat ++ '.' :: ds.drop point.toNat
  else '0' :: '.' :: (List.replicate (-point).toNat '0' ++ ds)

/-- The digits with the point after the first, and an exponent. -/
def exponentText (plus : Bool) (ds : List Char) (exponent : Int) : List Char :=
  let point : Int := ds.length + exponent
  let head := match ds with
    | [] => []
    | [d] => [d]
    | d :: rest => d :: '.' :: rest
  let sign := if plus && 1 ≤ point then ['+'] else []
  head ++ 'e' :: (sign ++ Numeral.signedDigits (point - 1))

def Layout.decimal (l : Layout) (d : Decimal) : List Char :=
  let ds := Numeral.digits d.coefficient
  if l.positional (ds.length + d.exponent) then positionalText l.fraction ds d.exponent
  else exponentText l.plus ds d.exponent

def write (l : Layout) : Real64 → List Char
  | .nan => l.nan.toList
  | .infinite s => (if s then ['-'] else []) ++ l.infinity.toList
  | .finite s m e _ => (if s then ['-'] else []) ++ l.decimal (shortest l.tie m e)

/-! ## Reading -/

/-- Why a text is not a real number. -/
inductive Fault where
  | empty
  | malformed
deriving DecidableEq, Repr

def Fault.message : Fault → String
  | .empty => "cannot parse float from empty string"
  | .malformed => "invalid float literal"

/-- A sign in front, and the rest. -/
def splitSign : List Char → Bool × List Char
  | '-' :: rest => (true, rest)
  | '+' :: rest => (false, rest)
  | cs => (false, cs)

/-- The exponent after a number's digits: nothing, or a marker with at least one digit. -/
def readExponent : List Char → Option Int
  | [] => some 0
  | c :: rest =>
    if c = 'e' || c = 'E' then
      let (negative, ds) := splitSign rest
      if ds.isEmpty || !ds.all Char.isDigit then none
      else
        let n : Int := Numeral.value 0 ds
        some (if negative then -n else n)
    else none

/-- The digits of a number: before the point, after it, and what follows. -/
def splitDigits (cs : List Char) : List Char × List Char × List Char :=
  let whole := cs.takeWhile Char.isDigit
  match cs.dropWhile Char.isDigit with
  | '.' :: rest => (whole, rest.takeWhile Char.isDigit, rest.dropWhile Char.isDigit)
  | rest => (whole, [], rest)

/-- Reads the number after its sign. -/
def readUnsigned (negative : Bool) (cs : List Char) : Except Fault Real64 :=
  let word := cs.map Char.toLower
  if word = "inf".toList || word = "infinity".toList then .ok (.infinite negative)
  else if word = "nan".toList then .ok .nan
  else
    let (whole, part, rest) := splitDigits cs
    if whole.isEmpty && part.isEmpty then .error .malformed
    else match readExponent rest with
      | none => .error .malformed
      | some e =>
        .ok (ofDecimal negative (Numeral.value 0 (whole ++ part)) (e - (part.length : Int)))

def read (cs : List Char) : Except Fault Real64 :=
  if cs.isEmpty then .error .empty
  else
    let (negative, rest) := splitSign cs
    readUnsigned negative rest

end Real64
end SignalTree
