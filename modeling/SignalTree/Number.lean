import SignalTree.Real64.Text

/-!
# Number — the numbers of structured documents

A document writes numbers without saying of which kind they are.  What is written as a whole
number and fits into 64 bits is kept as such; everything else is a real number.
-/

namespace SignalTree

/-- A number of a document. -/
inductive Number where
  /-- A whole number that is not negative. -/
  | natural (n : UInt64)
  /-- A negative whole number. -/
  | negative (i : Int64)
  /-- Any other number. -/
  | real (x : Real64)
deriving DecidableEq

namespace Number

/-- Whether two numbers are the same.  The two zeros are, and a document has only one `nan`. -/
def same : Number → Number → Bool
  | .natural a, .natural b => a == b
  | .negative a, .negative b => a == b
  | .real a, .real b => (a.isNaN && b.isNaN) || a.equal b
  | _, _ => false

def write (layout : Real64.Layout) : Number → List Char
  | .natural n => Numeral.digits n.toNat
  | .negative i => Numeral.signedDigits i.toInt
  | .real x => x.write layout

end Number
end SignalTree
