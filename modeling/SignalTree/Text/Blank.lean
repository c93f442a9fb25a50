/-!
# Blank — white space, control characters and trimming

Texts from files and from the wire are trimmed before they are read.  This file fixes

* `Text.isBlank`: the characters of the Unicode property `White_Space`;
* `Text.isControl`: the characters of the general category `Cc`;
* `Text.trim`: a text without the blanks at its two ends.
-/

namespace SignalTree
namespace Text

/-- The Unicode property `White_Space`.  Zero-width characters are not in it. -/
def isBlank (c : Char) : Bool :=
  let n := c.toNat
  (0x09 ≤ n && n ≤ 0x0D) || n == 0x20 || n == 0x85 || n == 0xA0 || n == 0x1680 ||
    (0x2000 ≤ n && n ≤ 0x200A) || n == 0x2028 || n == 0x2029 || n == 0x202F ||
    n == 0x205F || n == 0x3000

/-- The control characters, general category `Cc`. -/
def isControl (c : Char) : Bool :=
  let n := c.toNat
  n < 0x20 || (0x7F ≤ n && n ≤ 0x9F)

def trimLeft (cs : List Char) : List Char := cs.dropWhile isBlank

def trimRight (cs : List Char) : List Char := (cs.reverse.dropWhile isBlank).reverse

def trim (cs : List Char) : List Char := trimRight (trimLeft cs)

def trimmed (s : String) : String := String.ofList (trim s.toList)

def blank (s : String) : Bool := s.toList.all isBlank

/-- The ASCII letters in lower case; every other character is kept. -/
def lowered (s : String) : String := String.ofList (s.toList.map Char.toLower)

end Text
end SignalTree
