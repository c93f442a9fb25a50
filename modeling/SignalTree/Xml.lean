/-!
# Xml — documents as trees

* `Xml.Node`: an element with its attributes and children, a text, or a remark (a comment or a
  processing instruction);
* `Xml.escape`: how a character stands in a text or an attribute;
* `Xml.isChar`, `Xml.isNameStart`, `Xml.isName`: the characters of documents and of names.

Elements are known by their local names, whatever their namespace; of the attributes only those
without a namespace are kept.
-/

namespace SignalTree
namespace Xml

/-- A part of a document. -/
inductive Node where
  | element (name : String) (attributes : List (String × String)) (children : List Node)
  | text (s : String)
  | remark
deriving Inhabited

namespace Node

/-- The local name of an element. -/
def name? : Node → Option String
  | element name _ _ => some name
  | _ => none

def isNamed (name : String) (n : Node) : Bool := n.name? == some name

def isElement (n : Node) : Bool := n.name?.isSome

def name (n : Node) : String := n.name?.getD ""

def children : Node → List Node
  | element _ _ children => children
  | _ => []

def attribute? (n : Node) (name : String) : Option String :=
  match n with
  | element _ attributes _ => attributes.lookup name
  | _ => none

/-- The first child that is an element of this name. -/
def child? (n : Node) (name : String) : Option Node := n.children.find? (isNamed name)

/-- The text with which an element starts. -/
def leadingText (n : Node) : String :=
  match n.children with
  | .text s :: _ => s
  | _ => ""

end Node

/-! ## Characters -/

def isSpace (c : Char) : Bool := c = ' ' || c = '\t' || c = '\n' || c = '\r'

/-- The characters that may stand in a document. -/
def isChar (c : Char) : Bool :=
  if c.toNat < 0x20 then isSpace c else c.toNat != 0xFFFE && c.toNat != 0xFFFF

/-- Whether a number is in one of some ranges, both ends included. -/
def inRanges (ranges : List (Nat × Nat)) (n : Nat) : Bool :=
  ranges.any fun r => r.1 ≤ n && n ≤ r.2

/-- The letters beyond ASCII with which a name may start. -/
def nameStartRanges : List (Nat × Nat) := [
  (0xC0, 0xD6), (0xD8, 0xF6), (0xF8, 0x2FF), (0x370, 0x37D), (0x37F, 0x1FFF), (0x200C, 0x200D),
  (0x2070, 0x218F), (0x2C00, 0x2FEF), (0x3001, 0xD7FF), (0xF900, 0xFDCF), (0xFDF0, 0xFFFD),
  (0x10000, 0xEFFFF)]

/-- The other characters beyond ASCII in names. -/
def nameInnerRanges : List (Nat × Nat) := [(0xB7, 0xB7), (0x300, 0x36F), (0x203F, 0x2040)]

/-- Whether a name may start with a character. -/
def isNameStart (c : Char) : Bool :=
  c.isAlpha || c = ':' || c = '_' || inRanges nameStartRanges c.toNat

/-- Whether a character may stand in a name. -/
def isName (c : Char) : Bool :=
  isNameStart c || c.isDigit || c = '-' || c = '.' || inRanges nameInnerRanges c.toNat

/-! ## Escaping -/

/-- The five characters with a meaning in markup are written as references. -/
def escapeChar (c : Char) : List Char :=
  match c with
  | '&' => "&amp;".toList
  | '<' => "&lt;".toList
  | '>' => "&gt;".toList
  | '"' => "&quot;".toList
  | '\'' => "&apos;".toList
  | c => [c]

def escape (s : String) : List Char := s.toList.flatMap escapeChar

end Xml
end SignalTree
