import SignalTree.Xml

/-!
# Markup — laid-out documents

A document is written with one element to a line, two spaces deeper for each level.

* `Markup.leaf`: an element with a text, on one line;
* `Markup.block`: an element with elements inside, on lines of its own;
* `Markup.mark`: an element without content.

All texts and attribute values are escaped when they are written, nowhere else.
-/

namespace SignalTree
namespace Xml

/-- An element as it is laid out. -/
inductive Markup where
  | leaf (name : String) (attributes : List (String × String)) (text : String)
  | block (name : String) (attributes : List (String × String)) (children : List Markup)
  | mark (name : String) (attributes : List (String × String))
deriving Inhabited

namespace Markup

/-- An attribute, with the blank before it. -/
def writeAttribute (a : String × String) : List Char :=
  ' ' :: (a.1.toList ++ '=' :: '"' :: (escape a.2 ++ ['"']))

/-- A tag without its end. -/
def opening (name : String) (attributes : List (String × String)) : List Char :=
  '<' :: (name.toList ++ attributes.flatMap writeAttribute)

def closing (name : String) : List Char := '<' :: '/' :: (name.toList ++ ['>'])

def line (depth : Nat) (content : List Char) : List Char :=
  List.replicate (2 * depth) ' ' ++ content ++ ['\n']

mutual

def write (depth : Nat) : Markup → List Char
  | .leaf name attributes text =>
    line depth (opening name attributes ++ '>' :: (escape text ++ closing name))
  | .block name attributes children =>
    line depth (opening name attributes ++ ['>']) ++ writeAll (depth + 1) children ++
      line depth (closing name)
  | .mark name attributes => line depth (opening name attributes ++ ['/', '>'])

def writeAll (depth : Nat) : List Markup → List Char
  | [] => []
  | m :: rest => write depth m ++ writeAll depth rest

end

end Markup
end Xml
end SignalTree
