import SignalTree.Error
import SignalTree.Text.Blank

/-!
# Uri — references with an optional scheme

A reference is `scheme:path`, or a path alone.  What stands before the first colon is a scheme
if it is spelt like one: a letter, then letters, digits, `+`, `-` or `.`.  A reference holds
neither blanks nor control characters.
-/

namespace SignalTree

/-- A reference. -/
structure Uri where
  scheme : Option String
  path : String
deriving DecidableEq, Repr

namespace Uri

/-- The scheme of component paths. -/
def componentScheme : String := "cpath"

instance : Inhabited Uri := ⟨⟨none, ""⟩⟩

/-- A component path. -/
def component (path : String) : Uri := ⟨some componentScheme, path⟩

def isComponent (u : Uri) : Bool := u.scheme == some componentScheme

def text (u : Uri) : String :=
  match u.scheme with
  | some scheme => scheme ++ ":" ++ u.path
  | none => u.path

/-- Whether a character may stand in a scheme after its first. -/
def isSchemeChar (c : Char) : Bool := c.isAlphanum || c = '+' || c = '-' || c = '.'

/-- Whether a text is spelt like a scheme. -/
def isScheme : List Char → Bool
  | [] => false
  | c :: rest => c.isAlpha && rest.all isSchemeChar

/-- What stands before and after the first colon. -/
def splitColon (cs : List Char) : Option (List Char × List Char) :=
  match cs.dropWhile (· ≠ ':') with
  | [] => none
  | _ :: rest => some (cs.takeWhile (· ≠ ':'), rest)

/-- The reference of a text without blanks. -/
def ofChars (cs : List Char) : Uri :=
  match splitColon cs with
  | some (scheme, path) =>
    if isScheme scheme then ⟨some (String.ofList scheme), String.ofList path⟩
    else ⟨none, String.ofList cs⟩
  | none => ⟨none, String.ofList cs⟩

/-- Reads a reference; blanks around it do not count. -/
def parse (text : String) : Except Error Uri :=
  let cs := Text.trim text.toList
  if cs.any fun c => Text.isBlank c || Text.isControl c then
    .error (.format "path" (String.ofList cs) "a URI may not contain whitespace")
  else .ok (ofChars cs)

end Uri
end SignalTree
