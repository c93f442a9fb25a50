import SignalTree.Numeral.Integer
import SignalTree.Xml

/-!
# Reader — from markup to a tree

`Xml.read` accepts well-formed documents with namespaces and without a document type: no entity
but the five predefined ones, every prefix declared, no attribute twice.

* Line ends in texts become line feeds, and blanks in attributes become spaces.  A character
  written as a reference is kept as it is, and so is the character right after it.
* Neighbouring texts and literal sections make one text; a remark separates them.
-/

namespace SignalTree
namespace Xml

def skip (cs : List Char) : List Char := cs.dropWhile isSpace

/-- The rest after a fixed beginning. -/
def after? (start cs : List Char) : Option (List Char) :=
  if start.isPrefixOf cs then some (cs.drop start.length) else none

/-- What stands before a fixed mark, and the rest after it. -/
def splitAt? (mark : List Char) : List Char → Option (List Char × List Char)
  | [] => none
  | c :: rest =>
    match after? mark (c :: rest) with
    | some rest => some ([], rest)
    | none => (splitAt? mark rest).map fun (before, rest) => (c :: before, rest)

def contains (mark cs : List Char) : Bool := (splitAt? mark cs).isSome

/-! ## Names -/

/-- A name with the prefix of its namespace; the prefix is empty if there is none. -/
structure QName where
  space : List Char
  name : List Char
deriving DecidableEq

/-- Whether a text may be a part of a name: it starts like a name. -/
def startsName : List Char → Bool
  | [] => false
  | c :: _ => isNameStart c

/-- Reads a name with at most one colon. -/
def readQName (cs : List Char) : Option (QName × List Char) :=
  let word := cs.takeWhile isName
  let rest := cs.dropWhile isName
  let first := word.takeWhile (· ≠ ':')
  match word.dropWhile (· ≠ ':') with
  | [] => if startsName first then some (⟨[], first⟩, rest) else none
  | _ :: second =>
    -- what follows the first colon is a name without a colon
    if second.contains ':' || !startsName second then none
    else if first.isEmpty || startsName first then some (⟨first, second⟩, rest)
    else none

def readName (cs : List Char) : Option (List Char × List Char) :=
  let word := cs.takeWhile isName
  if startsName word then some (word, cs.dropWhile isName) else none

/-! ## References -/

/-- The value of a run of hexadecimal digits. -/
def hexValue (ds : List Char) : Nat :=
  ds.foldl (fun n c =>
    16 * n + (if c.isDigit then c.toNat - 48 else (c.toLower.toNat - 87))) 0

def isHexDigit (c : Char) : Bool :=
  c.isDigit || ('a' ≤ c && c ≤ 'f') || ('A' ≤ c && c ≤ 'F')

/-- The character of a number; a number without a character gives the replacement character. -/
def charOf (n : Nat) : Option Char :=
  -- the number of a reference is a 32-bit one
  if 0x100000000 ≤ n then none
  else
    let c := if n.isValidChar then Char.ofNat n else '\uFFFD'
    if isChar c then some c else none

/-- The predefined entities. -/
def entity? (name : List Char) : Option Char :=
  if name = "quot".toList then some '"'
  else if name = "amp".toList then some '&'
  else if name = "apos".toList then some '\''
  else if name = "lt".toList then some '<'
  else if name = "gt".toList then some '>'
  else none

/-- Reads a reference after its ampersand. -/
def readReference (cs : List Char) : Option (Char × List Char) := do
  let (c, rest) ← match cs with
    | '#' :: 'x' :: rest =>
      let ds := rest.takeWhile isHexDigit
      if ds.isEmpty then none
      else (charOf (hexValue ds)).map fun c => (c, rest.dropWhile isHexDigit)
    | '#' :: rest =>
      let ds := rest.takeWhile Char.isDigit
      if ds.isEmpty then none
      else (charOf (Numeral.value 0 ds)).map fun c => (c, rest.dropWhile Char.isDigit)
    | cs => do
      let (name, rest) ← readName cs
      let c ← entity? name
      some (c, rest)
  match rest with
  | ';' :: rest => some (c, rest)
  | _ => none

/-! ## Texts and attribute values -/

/-- Puts the next character of a text after those before it, which stand in reverse order.  A
carriage return becomes a line feed as soon as it is known what follows. -/
def pushText (before : List Char) (c : Char) (last : Bool) : List Char :=
  match before with
  | '\r' :: before =>
    -- at the end there is nothing to wait for, so both returns are line ends
    if last && c = '\r' then '\n' :: '\n' :: before
    else if c = '\n' then '\n' :: before
    else c :: '\n' :: before
  | before => if last && c = '\r' then '\n' :: before else c :: before

/-- The text of a piece of markup without elements; `kept` says that the next character is not to
be touched. -/
def unescapeText : Nat → Bool → List Char → List Char → Option (List Char)
  | 0, _, _, _ => none
  | fuel + 1, kept, before, cs =>
    match cs with
    | [] => some before.reverse
    | '&' :: rest => do
      let (c, rest) ← readReference rest
      -- a character given by a reference does not merge with the one after it
      unescapeText fuel true (c :: before) rest
    | c :: rest =>
      if kept then unescapeText fuel false (c :: before) rest
      else unescapeText fuel false (pushText before c rest.isEmpty) rest

def literalText (before : List Char) : List Char → List Char
  | [] => before.reverse
  | c :: rest => literalText (pushText before c rest.isEmpty) rest

/-- The value of an attribute as written between its quotes. -/
def unescapeAttribute : Nat → List Char → Option (List Char)
  | 0, _ => none
  | fuel + 1, cs =>
    match cs with
    | [] => some []
    | '&' :: rest => do
      let (c, rest) ← readReference rest
      (unescapeAttribute fuel rest).map (c :: ·)
    -- a line end of two characters becomes one blank
    | '\r' :: '\n' :: rest => unescapeAttribute fuel ('\n' :: rest)
    | c :: rest => (unescapeAttribute fuel rest).map ((if isSpace c then ' ' else c) :: ·)

/-! ## Tags -/

/-- An attribute as written. -/
structure Attribute where
  name : QName
  value : String

def readRawAttribute (cs : List Char) : Option (QName × List Char × List Char) := do
  let (name, rest) ← readQName cs
  match skip rest with
  | '=' :: rest =>
    match skip rest with
    | [] => none
    | quote :: rest =>
      if quote ≠ '"' && quote ≠ '\'' then none
      else
        let raw := rest.takeWhile fun c => c ≠ quote && c ≠ '<'
        if !raw.all isChar then none
        else match rest.dropWhile fun c => c ≠ quote && c ≠ '<' with
          | mark :: rest => if mark = quote then some (name, raw, rest) else none
          | [] => none
  | _ => none

def readAttribute (cs : List Char) : Option (Attribute × List Char) := do
  let (name, raw, rest) ← readRawAttribute cs
  let value ← unescapeAttribute (raw.length + 1) raw
  some (⟨name, String.ofList value⟩, rest)

/-- Reads the attributes of a tag up to its end, and whether the element is empty. -/
def readAttributes : Nat → List Char → Option (List Attribute × Bool × List Char)
  | 0, _ => none
  | fuel + 1, cs =>
    match skip cs with
    | '/' :: '>' :: rest => some ([], true, rest)
    | '>' :: rest => some ([], false, rest)
    | rest =>
      -- attributes have to be set off by blanks
      if rest.length = cs.length then none
      else do
        let (a, rest) ← readAttribute rest
        let (as, empty, rest) ← readAttributes fuel rest
        some (a :: as, empty, rest)

/-! ## Namespaces -/

/-- The prefixes in force with their namespaces, the innermost first. -/
abbrev Scope := List (List Char × String)

/-- The namespace of the prefix `xml`. -/
def xmlSpace : String := "http://www.w3.org/XML/1998/namespace"

/-- The namespace of the prefix `xmlns`. -/
def declarationSpace : String := "http://www.w3.org/2000/xmlns/"

/-- Takes up the declarations of a tag; `own` are those found so far in it. -/
def declare (own : Scope) : List Attribute → Option Scope
  | [] => some own
  | a :: rest =>
    if a.name.space = "xmlns".toList then
      if a.value = declarationSpace then none
      -- the prefix and its namespace belong together
      else if (a.name.name == "xml".toList) != (a.value == xmlSpace) then none
      else if (own.lookup a.name.name).isSome then none
      else if a.value = xmlSpace then declare own rest
      else declare (own ++ [(a.name.name, a.value)]) rest
    else if a.name.name = "xmlns".toList then
      -- a default namespace changes no name, since names are compared without it
      if a.value = xmlSpace || a.value = declarationSpace then none else declare own rest
    else declare own rest

/-- Whether an attribute declares a namespace. -/
def Attribute.declares (a : Attribute) : Bool :=
  a.name.space = "xmlns".toList || a.name.name = "xmlns".toList

/-- The namespace of an attribute with a prefix, if the prefix is known. -/
def spaceOf (scope : Scope) (a : Attribute) : Option String :=
  if a.name.space = "xml".toList then some xmlSpace else scope.lookup a.name.space

/-- An attribute with its namespace, if it has a prefix, and its local name. -/
def resolve (scope : Scope) (a : Attribute) : Option (Option String × String × String) :=
  let name := String.ofList a.name.name
  if a.name.space.isEmpty then some (none, name, a.value)
  else (spaceOf scope a).map fun space => (some space, name, a.value)

/-- The attributes of an element without a namespace; none if a rule for attributes is broken. -/
def plainAttributes (scope : Scope) (as : List Attribute) : Option (List (String × String)) := do
  let resolved ← (as.filter fun a => !a.declares).mapM (resolve scope)
  let names := resolved.map fun a => (a.1, a.2.1)
  if names.Nodup then some ((resolved.filter (·.1.isNone)).map (·.2)) else none

/-- Whether the prefix of an element may be used. -/
def spaceKnown (scope : Scope) (name : QName) : Bool :=
  name.space.isEmpty || (scope.lookup name.space).isSome

/-! ## Remarks -/

/-- Reads a comment after its opening. -/
def readComment (cs : List Char) : Option (List Char) := do
  let (body, rest) ← splitAt? "-->".toList cs
  -- two hyphens may stand at the end only, and there not as three
  if !body.all isChar || contains "--".toList body || body.getLast? = some '-' then none
  some rest

/-- Reads a processing instruction after its opening. -/
def readInstruction (cs : List Char) : Option (List Char) := do
  let (_, rest) ← readName cs
  let (body, rest) ← splitAt? "?>".toList (skip rest)
  if body.all isChar then some rest else none

/-- Reads the remark with which a text starts, if it starts with one. -/
def readRemark (cs : List Char) : Option (Option (List Char)) :=
  match cs with
  | '<' :: '!' :: '-' :: '-' :: rest => (readComment rest).map some
  | '<' :: '?' :: rest =>
    -- a declaration is no instruction and may not stand here
    if "xml ".toList.isPrefixOf rest then none else (readInstruction rest).map some
  | _ => some none

/-! ## Elements -/

/-- Puts a text in front of some nodes, joined with a text that comes next. -/
def joinText (s : List Char) : List Node → List Node
  | .text t :: rest => .text (String.ofList s ++ t) :: rest
  | rest => .text (String.ofList s) :: rest

mutual

/-- Reads an element after its opening bracket. -/
def readElement : Nat → Scope → List Char → Option (Node × List Char)
  | 0, _, _ => none
  | fuel + 1, scope, cs => do
    let (name, rest) ← readQName cs
    -- no element has the prefix of declarations
    if name.space = "xmlns".toList then none
    let (attributes, empty, rest) ← readAttributes (rest.length + 1) rest
    let own ← declare [] attributes
    -- the declarations of a tag hold for the tag itself
    let scope := own ++ scope
    let plain ← plainAttributes scope attributes
    if !spaceKnown scope name then none
    if empty then some (.element (String.ofList name.name) plain [], rest)
    else do
      let (children, closing, rest) ← readContent fuel scope rest
      -- the closing tag repeats the name as written, prefix included
      if closing = name then some (.element (String.ofList name.name) plain children, rest)
      else none

/-- Reads the content of an element up to and including a closing tag, whose name is given. -/
def readContent : Nat → Scope → List Char → Option (List Node × QName × List Char)
  | 0, _, _ => none
  | fuel + 1, scope, cs =>
    match cs with
    | [] => none
    | '<' :: '/' :: rest => do
      let (name, rest) ← readQName rest
      match skip rest with
      | '>' :: rest => some ([], name, rest)
      | _ => none
    | '<' :: '!' :: '[' :: 'C' :: 'D' :: 'A' :: 'T' :: 'A' :: '[' :: rest => do
      let (body, rest) ← splitAt? "]]>".toList rest
      if !body.all isChar then none
      let (nodes, closing, rest) ← readContent fuel scope rest
      some (joinText (literalText [] body) nodes, closing, rest)
    | '<' :: rest => do
      match ← readRemark ('<' :: rest) with
      | some rest =>
        let (nodes, closing, rest) ← readContent fuel scope rest
        some (.remark :: nodes, closing, rest)
      | none =>
        let (node, rest) ← readElement fuel scope rest
        let (nodes, closing, rest) ← readContent fuel scope rest
        some (node :: nodes, closing, rest)
    | cs => do
      let body := cs.takeWhile (· ≠ '<')
      if !body.all isChar || contains "]]>".toList body then none
      let s ← unescapeText (body.length + 1) false [] body
      let (nodes, closing, rest) ← readContent fuel scope (cs.dropWhile (· ≠ '<'))
      some (joinText s nodes, closing, rest)

end

/-! ## Documents -/

/-- Reads the declaration after `<?xml`. -/
def readDeclaration (cs : List Char) : Option (List Char) := do
  let gap (cs : List Char) : Option (List Char) :=
    match cs with
    | [] => some []
    | '?' :: '>' :: rest => some ('?' :: '>' :: rest)
    | c :: rest => if isSpace c then some (skip rest) else none
  let optional (name : String) (cs : List Char) : Option (List Char × Bool) :=
    if name.toList.isPrefixOf cs then (readRawAttribute cs).map fun (_, _, rest) => (rest, true)
    else some (cs, false)
  let cs ← gap cs
  let (cs, versioned) ← optional "version" cs
  if !versioned then none
  let cs ← gap cs
  let (cs, encoded) ← optional "encoding" cs
  let cs ← if encoded then gap cs else some cs
  let (cs, _) ← optional "standalone" cs
  after? "?>".toList (skip cs)

/-- Drops blanks and remarks outside the root element. -/
def skipRemarks : Nat → List Char → Option (List Char)
  | 0, _ => none
  | fuel + 1, cs => do
    match ← readRemark (skip cs) with
    | some rest => skipRemarks fuel rest
    | none => some (skip cs)

/-- The root element of a document. -/
def read (cs : List Char) : Option Node := do
  let fuel := cs.length + 1
  let cs := match cs with
    | '\uFEFF' :: rest => rest
    | cs => cs
  let cs ← match after? "<?xml ".toList cs with
    -- the blank belongs to the declaration
    | some rest => readDeclaration (' ' :: rest)
    | none => some cs
  match ← skipRemarks fuel cs with
  | '<' :: rest =>
    let (root, rest) ← readElement (2 * fuel) [] rest
    -- after the root element there are remarks and nothing else
    let rest ← skipRemarks fuel rest
    if rest.isEmpty then some root else none
  | _ => none

end Xml
end SignalTree
