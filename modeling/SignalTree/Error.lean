import SignalTree.Kind
import SignalTree.Text.Quoted

/-!
# Error — why an operation fails

One type for everything that can go wrong with values, options, components and signals.  An
`Error` is a cause with the names it concerns; `Error.message` is its wording.

A text that cannot be read is reported with its location in the surrounding document.  The
location is put together from the inside out, one `Error.located` for each enclosing entry: an
index joins what it indexes, a key is set off by a dot.
-/

namespace SignalTree

/-- A cause of failure. -/
inductive Error where
  /-- A text is not the text of the expected thing. -/
  | unreadable (expected text reason location : String)
  /-- A value has another kind than the named place fixes. -/
  | mismatch (name : String) (expected found : Kind)
  /-- A value is not among those an option allows. -/
  | notAllowed (name value : String)
  /-- A name cannot be given, or is given already. -/
  | badName (name reason : String)
  /-- A child or signal of this name exists. -/
  | nameTaken (owner name : String)
  /-- A builder for this type exists. -/
  | typeTaken (type : String)
  /-- There is no builder for this type. -/
  | unknownType (type : String)
  /-- The component has no such signal. -/
  | unknownSignal (component signal : String)
  /-- The component has no such option. -/
  | unknownOption (component option : String)
  /-- A path or an entry leads nowhere. -/
  | notFound (path : String)
  /-- A frame has no entry under a key that is read. -/
  | missingArgument (key : String)
  /-- A link points to a component that was removed. -/
  | dangling (link : String)
  /-- The handler of a signal failed. -/
  | inSignal (signal : String) (source : Error)
  /-- A failure of the embedding program. -/
  | other (message : String)
deriving DecidableEq, Repr, Inhabited

namespace Error

def message : Error → String
  | unreadable expected text reason location =>
    "cannot decode " ++ Text.quoted text ++ " as " ++ expected ++
      (if location = "" then "" else " at " ++ location) ++ ": " ++ reason
  | mismatch name expected found =>
    "type mismatch for '" ++ name ++ "': expected " ++ expected.name ++ ", found " ++ found.name
  | notAllowed name value => "value " ++ value ++ " is not allowed for option '" ++ name ++ "'"
  | badName name reason => "invalid name '" ++ name ++ "': " ++ reason
  | nameTaken owner name => "'" ++ name ++ "' already exists in " ++ owner
  | typeTaken type => "builder for type '" ++ type ++ "' is already registered"
  | unknownType type => "no builder registered for type '" ++ type ++ "'"
  | unknownSignal component signal =>
    "component " ++ component ++ " has no signal '" ++ signal ++ "'"
  | unknownOption component option =>
    "component " ++ component ++ " has no option '" ++ option ++ "'"
  | notFound path => "not found: " ++ path
  | missingArgument key => "missing argument '" ++ key ++ "'"
  | dangling link => "link '" ++ link ++ "' no longer points to a live component"
  | inSignal signal source => "signal '" ++ signal ++ "' failed: " ++ source.message
  | other message => message

/-- A text that cannot be read, at the place where the reading starts. -/
def format (expected text reason : String) : Error := .unreadable expected text reason ""

/-- A location seen from outside: `segment` is the entry that holds it. -/
def outer (segment location : String) : String :=
  if location = "" then segment
  else if location.toList.head? = some '[' then segment ++ location
  else segment ++ "." ++ location

/-- Puts `segment` in front of the location of an unreadable text. -/
def located (segment : String) : Error → Error
  | unreadable expected text reason location =>
    .unreadable expected text reason (outer segment location)
  | e => e

/-- The location segment of the element at an index. -/
def index (i : Nat) : String := "[" ++ String.ofList (Nat.toDigits 10 i) ++ "]"

/-- The cause inside all signals. -/
def root : Error → Error
  | inSignal _ source => source.root
  | e => e

end Error
end SignalTree
