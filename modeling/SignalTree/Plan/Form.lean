import SignalTree.Builtin
import SignalTree.Json
import SignalTree.Plan
import SignalTree.Yaml.Node

/-!
# Form — how a plan is written in a document

A plan can be written in JSON and in YAML, which differ in what they accept for a text, a truth
value or a record.  A `Form` says what a document of type `ν` accepts; how a plan is made up of
these pieces is said once, in `Form.readPlan`.

* `Json.form`: a record may also be an array of its fields in order;
* `Yaml.Node.form`: any scalar is a text, and what is left empty is an empty collection.
-/

namespace SignalTree

/-- What the parts of a document are, if they are that. -/
structure Plan.Form (ν : Type) where
  text : ν → Option String
  flag : ν → Option Bool
  /-- Whether the part says that there is nothing. -/
  isAbsent : ν → Bool
  items : ν → Option (List ν)
  /-- Entries under texts, no text twice. -/
  entries : ν → Option (List (String × ν))
  /-- The fields of a record that are among some names, none of them twice. -/
  record : List String → ν → Option (List (String × ν))
  value : ν → Option Yaml

namespace Plan

/-- The entries under some names; none of the names may stand twice. -/
def known {α : Type} (names : List String) (entries : List (String × α)) :
    Option (List (String × α)) :=
  let kept := entries.filter fun e => names.contains e.1
  if Keyed.Distinct kept then some kept else none

namespace Form

variable {ν : Type}

/-- Reads a field of a record, or takes another value if it is left out. -/
def field {α : Type} (fields : List (String × ν)) (name : String) (read : ν → Option α)
    (missing : Option α) : Option α :=
  match fields.lookup name with
  | some n => read n
  | none => missing

/-- Reads a part unless it says that there is nothing. -/
def optional {α : Type} (f : Form ν) (read : ν → Option α) (n : ν) : Option (Option α) :=
  if f.isAbsent n then some none else (read n).map some

def each {α : Type} (f : Form ν) (read : ν → Option α) (n : ν) : Option (List α) := do
  (← f.items n).mapM read

def eachEntry {α : Type} (f : Form ν) (read : ν → Option α) (n : ν) :
    Option (List (String × α)) := do
  (← f.entries n).mapM fun e => (read e.2).map (e.1, ·)

def readDeclaration (f : Form ν) (n : ν) : Option Declaration := do
  let fields ← f.record
    ["kind", "default", "description", "pretty_name", "restricted", "basic"] n
  return {
    kind := ← field fields "kind" f.text none
    default := ← field fields "default" (f.optional f.value) (some none)
    description := ← field fields "description" f.text (some "")
    pretty := ← field fields "pretty_name" (f.optional f.text) (some none)
    restricted := ← field fields "restricted" (f.each f.value) (some [])
    basic := ← field fields "basic" f.flag (some false) }

def readPart (f : Form ν) (n : ν) : Option Part := do
  let fields ← f.record ["parent", "name", "type", "declare", "options"] n
  return {
    parent := ← field fields "parent" f.text (some "cpath:/")
    name := ← field fields "name" f.text none
    type := ← field fields "type" f.text (some Builtin.groupType)
    declared := ← field fields "declare" (f.eachEntry f.readDeclaration) (some [])
    options := ← field fields "options" (f.eachEntry f.value) (some []) }

def readLink (f : Form ν) (n : ν) : Option Link := do
  let fields ← f.record ["owner", "name", "target"] n
  return {
    owner := ← field fields "owner" f.text none
    name := ← field fields "name" f.text none
    target := ← field fields "target" f.text none }

def readPlan (f : Form ν) (n : ν) : Option Plan := do
  let fields ← f.record ["root", "components", "links"] n
  return {
    root := ← field fields "root" f.text (some "Root")
    parts := ← field fields "components" (f.each f.readPart) (some [])
    links := ← field fields "links" (f.each f.readLink) (some []) }

end Form
end Plan

namespace Json

mutual

/-- A JSON value as a YAML value.  No object may have a key twice. -/
def toYaml : Json → Option Yaml
  | .null => some .null
  | .bool b => some (.bool b)
  | .number n => some (.number n)
  | .text s => some (.text s)
  | .array items => (toYamlItems items).map .sequence
  | .object members =>
    if Keyed.Distinct members then (toYamlMembers members).map .mapping else none

def toYamlItems : List Json → Option (List Yaml)
  | [] => some []
  | j :: rest => do
    let v ← toYaml j
    return v :: (← toYamlItems rest)

def toYamlMembers : List (String × Json) → Option (List (Yaml × Yaml))
  | [] => some []
  | (k, j) :: rest => do
    let v ← toYaml j
    return (.text k, v) :: (← toYamlMembers rest)

end

/-- How plans are written in JSON. -/
def form : Plan.Form Json where
  text
    | .text s => some s
    | _ => none
  flag
    | .bool b => some b
    | _ => none
  isAbsent
    | .null => true
    | _ => false
  items
    | .array items => some items
    | _ => none
  entries
    | .object members => some (Keyed.ofList members)
    | _ => none
  record names
    | .object members => Plan.known names members
    | .array items => if names.length < items.length then none else some (names.zip items)
    | _ => none
  value := toYaml

end Json

namespace Yaml
namespace Node

def isEmpty : Node → Bool
  | .scalar _ .plain "" => true
  | _ => false

/-- The text of a scalar, however it is written. -/
def scalarText : Node → Option String
  | .scalar _ _ s => some s
  | _ => none

/-- The entries of a mapping whose keys are scalars. -/
def textEntries : Node → Option (List (String × Node))
  | .mapping _ entries => entries.mapM fun e => e.1.scalarText.map (·, e.2)
  | n => if n.isEmpty then some [] else none

/-- How plans are written in YAML. -/
def form : Plan.Form Node where
  text := scalarText
  flag
    | .scalar tag style s =>
      if style = .plain || (style = .literal && tag = some (coreTag "bool")) then readBool s
      else none
    | _ => none
  isAbsent
    | .scalar tag .plain s =>
      match tag with
      | none => s = "" || isNullWord s
      | some t => t = coreTag "null" && isNullWord s
    | _ => false
  items
    | .sequence _ items => some items
    | n => if n.isEmpty then some [] else none
  entries n := (textEntries n).map Keyed.ofList
  record names n := (textEntries n).bind (Plan.known names)
  value := meaning

end Node
end Yaml
end SignalTree
