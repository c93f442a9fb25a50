import SignalTree.Json.Reader
import SignalTree.Plan.Check
import SignalTree.Plan.Form
import SignalTree.Yaml.Node.Reader

/-!
# Load — plans in files

The extension of a file says how the plan in it is written.  Files are given by a function from
paths to texts, so that loading does not depend on where they are.

* `Plan.load`: the plan of a file;
* `Plan.loadChecked`: the same for a plan without faults.
-/

namespace SignalTree

/-- Why a file gives no text. -/
inductive FileFault where
  | missing
  | denied
  | directory
  | notDirectory
  | notText
deriving DecidableEq, Repr

def FileFault.message : FileFault → String
  | missing => "No such file or directory (os error 2)"
  | denied => "Permission denied (os error 13)"
  | directory => "Is a directory (os error 21)"
  | notDirectory => "Not a directory (os error 20)"
  | notText => "stream did not contain valid UTF-8"

/-- The texts of files, by their paths. -/
abbrev Files := String → Except FileFault String

namespace Plan

/-- Why a plan is not loaded or not built. -/
inductive Failure where
  | file (fault : FileFault)
  | yaml
  | json
  | unsupported (extension : String)
  | invalid (faults : List Fault)
  | build (e : Error)

namespace Failure

def message : Failure → String
  | file fault => "I/O error: " ++ fault.message
  | yaml => "YAML error: not a plan"
  | json => "JSON error: not a plan"
  | unsupported extension => "unsupported configuration format: '" ++ extension ++ "'"
  | invalid faults =>
    "tree configuration is invalid:\n" ++ "\n".intercalate (faults.map Fault.message)
  | build e => "building the tree failed: " ++ e.message

end Failure

/-- The last name of a path.  The name of the directory itself or of the one above is none. -/
def fileName (path : String) : List Char :=
  let names := (Tree.segments path.toList).filter fun s => s ≠ [] && s ≠ ['.']
  match names.getLast? with
  | some name => if name = ['.', '.'] then [] else name
  | none => []

/-- What stands after the last dot of a file name, in small letters.  A name that only starts with
a dot has no extension. -/
def extension (path : String) : String :=
  let name := (fileName path).reverse
  match name.dropWhile (· ≠ '.') with
  | [] => ""
  | [_] => ""
  | _ => Text.lowered (String.ofList (name.takeWhile (· ≠ '.')).reverse)

def ofYaml (text : String) : Option Plan :=
  (Yaml.Node.read text.toList).bind Yaml.Node.form.readPlan

def ofJson (text : String) : Option Plan := (Json.read text.toList).bind Json.form.readPlan

/-- Loads the plan of a file. -/
def load (files : Files) (path : String) : Except Failure Plan :=
  match files path with
  | .error fault => .error (.file fault)
  | .ok text =>
    match extension path with
    | "yaml" => (ofYaml text).elim (.error .yaml) .ok
    | "yml" => (ofYaml text).elim (.error .yaml) .ok
    | "json" => (ofJson text).elim (.error .json) .ok
    | other => .error (.unsupported other)

variable {σ η : Type}

/-- Loads the plan of a file, which may not have faults. -/
def loadChecked (files : Files) (path : String) (registry : Registry σ η) :
    Except Failure Plan := do
  let p ← load files path
  match p.faults registry with
  | [] => return p
  | faults => throw (.invalid faults)

end Plan
end SignalTree
