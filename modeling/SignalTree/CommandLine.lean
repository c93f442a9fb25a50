import SignalTree.Dispatch
import SignalTree.Plan.Build
import SignalTree.Plan.Load

/-!
# CommandLine — a session with one plan and some signals

The first argument is the file of a plan; the tree is built and shown.  Each further argument is
the file of a signal document: the signal is dispatched and its reply shown.  If there were
signals, the tree is shown again.  The first failure ends the session.

* `CommandLine.run`: what a session writes, and its exit code.
-/

namespace SignalTree
namespace CommandLine

/-- What a session writes, and its exit code. -/
structure Outcome where
  output : String
  errors : String
  exitCode : Nat

/-- The world of a session; all handlers are built in. -/
abbrev Session := World Unit Empty

/-- No handlers besides the built-in ones. -/
def noBehaviour : Behaviour Unit Empty := nofun

def usage : String :=
  "Usage: cfcore <tree.yaml|tree.json> [signal.xml ...]\n" ++
    "Example: cfcore configs/demo-tree.yaml signals/create-fields.xml signals/list-tree.xml\n"

/-! ## Failures -/

/-- The wordings of an error and of the errors inside it. -/
def causes : Error → List String
  | .inSignal signal source => (Error.inSignal signal source).message :: causes source
  | e => [e.message]

def failureCauses : Plan.Failure → List String
  | .file fault => [(Plan.Failure.file fault).message, fault.message]
  | .build e => (Plan.Failure.build e).message :: causes e
  | f => [f.message]

def fail (output : String) (wordings : List String) : Outcome :=
  ⟨output, "❌ " ++ ": ".intercalate wordings ++ "\n", 1⟩

/-! ## Signals -/

def showTree (title line : String) (w : Session) : String :=
  "🌳 " ++ title ++ "\n" ++ line ++ "\n" ++ w.tree.render w.tree.root

/-- Dispatches the documents of files in order; `output` is what has been written before. -/
def dispatchAll (files : Files) (output : String) : List String → Session → Outcome
  | [], w => ⟨output ++ "\n" ++ showTree "Final tree" "═════════════" w, "", 0⟩
  | path :: rest, w =>
    match files path with
    | .error fault => fail output ["reading " ++ path, fault.message]
    | .ok text =>
      match w.dispatchText noBehaviour text with
      | (.error e, _) => fail output (("dispatching " ++ path) :: causes e)
      | (.ok reply, w) => dispatchAll files (output ++ "\n📨 " ++ path ++ "\n" ++ reply) rest w

/-! ## Sessions -/

/-- The surroundings of a session. -/
def surroundings : Env Unit := ⟨[], (), []⟩

/-- Loads a plan and builds its tree. -/
def open? (files : Files) (path : String) : Except (List String) Session :=
  match Plan.loadChecked files path (Registry.standard (η := Empty) (σ := Unit)) with
  | .error f => .error (("loading " ++ path) :: failureCauses f)
  | .ok p =>
    match p.build .standard surroundings with
    | (.error e, _) => .error (failureCauses (.build e))
    | (.ok (), w) => .ok w

def run (files : Files) : List String → Outcome
  | [] => ⟨"", usage, 1⟩
  | path :: signals =>
    match open? files path with
    | .error wordings => fail "" wordings
    | .ok w =>
      let output := showTree "Component tree" "═════════════════" w
      if signals.isEmpty then ⟨output, "", 0⟩ else dispatchAll files output signals w

end CommandLine
end SignalTree
