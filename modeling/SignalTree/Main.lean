import SignalTree.CommandLine

/-!
# Main — the program

Reads the files that the arguments name, runs the session and writes what it says.
-/

namespace SignalTree

/-- The fault that a failure of the system stands for. -/
def FileFault.ofFailure : IO.Error → FileFault
  | .permissionDenied .. => denied
  | .inappropriateType _ 21 _ => directory
  | .inappropriateType .. => notDirectory
  | _ => missing

def readFile (path : String) : IO (Except FileFault String) := do
  try
    let bytes ← IO.FS.readBinFile path
    match String.fromUTF8? bytes with
    | some text => return .ok text
    | none => return .error .notText
  catch e => return .error (.ofFailure e)

end SignalTree

open SignalTree in
def main (args : List String) : IO UInt32 := do
  let texts ← args.mapM fun path => return (path, ← readFile path)
  let files : Files := fun path => (texts.lookup path).getD (.error .missing)
  let outcome := CommandLine.run files args
  IO.print outcome.output
  IO.eprint outcome.errors
  return UInt32.ofNat outcome.exitCode
