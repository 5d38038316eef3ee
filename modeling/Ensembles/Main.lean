import Ensembles.CommandLine

/-!
# The program

Reads the script, runs the command line and writes what it shows.
-/

namespace Ensembles.CommandLine

/-- What `read` gives, or nothing if it fails. -/
def orNothing (read : IO (Option String)) : IO (Option String) :=
  try read catch _ => return none

end Ensembles.CommandLine

open Ensembles.CommandLine

def main (args : List String) : IO UInt32 := do
  let input ← IO.getStdin
  let output ← IO.getStdout
  let shown ← execute (← output.isTty)
    (orNothing do return String.fromUTF8? (← input.readBinToEnd))
    (fun path => orNothing do return some (← IO.FS.readFile path)) args
  output.putStr shown.output
  output.flush
  (← IO.getStderr).putStr shown.errors
  return shown.code.toUInt32
