import Ensembles.State
import Ensembles.Script

/-!
# Tasks

A task is what takes up one level of nesting: a script or the body of a procedure, the
body of a declaration, a call of a nested ensemble, or an invocation by the host. All
other work of the interpreter runs on the level that it is asked for on, and is defined
for any way `deeper` of running tasks one level down.
-/

namespace Ensembles

/-- How a command or script ends when it does not fail. -/
inductive Completion where
  | normal (value : String)
  /-- By `return`, which also ends the script that it is in. -/
  | returned (value : String)
deriving DecidableEq, Repr

/-- The value of a command or script, whichever way it ended. -/
def Completion.value : Completion → String
  | normal value | returned value => value

/-- What takes up one level of nesting. -/
inductive Task where
  | script (commands : List Command)
  /-- The body of a procedure whose arguments are bound. -/
  | procedure (name : String) (bindings : List (String × String)) (commands : List Command)
  /-- The declarations in the body of an ensemble. -/
  | body (ensemble : EnsembleId) (commands : List Command)
  /-- A call of the nested ensemble that is bound to a command. -/
  | dispatch (command : Handle) (argv : List String)
  | invoke (argv : List String)

/-- A way of running tasks one level down. -/
abbrev Deeper := Task → Run Completion

namespace Run

/-- The commands of a script. -/
def parse (f : Substitutions) (source : String) : Run (List Command) := fun s =>
  match Script.parse f source with
  | .ok commands => .ok commands s
  | .error e => .error (.of (.malformed e)) s

/-- Evaluates a script one level down. -/
def eval (deeper : Deeper) (source : String) : Run Completion := do
  deeper (.script (← parse .all source))

end Run

end Ensembles
