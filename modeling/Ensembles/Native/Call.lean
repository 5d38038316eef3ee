import Ensembles.Administration
import Ensembles.Task

/-!
# Calls of natives

A call of a native answers the requests of its program one after the other. Scripts and
invocations that it asks for run one level down, all else where it stands.
-/

namespace Ensembles

namespace Program

/-- Answers the requests of the program. -/
def answer (deeper : Deeper) : Program → Run String
  | .done (.ok value) => pure value
  | .done (.error e) => throw e
  | .eval script next => do
    let r ← Run.attempt (Run.eval deeper script)
    answer deeper (next (r.map Completion.value))
  | .invoke argv next => do
    let r ← Run.attempt (deeper (.invoke argv))
    answer deeper (next (r.map Completion.value))
  | .delete name next => do
    let r ← Run.delete name
    answer deeper (next r)
  | .create path next => do
    let r ← Run.attempt (Run.create path)
    answer deeper (next r)
  | .ask q next => do
    let r ← Run.inquire q
    answer deeper (next r)
  | .addPart path name summary tag body next => do
    let r ← Run.attempt (Run.addPart path name summary ⟨tag, body⟩)
    answer deeper (next r)
  | .register name tag body next => do
    let r ← Run.register name ⟨tag, body⟩
    answer deeper (next r)

end Program

/-- Calls a native. -/
def Hosted.call (deeper : Deeper) (h : Hosted) (argv : List String) : Run String :=
  Run.between (·.beginCall h) (·.endCall h) ((h.native.run argv).answer deeper)

end Ensembles
