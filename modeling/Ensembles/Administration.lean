import Ensembles.Catalog.Report
import Ensembles.State

/-!
# Administration

What the host does to an interpreter without evaluating anything: making inquiries,
registering and deleting commands, making ensembles, adding parts. A native given along is owned
by the new command or part; one that is refused is let go.
-/

namespace Ensembles

/-- The catalogue with the native `h` as a new part of the ensemble at the path that
`path` writes. -/
def Catalog.addNative (c : Catalog) (path name : String) (usage : Option String) (h : Hosted) :
    Edit Unit :=
  match (c.resolveText path).bind fun id => c.addPart id name usage (.native h) with
  | .error cause => ⟨.error cause, c, [h]⟩
  | .ok c' => ⟨.ok (), c', []⟩

namespace State

/-- What was found for a part, and the state with it kept if it is a native. -/
def select (s : State) : Handler → Selected × State
  | .native h => (.native h.serial, s.keep h)
  | .procedure p => (.procedure p, s)
  | .ensemble command => (.ensemble command, s)

/-- The answer to an inquiry, and the state after it. -/
def answer (s : State) : (q : Inquiry) → q.Answer × State
  | .find name => (s.catalog.commands.handleOf? name, s)
  | .isEnsemble h => (s.catalog.isEnsemble h, s)
  | .commandNames => (s.catalog.commands.names, s)
  | .usage path => (s.catalog.usageAt path, s)
  | .usageOfCommand name => (s.catalog.usageOfCommand name, s)
  | .reports => (s.catalog.reports, s)
  | .part path word =>
    match s.catalog.part path word with
    | .error cause => (.error (.of cause), s)
    | .ok handler =>
      let (selected, s) := s.select handler
      (.ok selected, s)
  | .copy serial => ((), (s.kept? serial).elim s s.keep)
  | .drop serial => ((), s.drop serial)
  | .remembered => (s.memory, s)
  | .remember text => ((), { s with memory := text })

end State

namespace Run

/-- Makes an inquiry. -/
def inquire (q : Inquiry) : Run q.Answer := fun s =>
  let (a, s') := s.answer q
  .ok a s'

/-- Gives a native to the interpreter. -/
def receive (n : Native) : Run Hosted := fun s =>
  let (h, s') := s.receive n
  .ok h s'

/-- Registers a command that runs a native. -/
def register (name : String) (n : Native) : Run Handle := do
  let h ← receive n
  edit (·.put name (.native h))

/-- Deletes a command. The answer is whether there was one. -/
def delete (name : String) : Run Bool := edit (·.delete name)

/-- Finds or makes the ensemble at a path. -/
def create (path : String) : Run Handle := noting (.creating path) (edit (·.create path))

/-- Adds a part that runs a native to the ensemble at a path. -/
def addPart (path name : String) (usage : Option String) (n : Native) : Run Unit := do
  let h ← receive n
  noting (.addingTo path) (edit (·.addNative path name usage h))

end Run

end Ensembles
