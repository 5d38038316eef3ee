import Ensembles.Catalog.Report
import Ensembles.Evaluation

/-!
# Interpreters

An interpreter is a state and a limit on the levels of nesting that an evaluation may
take. The operations here are what a host does with one; each gives its outcome and the
interpreter afterwards.
-/

namespace Ensembles

/-- An interpreter. -/
structure Interpreter where
  /-- The number of levels of nesting that an evaluation may take. -/
  limit : Nat
  state : State

/-- What came of evaluating a script command by command. -/
structure Transcript where
  /-- The results of the commands that did not fail, in order. -/
  results : List String
  /-- The error that ended the evaluation, if one did. -/
  error : Option Error
deriving DecidableEq, Repr

namespace Interpreter

/-- The name under which private namespaces and commands lie unless the host chooses
another. -/
def defaultRoot : String := "::itcl::internal::commands::ensembles"

def defaultLimit : Nat := 100

/-- An interpreter with the builtin commands only. -/
def new (root : String) (limit : Nat) : Interpreter := ⟨limit, .initial root⟩

variable {α : Type}

/-- Runs a computation. -/
def run (i : Interpreter) (x : Run α) : Except Error α × Interpreter :=
  match x i.state with
  | .ok a s => (.ok a, { i with state := s })
  | .error e s => (.error e, { i with state := s })

/-! ## Evaluation -/

/-- Evaluates a script. The outcome is the result of its last command. -/
def eval (i : Interpreter) (script : String) : Except Error String × Interpreter :=
  i.run do return (← Run.eval (perform i.limit) script).value

/-- Invokes a command whose words are given. -/
def invoke (i : Interpreter) (argv : List String) : Except Error String × Interpreter :=
  i.run do return (← perform i.limit (.invoke argv)).value

/-- Evaluates commands one by one up to the first that fails. After each of the others
`onResult` is told the result. -/
def evalEachOf (deeper : Deeper) (onResult : String → State → State) :
    List Command → State → Transcript × State
  | [], s => (⟨[], none⟩, s)
  | c :: cs, s =>
    match Run.evalCommands deeper (fun _ e => e) (.normal "") [c] s with
    | .error e s' => (⟨[], some e⟩, s')
    | .ok done s' =>
      let (t, s'') := evalEachOf deeper onResult cs (onResult done.value s')
      ({ t with results := done.value :: t.results }, s'')

/-- Evaluates a script command by command. After each command that does not fail
`onResult` is told the result. -/
def evalEach (i : Interpreter) (onResult : String → State → State) (script : String) :
    Transcript × Interpreter :=
  match Script.parse .all script with
  | .error e => (⟨[], some (.of (.malformed e))⟩, i)
  | .ok commands =>
    let (t, s) := evalEachOf (perform i.limit) onResult commands i.state
    (t, { i with state := s })

/-! ## Commands and ensembles -/

/-- Registers a command that runs a native. -/
def register (i : Interpreter) (name : String) (n : Native) :
    Except Error Handle × Interpreter :=
  i.run (Run.register name n)

/-- Deletes a command. The outcome is whether there was one. -/
def delete (i : Interpreter) (name : String) : Except Error Bool × Interpreter :=
  i.run (Run.delete name)

/-- Finds or makes the ensemble at a path. -/
def create (i : Interpreter) (path : String) : Except Error Handle × Interpreter :=
  i.run (Run.create path)

/-- Adds a part that runs a native to the ensemble at a path. -/
def addPart (i : Interpreter) (path name : String) (summary : Option String) (n : Native) :
    Except Error Unit × Interpreter :=
  i.run (Run.addPart path name summary n)

/-! ## Handlers that are kept -/

/-- Makes an inquiry. A native that is looked up is kept until it is dropped, whatever becomes
of the part. -/
def ask (i : Interpreter) (q : Inquiry) : q.Answer × Interpreter :=
  let (a, s) := i.state.answer q
  (a, { i with state := s })

/-- Calls the native of the number `serial` with exactly the arguments `argv`, if it is kept. -/
def callKept (i : Interpreter) (serial : Nat) (argv : List String) :
    Except Error (Option String) × Interpreter :=
  match i.state.kept? serial with
  | none => (.ok none, i)
  | some h => i.run (some <$> h.call (perform i.limit) argv)

/-- Calls the part that `word` selects in the ensemble at a path with exactly the
arguments `argv`, if that part runs a native, which is kept as long as the call takes. -/
def callPart (i : Interpreter) (path word : String) (argv : List String) :
    Except Error (Option String) × Interpreter :=
  match i.ask (.part path word) with
  | (.error e, i) => (.error e, i)
  | (.ok (.native serial), i) =>
    let (r, i) := i.callKept serial argv
    (r, (i.ask (.drop serial)).2)
  | (.ok _, i) => (.ok none, i)

/-! ## Questions -/

/-- The handle of the command `name`. -/
def find? (i : Interpreter) (name : String) : Option Handle :=
  i.state.catalog.commands.handleOf? name

/-- The names of all commands in increasing order. -/
def commandNames (i : Interpreter) : List String := i.state.catalog.commands.names

/-- Whether the command is bound to an ensemble. -/
def isEnsemble (i : Interpreter) (h : Handle) : Bool := i.state.catalog.isEnsemble h

/-- What runs for the part that `word` selects in the ensemble at a path. It is looked at and
not kept. -/
def part (i : Interpreter) (path word : String) : Except Error Handler :=
  (i.state.catalog.part path word).mapError .of

/-- The usage listing of the ensemble at a path, if there is one. -/
def usage (i : Interpreter) (path : String) : Option String := i.state.catalog.usageAt path

/-- The usage listing of the ensemble of a command, if there is one. -/
def usageOfCommand (i : Interpreter) (name : String) : Option String :=
  i.state.catalog.usageOfCommand name

/-- The reports on all top-level ensembles. -/
def reports (i : Interpreter) : List EnsembleReport := i.state.catalog.reports

/-! ## What the host sees -/

/-- The text written and the tags of the natives released since this was last asked, and
the interpreter with both taken out. -/
def drain (i : Interpreter) : (String × List String) × Interpreter :=
  ((i.state.output, i.state.released.filterMap (·.native.tag)),
   { i with state := { i.state with output := "", released := [] } })

/-- The interpreter after it is dropped. It owns no native any more; those that the host keeps
are not released before they are dropped as well. -/
def close (i : Interpreter) : Interpreter := { i with state := i.state.close }

end Interpreter

end Ensembles
