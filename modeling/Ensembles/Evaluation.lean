import Ensembles.Declaration
import Ensembles.Dispatch

/-!
# Evaluation

A command is evaluated by making the substitutions of its words and invoking what the
first word names. `perform` runs tasks within a number of nesting levels; each level
runs its tasks with what is left of the levels, so evaluation ends whatever scripts say.
-/

namespace Ensembles

namespace Run

/-- The value of the variable that `name` names here. -/
def readVariable (name : String) : Run String := fun s =>
  match s.get? name with
  | some value => .ok value s
  | none => .error (.of (.unknownVariable name)) s

/-- Gives the variable that `name` names here a new value. -/
def writeVariable (name value : String) : Run Unit := modify (·.set name value)

/-- `text` without the blanks at both ends. -/
def trimmed (text : String) : String := .ofList (Text.trim text.toList)

/-- Runs a builtin command. -/
def builtin (deeper : Deeper) : Builtin → List String → Run Completion
  | .concat, args =>
    return .normal (" ".intercalate ((args.map trimmed).filter (· ≠ "")))
  | .ensemble, args => do
    declareEnsemble deeper none args
    return .normal ""
  | .error, [message] => fail (.user message)
  | .error, _ => fail (.wrongArguments "error message")
  | .list, args => return .normal (ListText.merge args)
  | .puts, [line] => do
    modify (·.put line)
    return .normal ""
  | .puts, _ => fail (.wrongArguments "puts string")
  | .ret, [] => return .returned ""
  | .ret, [value] => return .returned value
  | .ret, _ => fail (.wrongArguments "return ?value?")
  | .set, [name] => return .normal (← readVariable name)
  | .set, [name, value] => do
    writeVariable name value
    return .normal value
  | .set, _ => fail (.wrongArguments "set varName ?newValue?")

/-- Invokes the command that the first word names. -/
def invoke (deeper : Deeper) : List String → Run Completion
  | [] => return .normal ""
  | name :: args => fun s =>
    match s.catalog.commands.find? name with
    | none => fail (.unknownCommand name) s
    | some ⟨_, _, .builtin b⟩ => builtin deeper b args s
    | some ⟨_, _, .native h⟩ => (.normal <$> h.call deeper (name :: args)) s
    | some ⟨handle, _, .ensemble⟩ => (.normal <$> dispatch deeper handle (name :: args)) s

/-- The value of a piece of a word. -/
def expandPiece (deeper : Deeper) : Piece → Run String
  | .text s => return s
  | .var name => readVariable name
  | .script source => return (← eval deeper source).value

/-- The text of a word with its substitutions made. -/
def expand (deeper : Deeper) (w : Word) : Run String :=
  return .join (← w.pieces.mapM (expandPiece deeper))

/-- Evaluates a command. -/
def evalCommand (deeper : Deeper) (c : Command) : Run Completion := do
  invoke deeper (← c.words.mapM (expand deeper))

/-- Evaluates commands up to the first that fails or returns. The completion is that of
the last command evaluated, and `last` if there is none. An error gets a note on the
command it comes out of, and what `blame` adds for it. -/
def evalCommands (deeper : Deeper) (blame : Command → Error → Error) (last : Completion) :
    List Command → Run Completion
  | [] => return last
  | c :: cs => do
    match ← (evalCommand deeper c).mapError (fun _ e => blame c (e.traced c.text)) with
    | .returned value => return .returned value
    | .normal value => evalCommands deeper blame (.normal value) cs

end Run

/-- Runs a task, with `deeper` for the tasks that it brings about. -/
def Task.run (deeper : Deeper) : Task → Run Completion
  | .script commands => Run.evalCommands deeper (fun _ e => e) (.normal "") commands
  | .procedure name bindings commands => do
    let done ← Run.between (·.enter (.ofBindings bindings)) State.leave
      (Run.evalCommands deeper (fun c e => e.note (.procedureLine name c.line)) (.normal "")
        commands)
    return .normal done.value
  | .body id commands => do
    Run.declareAll deeper id commands
    return .normal ""
  | .dispatch command argv => return .normal (← Run.dispatch deeper command argv)
  | .invoke argv => Run.invoke deeper argv

/-- Runs a task within `levels` levels of nesting. -/
def perform : (levels : Nat) → Deeper
  | 0, _ => Run.fail .nestedTooDeep
  | levels + 1, task => task.run (perform levels)

end Ensembles
