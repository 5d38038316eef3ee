import Ensembles.Signature

/-!
# Errors

An error is a cause and the notes it has gathered on its way out, innermost first.
The message says the cause; the notes say what was running. `Error.traced` adds the
note on the command that failed, `Error.info` writes the message with all notes.
-/

namespace Ensembles

/-- Why an operation failed. -/
inductive Cause where
  | duplicatePart (name : String)
  | commandNotEnsemble (name : String)
  | partNotEnsemble (name : String)
  /-- A new nested ensemble would replace a part of another kind. -/
  | partInTheWay (name : String)
  | invalidName (path : String)
  | ambiguousPart (word usage : String)
  | unknownPart (word usage : String)
  | missingPart (usage : String)
  | badSignature (e : SignatureError)
  | wrongArguments (usage : String)
  | unknownCommand (name : String)
  | malformed (e : SyntaxError)
  | unknownVariable (name : String)
  | user (message : String)
  | nestedTooDeep
deriving DecidableEq, Repr

/-- The wording of the cause. -/
def Cause.message : Cause → String
  | duplicatePart name => "part " ++ quoted name ++ " already exists in ensemble"
  | commandNotEnsemble name => "command " ++ quoted name ++ " is not an ensemble"
  | partNotEnsemble name => "part " ++ quoted name ++ " is not an ensemble"
  | partInTheWay name => "part " ++ quoted name ++ " already exists and is not an ensemble"
  | invalidName path => "invalid ensemble name " ++ quoted path
  | ambiguousPart word usage =>
    "ambiguous option " ++ quoted word ++ ": should be one of...\n" ++ usage
  | unknownPart word usage => "bad option " ++ quoted word ++ ": should be one of...\n" ++ usage
  | missingPart usage => "wrong # args: should be one of...\n" ++ usage
  | badSignature e => e.message
  | wrongArguments usage => "wrong # args: should be " ++ quoted usage
  | unknownCommand name => "invalid command name " ++ quoted name
  | malformed e => e.message
  | unknownVariable name => "can't read " ++ quoted name ++ ": no such variable"
  | user message => message
  | nestedTooDeep => "too many nested evaluations (infinite loop?)"

/-! ## Notes -/

/-- What was going on when an error passed. -/
inductive Note where
  /-- The command that failed first. -/
  | executing (command : String)
  /-- A command whose execution brought the failing one about. -/
  | invokedFrom (command : String)
  | procedureLine (procedure : String) (line : Nat)
  | bodyLine (line : Nat)
  | partOf (part ensemble : String)
  | addingTo (path : String)
  | creating (path : String)
  /-- A note of the host. -/
  | host (text : String)
deriving DecidableEq, Repr

/-- The number of characters of a command that a note shows. -/
def clipLength : Nat := 150

/-- The start of a command, with an ellipsis if it is cut. -/
def clip (command : String) : String :=
  if command.length > clipLength then .ofList (command.toList.take clipLength) ++ "..."
  else command

/-- The wording of the note. -/
def Note.text : Note → String
  | executing command => "while executing\n" ++ quoted (clip command)
  | invokedFrom command => "invoked from within\n" ++ quoted (clip command)
  | procedureLine procedure line =>
    "(procedure " ++ quoted procedure ++ " line " ++ line.repr ++ ")"
  | bodyLine line => "(\"ensemble\" body line " ++ line.repr ++ ")"
  | partOf part ensemble => "(part " ++ quoted part ++ " of ensemble " ++ quoted ensemble ++ ")"
  | addingTo path => "(while adding to ensemble " ++ quoted path ++ ")"
  | creating path => "(while creating ensemble " ++ quoted path ++ ")"
  | host text => text

/-! ## Errors -/

/-- A cause with the notes gathered so far, innermost first. -/
structure Error where
  cause : Cause
  notes : List Note
deriving DecidableEq, Repr

namespace Error

/-- An error without notes. -/
def of (cause : Cause) : Error := ⟨cause, []⟩

/-- The error with one more note. -/
def note (e : Error) (n : Note) : Error := { e with notes := e.notes ++ [n] }

/-- The error with a note on the command that it comes out of. -/
def traced (e : Error) (command : String) : Error :=
  e.note (if e.notes = [] then .executing command else .invokedFrom command)

def message (e : Error) : String := e.cause.message

/-- The message and, on lines of their own, the notes. -/
def info (e : Error) : String :=
  e.message ++ String.join (e.notes.map fun n => "\n    " ++ n.text)

end Error

end Ensembles
