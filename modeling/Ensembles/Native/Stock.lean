import Ensembles.Native

/-!
# Ready-made natives

Programs of natives that come up again and again: those that answer from their
arguments alone, and those that pass one request on to the interpreter and answer with
what came of it. The arguments `argv` start with the name of the command or part.
-/

namespace Ensembles.Program

/-- The arguments, separated by spaces. -/
def echo (argv : List String) : Program := .done (.ok (" ".intercalate argv))

/-- The arguments as a list. -/
def list (argv : List String) : Program := .done (.ok (ListText.merge argv))

/-- The number of arguments. -/
def count (argv : List String) : Program := .done (.ok argv.length.repr)

/-- A failure with a message and notes of the host. -/
def fail (message : String) (notes : List String) : Program :=
  .done (.error ⟨.user message, notes.map .host⟩)

/-- Evaluates a script. -/
def evalScript (script : String) : Program := .eval script .done

/-- Evaluates the arguments after the first, separated by spaces. -/
def evalArguments (argv : List String) : Program := evalScript (" ".intercalate argv.tail)

/-- Invokes a command. -/
def invokeWords (words : List String) : Program := .invoke words .done

/-- Invokes the command that the arguments after the first make. -/
def invokeArguments (argv : List String) : Program := invokeWords argv.tail

/-- Deletes a command. The answer is `1` if there was one, and `0` if not. -/
def deleteCommand (name : String) : Program :=
  .delete name fun deleted => .done (.ok (if deleted then "1" else "0"))

/-- Finds or makes an ensemble. -/
def createEnsemble (path : String) : Program := .create path fun r => .done (r.map fun _ => "")

/-- The listing of the ensemble at a path, or `none` if there is none. -/
def showUsage (path : String) : Program :=
  .ask (.usage path) fun listing : Option String => .done (.ok (listing.getD "none"))

/-- Adds a part that runs a native. -/
def addNative (path name : String) (summary : Option String) (n : Native) : Program :=
  .addPart path name summary n.tag n.run fun r => .done (r.map fun _ => "")

/-- Registers a command that runs a native. -/
def registerNative (name : String) (n : Native) : Program :=
  .register name n.tag n.run fun _ => .done (.ok "")

end Ensembles.Program
