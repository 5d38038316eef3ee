import Ensembles.Dump
import Ensembles.Interpreter

/-!
# The command line

`ensemble [options] [FILE]` evaluates a script from a file or from the standard input.
The result of every command is written on a line of its own unless it is empty, and with
`--dump` the listing of all ensembles follows. An error goes to the standard error with
all its notes, and the exit code is 1; it is 2 if the arguments are wrong or the script
cannot be read.
-/

namespace Ensembles.CommandLine

/-- The arguments read so far. -/
structure Arguments where
  file : Option String
  root : Option String
  limit : Option String
  dump : Bool
  colour : Bool
  noColour : Bool
deriving DecidableEq, Repr

/-- What the arguments ask for. -/
structure Options where
  file : Option String
  root : String
  limit : Nat
  dump : Bool
  /-- Whether the listing has colours, if that is not left to the terminal. -/
  colour : Option Bool
deriving DecidableEq, Repr

/-- What a run shows. -/
structure Outcome where
  code : Nat
  output : String
  errors : String
deriving DecidableEq, Repr

/-! ## Reading the arguments -/

namespace Arguments

def none : Arguments := ⟨.none, .none, .none, false, false, false⟩

/-- An option and each of its values may be given once. -/
def setFile (a : Arguments) (v : String) : Option Arguments :=
  if a.file.isSome then .none else some { a with file := v }

def setRoot (a : Arguments) (v : String) : Option Arguments :=
  if a.root.isSome then .none else some { a with root := v }

def setLimit (a : Arguments) (v : String) : Option Arguments :=
  if a.limit.isSome then .none else some { a with limit := v }

def setDump (a : Arguments) : Option Arguments :=
  if a.dump then .none else some { a with dump := true }

def setColour (a : Arguments) : Option Arguments :=
  if a.colour then .none else some { a with colour := true }

def setNoColour (a : Arguments) : Option Arguments :=
  if a.noColour then .none else some { a with noColour := true }

end Arguments

/-- Whether the argument looks like an option. A hyphen alone does not. -/
def isOption (arg : String) : Bool := arg.toList.head? = some '-' && arg ≠ "-"

/-- The text after `start`, if `text` starts with it. -/
def after? : (start text : List Char) → Option (List Char)
  | [], text => some text
  | _ :: _, [] => none
  | a :: as, b :: bs => if a = b then after? as bs else none

/-- The value of an argument of the form `option=value`. -/
def valueOf (option arg : String) : Option String :=
  (after? (option ++ "=").toList arg.toList).map .ofList

/-- The arguments after a double hyphen, none of which is an option. -/
def readFiles (a : Arguments) : List String → Option Arguments
  | [] => some a
  | arg :: args => (a.setFile arg).bind (readFiles · args)

/-- The arguments, in order. -/
def readFrom (a : Arguments) : List String → Option Arguments
  | [] => some a
  | "--" :: args => readFiles a args
  | "--dump" :: args => a.setDump.bind (readFrom · args)
  | "--color" :: args => a.setColour.bind (readFrom · args)
  | "--no-color" :: args => a.setNoColour.bind (readFrom · args)
  | "--namespace-root" :: v :: args =>
    if isOption v then none else (a.setRoot v).bind (readFrom · args)
  | "--max-depth" :: v :: args =>
    if isOption v then none else (a.setLimit v).bind (readFrom · args)
  | arg :: args =>
    match valueOf "--namespace-root" arg, valueOf "--max-depth" arg with
    | some v, _ => (a.setRoot v).bind (readFrom · args)
    | none, some v => (a.setLimit v).bind (readFrom · args)
    | none, none =>
      if isOption arg then none else (a.setFile arg).bind (readFrom · args)

/-- The number that decimal digits write. -/
def digitsValue (cs : List Char) : Option Nat :=
  if cs ≠ [] && cs.all Char.isDigit then
    some (cs.foldl (fun n c => 10 * n + (c.toNat - '0'.toNat)) 0)
  else none

/-- The limit that the text writes: decimal digits, with or without a plus sign in front,
for a number below 2 ^ 64. -/
def readLimit (text : String) : Option Nat :=
  let digits :=
    match text.toList with
    | '+' :: cs => cs
    | cs => cs
  (digitsValue digits).filter (· < UInt64.size)

/-- The options that the arguments give, unless they are wrong. -/
def Options.parse (args : List String) : Option Options := do
  let a ← readFrom .none args
  if a.colour && a.noColour then none
  else
    let limit ← match a.limit with
      | none => some Interpreter.defaultLimit
      | some text => readLimit text
    return {
      file := a.file
      root := a.root.getD Interpreter.defaultRoot
      limit
      dump := a.dump
      colour := if a.colour then some true else if a.noColour then some false else none }

/-! ## Running a script -/

/-- The state with the result of a command written, unless the result is empty. -/
def showResult (result : String) (s : State) : State := if result = "" then s else s.put result

/-- Evaluates the script. -/
def Options.evaluate (o : Options) (terminal : Bool) (script : String) : Outcome :=
  let (t, i) := (Interpreter.new o.root o.limit).evalEach showResult script
  let listing := if o.dump then Dump.text (o.colour.getD terminal) i.reports else ""
  match t.error with
  | none => ⟨0, i.state.output ++ listing, ""⟩
  | some e => ⟨1, i.state.output ++ listing, e.info ++ "\n"⟩

/-- Runs the command line; `terminal` says whether the output goes to a terminal. -/
def execute {m : Type → Type} [Monad m] (terminal : Bool) (readInput : m (Option String))
    (readFile : String → m (Option String)) (args : List String) : m Outcome := do
  match Options.parse args with
  | none => return ⟨2, "", "error: bad arguments\n"⟩
  | some o =>
    match ← o.file.elim readInput readFile with
    | none => return ⟨2, "", "error: cannot read the script\n"⟩
    | some script => return o.evaluate terminal script

end Ensembles.CommandLine
