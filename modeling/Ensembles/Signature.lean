import Ensembles.ListText

/-!
# Signatures of procedures

The formal arguments of a procedure are written as a list. An element is a name or a
pair of a name and a default value; a last formal of the name `args` takes all actual
arguments that are left. `Signature.parse` reads the list, `Signature.usage` writes
the summary that usage lines show, and `Signature.bind` gives the formals their values.
-/

namespace Ensembles

/-- A formal argument. -/
structure Formal where
  name : String
  /-- The value of the formal where no actual argument is left for it. -/
  fallback : Option String
deriving DecidableEq, Repr

/-- The formal arguments of a procedure. -/
structure Signature where
  formals : List Formal
deriving DecidableEq, Repr

/-- Why text is not a signature. -/
inductive SignatureError where
  | malformed (e : SyntaxError)
  | unnamedFormal (procedure : String)
  | tooManyFields (element : String)
  | notSimpleName (procedure name : String)
deriving DecidableEq, Repr

/-- Text between double quotes. -/
def quoted (s : String) : String := "\"" ++ s ++ "\""

/-- The wording of the error. -/
def SignatureError.message : SignatureError → String
  | malformed e => e.message
  | unnamedFormal procedure => "procedure " ++ quoted procedure ++ " has argument with no name"
  | tooManyFields element => "too many fields in argument specifier " ++ quoted element
  | notSimpleName procedure name =>
    "procedure " ++ quoted procedure ++ " has formal parameter " ++ quoted name ++
      " that is not a simple name"

/-- Whether two colons stand side by side in the text. -/
def hasDoubleColon : List Char → Bool
  | [] => false
  | ':' :: ':' :: _ => true
  | _ :: cs => hasDoubleColon cs

namespace Formal

/-- A formal of the procedure `procedure`, if its name is a simple one. -/
def named (procedure name : String) (fallback : Option String) : Except SignatureError Formal :=
  if name = "" then .error (.unnamedFormal procedure)
  else if hasDoubleColon name.toList then .error (.notSimpleName procedure name)
  else .ok ⟨name, fallback⟩

/-- The formal that one element of a signature writes. -/
def parse (procedure element : String) : Except SignatureError Formal := do
  match ← (ListText.split element).mapError .malformed with
  | [] => .error (.unnamedFormal procedure)
  | [name] => named procedure name none
  | [name, fallback] => named procedure name (some fallback)
  | _ => .error (.tooManyFields element)

/-- The summary of one formal. -/
def usage (f : Formal) : String :=
  match f.fallback with
  | none => f.name
  | some _ => "?" ++ f.name ++ "?"

end Formal

namespace Signature

/-- The signature of the procedure `procedure` that `text` writes. -/
def parse (text procedure : String) : Except SignatureError Signature := do
  let elements ← (ListText.split text).mapError .malformed
  return ⟨← elements.mapM (Formal.parse procedure)⟩

/-- Whether the last formal takes all actual arguments that are left. -/
def isVariadic (s : Signature) : Bool :=
  match s.formals.getLast? with
  | some f => f.name == "args"
  | none => false

/-- The formals that take one actual argument each. -/
def fixed (s : Signature) : List Formal :=
  if s.isVariadic then s.formals.dropLast else s.formals

/-- The summary of the formals that usage lines show. -/
def usage (s : Signature) : String :=
  " ".intercalate
    (s.fixed.map Formal.usage ++ if s.isVariadic then ["?arg arg ...?"] else [])

/-- The formals with their values, and the actual arguments that are left. -/
def bindFixed : List Formal → List String → Option (List (String × String) × List String)
  | [], actuals => some ([], actuals)
  | f :: fs, v :: vs => (bindFixed fs vs).map fun r => ((f.name, v) :: r.1, r.2)
  | f :: fs, [] =>
    match f.fallback with
    | none => none
    | some v => (bindFixed fs []).map fun r => ((f.name, v) :: r.1, r.2)

/-- The values of the formals, in order, or `none` if the number of actual arguments
does not fit. -/
def bind (s : Signature) (actuals : List String) : Option (List (String × String)) :=
  match bindFixed s.fixed actuals with
  | none => none
  | some (bound, rest) =>
    if s.isVariadic then some (bound ++ [("args", ListText.merge rest)])
    else if rest = [] then some bound
    else none

end Signature

/-- A procedure: formal arguments and the script to run with them. -/
structure Procedure where
  name : String
  signature : Signature
  body : String
  /-- The private namespace of the ensemble that the procedure is a part of. -/
  home : String
deriving DecidableEq, Repr

end Ensembles
