import Ensembles.Catalog.Usage
import Ensembles.Task

/-!
# Declarations

`ensemble name body` declares parts of an ensemble, which is made if there is none of
that name. The body is not evaluated; each of its commands is a declaration, which adds
a procedure (`part` and `option`) or goes on in a nested ensemble (`ensemble`). A single
declaration may stand in the place of the body.
-/

namespace Ensembles

/-- The catalogue with a new part in the ensemble `id` that runs a procedure. -/
def Catalog.addProcedure (c : Catalog) (id : EnsembleId) (name : String) (signature : Signature)
    (body : String) : Except Error Catalog :=
  match c.registry.get? id with
  | none => .error (.of (.invalidName name))
  | some e =>
    (c.addPart id name (some signature.usage) (.procedure ⟨name, signature, body, e.home⟩)).mapError
      fun cause => (Error.of cause).note (.addingTo (c.path id))

namespace Run

/-- Declares a part that runs a procedure; `keyword` is the word the declaration starts
with. -/
def declarePart (id : EnsembleId) (keyword : String) : List String → Run Unit
  | [name, spec, body] => fun s =>
    match Signature.parse spec name with
    | .error e => .error (.of (.badSignature e)) s
    | .ok signature =>
      match s.catalog.addProcedure id name signature body with
      | .error e => .error e s
      | .ok catalog => .ok () { s with catalog }
  | _ => fail (.wrongArguments (keyword ++ " name args body"))

/-- A declaration that is not of a nested ensemble. -/
def declareLeaf (id : EnsembleId) (keyword : String) (args : List String) : Run Unit :=
  if keyword = "part" ∨ keyword = "option" then declarePart id keyword args
  else fail (.unknownCommand keyword)

/-- Declares what the body of an ensemble says. -/
def declareBody (deeper : Deeper) (id : EnsembleId) (body : String) : Run Unit := do
  discard (deeper (.body id (← parse .escapes body)))

/-- Finds or makes the ensemble `name`, in the ensemble `current` if there is one. -/
def locate (current : Option EnsembleId) (name : String) : Run EnsembleId :=
  match current with
  | none => edit (·.locateTop name)
  | some parent => edit (·.locateNested parent name)

/-- The command `ensemble` with the arguments given, in the ensemble `current` if there is
one. -/
def declareEnsemble (deeper : Deeper) (current : Option EnsembleId) : List String → Run Unit
  | [] => fail (.wrongArguments "ensemble name ?command arg arg...?")
  | [name] => discard (locate current name)
  | [name, body] => do declareBody deeper (← locate current name) body
  | name :: keyword :: args => do
    let id ← locate current name
    if keyword = "ensemble" then declareEnsemble deeper (some id) args
    else declareLeaf id keyword args

/-- One declaration in the body of the ensemble `id`. -/
def declare (deeper : Deeper) (id : EnsembleId) : List String → Run Unit
  | [] => pure ()
  | keyword :: args =>
    if keyword = "ensemble" then declareEnsemble deeper (some id) args
    else declareLeaf id keyword args

/-- The declarations in the body of the ensemble `id`. -/
def declareAll (deeper : Deeper) (id : EnsembleId) (commands : List Command) : Run Unit :=
  commands.forM fun c =>
    (declare deeper id (c.words.map Word.literal)).mapError fun _ e =>
      (e.traced c.text).note (.bodyLine c.line)

end Run

end Ensembles
