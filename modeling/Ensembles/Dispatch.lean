import Ensembles.Catalog.Usage
import Ensembles.Native.Call

/-!
# Calling ensembles

The first argument of an ensemble selects one of its parts by name or abbreviation. The
part is called with its full name and the other arguments. A word that selects no part
goes to the catch-all part, with that part's name in front, and is an error if there is
none. An error that comes out of a part gets a note on the part and the ensemble.
-/

namespace Ensembles.Run

/-- Calls a part of the ensemble `id`. The first argument is the name of the part. -/
def callPart (deeper : Deeper) (id : EnsembleId) (part : String) (handler : Handler)
    (args : List String) : Run String :=
  match handler with
  | .native h => h.call deeper (part :: args)
  | .procedure p =>
    match p.signature.bind args with
    | none => ask fun c => .error (.wrongArguments (c.usageOf id part))
    | some bindings => do
      return (← deeper (.procedure p.name bindings (← parse .all p.body))).value
  | .ensemble command => do
    return (← deeper (.dispatch command (part :: args))).value

/-- Calls a part of the ensemble `id` and notes its name on an error. -/
def callNotedPart (deeper : Deeper) (id : EnsembleId) (part : String) (handler : Handler)
    (args : List String) : Run String :=
  (callPart deeper id part handler args).mapError fun s e =>
    e.note (.partOf part (s.catalog.path id))

/-- Calls the part of the ensemble `e` that `word` selects. -/
def select (deeper : Deeper) (e : Ensemble) (word : String) (args : List String) : Run String :=
  match e.parts.resolve word with
  | .found p => callNotedPart deeper e.id p.name p.handler args
  | _ =>
    match e.parts.find? catchAll with
    | some p => callNotedPart deeper e.id catchAll p.handler (word :: args)
    | none => ask fun c => .error (.unknownPart word (c.usage e.id))

/-- Calls the ensemble that is bound to `command`. The first argument is the name it is
called by. -/
def dispatch (deeper : Deeper) (command : Handle) (argv : List String) : Run String := fun s =>
  match s.catalog.registry.bound? command, argv with
  | none, _ => fail (.unknownCommand (argv.headD "")) s
  | some e, _ :: word :: args => select deeper e word args s
  | some e, _ => fail (.missingPart (s.catalog.usage e.id)) s

end Ensembles.Run
