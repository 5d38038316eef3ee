import Ensembles.Catalog

/-!
# Usage text

A usage line of a part is the words that invoke it and a summary of its arguments. The
listing of an ensemble is one line for each part, in table order; it is the same text
wherever it is shown. The catch-all part and the internal part are never listed.
-/

namespace Ensembles

/-- The name of the part that gets every word that selects no other part. -/
def catchAll : String := "@error"

/-- The name of the part that is never shown. -/
def internalPart : String := "@itcl-builtin_info"

namespace Catalog

/-- The words that invoke the ensemble, as a list: the name of its top-level command and
the names of the parts that lead to it. -/
def path (c : Catalog) (id : EnsembleId) : String :=
  match c.registry.trail id with
  | none => ""
  | some (top, names) =>
    ListText.merge (((c.commands.get? top.command).elim "" (·.name)) :: names)

/-- The words that invoke the part `part` of the ensemble. -/
def invocation (c : Catalog) (id : EnsembleId) (part : String) : String :=
  if c.path id = "" then ListText.quote part else c.path id ++ " " ++ ListText.quote part

/-- The summary of the arguments of a part. A nested ensemble without one of its own takes
the name of a part and its arguments. -/
def argumentSummary (p : Part Handler) : String :=
  match p.usage.getD "", p.handler with
  | "", .ensemble _ => "option ?arg arg ...?"
  | usage, _ => usage

/-- The usage line of a part of the ensemble. -/
def usageLine (c : Catalog) (id : EnsembleId) (p : Part Handler) : String :=
  if argumentSummary p = "" then c.invocation id p.name
  else c.invocation id p.name ++ " " ++ argumentSummary p

/-- The usage lines of parts of the ensemble, each on a line of its own. -/
def usageLines (c : Catalog) (id : EnsembleId) (ps : List (Part Handler)) : String :=
  "\n".intercalate (ps.map fun p => "  " ++ c.usageLine id p)

/-- Whether the part is shown in listings. -/
def isListed (p : Part Handler) : Bool := p.name ≠ catchAll && p.name ≠ internalPart

/-- The listing of the ensemble. A catch-all part makes it open-ended. -/
def usage (c : Catalog) (id : EnsembleId) : String :=
  match c.registry.get? id with
  | none => ""
  | some e =>
    c.usageLines id (e.parts.toList.filter isListed) ++
      if (e.parts.find? catchAll).isSome then "\n...and others described on the man page" else ""

/-- The usage line of the part `part` of the ensemble, or the words that invoke it if
there is no such part any more. -/
def usageOf (c : Catalog) (id : EnsembleId) (part : String) : String :=
  match (c.registry.get? id).bind (·.parts.find? part) with
  | none => c.invocation id part
  | some p => c.usageLine id p

/-- The listing of the ensemble at the path that `text` writes, if there is one. -/
def usageAt (c : Catalog) (text : String) : Option String :=
  match c.resolveText text with
  | .error _ => none
  | .ok id => some (c.usage id)

/-- The listing of the ensemble of the command `name`, if there is one. -/
def usageOfCommand (c : Catalog) (name : String) : Option String :=
  ((c.commands.handleOf? name).bind c.registry.idOf?).map c.usage

/-- What runs for the part that `word` selects in the ensemble at the path that `text`
writes. -/
def part (c : Catalog) (text word : String) : Except Cause Handler := do
  let id ← c.resolveText text
  match c.registry.get? id with
  | none => .error (.invalidName text)
  | some e =>
    match e.parts.resolve word with
    | .found p => .ok p.handler
    | .ambiguous ps => .error (.ambiguousPart word (c.usageLines id ps))
    | .absent => .error (.unknownPart word (c.usage id))

end Catalog

end Ensembles
