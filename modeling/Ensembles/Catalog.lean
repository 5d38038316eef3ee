import Ensembles.Registry

/-!
# The catalogue of an interpreter

The commands and the ensembles together, which change hand in hand: an ensemble is
made with its command and goes with it, and a command that replaces the one of an
ensemble destroys that ensemble with all that hangs in it. `Catalog.locateTop` and
`Catalog.locateNested` find or make an ensemble; `Catalog.resolve` follows a path of
full names.
-/

namespace Ensembles

/-- The commands and the ensembles of an interpreter. -/
structure Catalog where
  commands : CommandTable
  registry : Registry

/-- What came of an attempt to change a catalogue: the catalogue afterwards, and the
natives that lost their owner, first to last. A failed attempt may have changed it. -/
structure Edit (α : Type) where
  outcome : Except Cause α
  catalog : Catalog
  freed : List Hosted

namespace Catalog

/-- The catalogue of the builtin commands. -/
def initial (root : String) : Catalog := ⟨.initial, .empty root⟩

/-- The attempt fails and changes nothing. -/
def refuse {α : Type} (c : Catalog) (cause : Cause) : Edit α := ⟨.error cause, c, []⟩

/-- The attempt gives `a` and changes nothing. -/
def keep {α : Type} (c : Catalog) (a : α) : Edit α := ⟨.ok a, c, []⟩

/-! ## Destroying ensembles -/

/-- The catalogue without the ensemble `e` and its command. What `e` hangs in loses the part,
if it is still there and has `e` at that place. -/
def forget (c : Catalog) (e : Ensemble) : Catalog where
  commands := c.commands.remove e.command
  registry := (c.registry.remove e).detach e

theorem size_forget {c : Catalog} {h : Handle} {e : Ensemble}
    (hb : c.registry.bound? h = some e) :
    (c.forget e).registry.size + e.parts.size < c.registry.size := by
  have hremove := Registry.size_remove_le (Registry.mem_of_bound? hb)
  have hdetach : (c.forget e).registry.size ≤ (c.registry.remove e).size :=
    Registry.size_detach_le _ e
  omega

/-- What the destruction of ensembles leaves of a catalogue. -/
structure Remains (c : Catalog) where
  catalog : Catalog
  /-- The natives that lost their owner, first to last. -/
  freed : List Hosted
  /-- What is left is not larger, so that to go on with it comes to an end. -/
  size_le : catalog.registry.size ≤ c.registry.size

mutual

/-- Destroys the ensemble that is bound to `h`, if there is one: it is forgotten first, and
then its parts go. -/
def destroy (c : Catalog) (h : Handle) : Remains c :=
  match hb : c.registry.bound? h with
  | none => ⟨c, [], Nat.le_refl _⟩
  | some e =>
    let r := destroyParts (c.forget e) e.parts
    { catalog := r.catalog
      freed := c.commands.nativesOf e.command ++ r.freed
      size_le := by have := size_forget hb; have := r.size_le; omega }
termination_by c.registry.size
decreasing_by exact size_forget hb

/-- Takes the parts of a forgotten ensemble out of their table front to back. A part that is
an ensemble is destroyed by its command, which is looked up in what the parts before it have
left. -/
def destroyParts (c : Catalog) (t : PartTable Handler) : Remains c :=
  match _ : t.first? with
  | none => ⟨c, [], Nat.le_refl _⟩
  | some p =>
    let r : Remains c :=
      match p.handler with
      | .ensemble child => destroy c child
      | .native n => ⟨c, [n], Nat.le_refl _⟩
      | .procedure _ => ⟨c, [], Nat.le_refl _⟩
    let r' := destroyParts r.catalog t.eraseFirst
    ⟨r'.catalog, r.freed ++ r'.freed, Nat.le_trans r'.size_le r.size_le⟩
termination_by c.registry.size + t.size
decreasing_by
  · have := PartTable.size_eraseFirst_lt ‹_›
    omega
  · exact Nat.add_lt_add_of_le_of_lt r.size_le (PartTable.size_eraseFirst_lt ‹_›)

end

/-! ## Commands -/

/-- The catalogue without the command `name`, and the natives that lost their owner. -/
def delete (c : Catalog) (name : String) : Edit Bool :=
  match c.commands.handleOf? name with
  | none => c.keep false
  | some h =>
    let r := destroy { c with commands := c.commands.remove h } h
    ⟨.ok true, r.catalog, c.commands.nativesOf h ++ r.freed⟩

/-- The catalogue with a new command, which replaces and destroys the one of its name. -/
def put (c : Catalog) (name : String) (target : Target) : Edit Handle :=
  let placed := { c with commands := c.commands.put name target }
  match c.commands.handleOf? name with
  | none => ⟨.ok c.commands.nextHandle, placed, []⟩
  | some old =>
    let r := placed.destroy old
    ⟨.ok c.commands.nextHandle, r.catalog, r.freed ++ c.commands.nativesOf old⟩

/-- Whether the command is bound to an ensemble. -/
def isEnsemble (c : Catalog) (h : Handle) : Bool := (c.registry.idOf? h).isSome

/-! ## Making ensembles -/

/-- A new top-level ensemble. -/
def createTop (c : Catalog) (name : String) : Edit EnsembleId :=
  if name = "" then c.refuse (.invalidName "")
  else
    let edit := c.put name .ensemble
    { outcome := .ok edit.catalog.registry.nextId
      catalog := { edit.catalog with
        registry := edit.catalog.registry.add c.commands.nextHandle none }
      freed := edit.freed }

/-- The ensemble of the top-level command `name`, made if there is no such command. -/
def locateTop (c : Catalog) (name : String) : Edit EnsembleId :=
  match c.commands.handleOf? name with
  | none => c.createTop name
  | some h =>
    match c.registry.idOf? h with
    | none => c.refuse (.commandNotEnsemble name)
    | some id => c.keep id

/-- A new ensemble that is the part `name` of `parent`. Its private command may take the
place of another command, and that may have been the one of an ensemble above it; then
there is nothing left for the new ensemble to hang in, and it goes at once. -/
def createNested (c : Catalog) (parent : EnsembleId) (name : String) : Edit EnsembleId :=
  match c.registry.get? parent with
  | none => c.refuse (.invalidName name)
  | some p =>
    if (p.parts.find? name).isSome then c.refuse (.duplicatePart name)
    else
      let h := c.commands.nextHandle
      let edit := c.put (c.registry.privateName parent name) .ensemble
      let made := { edit.catalog with
        registry := edit.catalog.registry.add h (some ⟨parent, name⟩) }
      match (edit.catalog.registry.get? parent).bind (·.parts.insert? name none (.ensemble h)) with
      | none => ⟨.error (.invalidName name), (made.destroy h).catalog, edit.freed⟩
      | some parts =>
        { outcome := .ok edit.catalog.registry.nextId
          catalog := { made with registry := made.registry.modifyParts parent fun _ => parts }
          freed := edit.freed }

/-- The ensemble that is the part `name` of `parent`, made if there is no such part. -/
def locateNested (c : Catalog) (parent : EnsembleId) (name : String) : Edit EnsembleId :=
  match (c.registry.get? parent).bind (·.parts.find? name) with
  | none => c.createNested parent name
  | some ⟨_, _, _, .ensemble h⟩ =>
    match c.registry.idOf? h with
    | none => c.refuse (.partInTheWay name)
    | some id => c.keep id
  | some _ => c.refuse (.partInTheWay name)

/-- The catalogue with a new part in the ensemble `id`. -/
def addPart (c : Catalog) (id : EnsembleId) (name : String) (usage : Option String)
    (handler : Handler) : Except Cause Catalog :=
  match c.registry.get? id with
  | none => .error (.invalidName name)
  | some e =>
    match e.parts.insert? name usage handler with
    | none => .error (.duplicatePart name)
    | some parts =>
      .ok { c with registry := c.registry.modifyParts id fun _ => parts }

/-! ## Paths -/

/-- The ensemble reached from `id` by the parts `names`; `walked` are the words that led
to `id`, last to first. -/
def resolveFrom (c : Catalog) (walked : List String) (id : EnsembleId) :
    List String → Except Cause EnsembleId
  | [] => .ok id
  | name :: names =>
    match (c.registry.get? id).bind (·.parts.find? name) with
    | none => .error (.invalidName (ListText.merge walked.reverse))
    | some ⟨_, _, _, .ensemble h⟩ =>
      match c.registry.idOf? h with
      | none => .error (.partNotEnsemble name)
      | some id => resolveFrom c (name :: walked) id names
    | some _ => .error (.partNotEnsemble name)

/-- The ensemble of a path: the name of a top-level command and full names of parts. -/
def resolve (c : Catalog) : List String → Except Cause EnsembleId
  | [] => .error (.invalidName "")
  | name :: names =>
    match (c.commands.handleOf? name).bind c.registry.idOf? with
    | none => .error (.commandNotEnsemble name)
    | some id => c.resolveFrom [name] id names

/-- The ensemble of the path that `text` writes as a list. -/
def resolveText (c : Catalog) (text : String) : Except Cause EnsembleId :=
  match ListText.split text with
  | .error e => .error (.malformed e)
  | .ok names => c.resolve names

/-- Finds or makes the ensemble of the path that `text` writes; all ensembles above it
have to exist. The answer is its command. -/
def create (c : Catalog) (text : String) : Edit Handle :=
  match ListText.split text with
  | .error e => c.refuse (.malformed e)
  | .ok [] => c.refuse (.invalidName text)
  | .ok [name] => commandOf (c.locateTop name)
  | .ok names =>
    match c.resolve names.dropLast with
    | .error cause => c.refuse cause
    | .ok parent => commandOf (c.locateNested parent (names.getLast?.getD ""))
where
  /-- The command of the ensemble that the attempt gives. -/
  commandOf (edit : Edit EnsembleId) : Edit Handle :=
    { edit with
      outcome := edit.outcome.bind fun id =>
        match edit.catalog.registry.get? id with
        | none => .error (.invalidName id.number.repr)
        | some e => .ok e.command }

/-- The natives that commands and parts own. -/
def natives (c : Catalog) : List Hosted :=
  c.commands.entries.flatMap (·.target.natives) ++
    c.registry.ensembles.flatMap fun e =>
      e.parts.toList.flatMap fun p =>
        match p.handler with
        | .native n => [n]
        | _ => []

end Catalog

end Ensembles
