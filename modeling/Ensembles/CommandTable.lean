import Ensembles.Native

/-!
# Commands

The commands of an interpreter: a name stands for a handle, and a handle for what runs
when the command is invoked. A new command replaces the one of its name under a new
handle.
-/

namespace Ensembles

/-- The commands that every interpreter has from the start. -/
inductive Builtin where
  | concat
  | ensemble
  | error
  | list
  | puts
  | ret
  | set
deriving DecidableEq, Repr

namespace Builtin

def all : List Builtin := [concat, ensemble, error, list, puts, ret, set]

def name : Builtin → String
  | concat => "concat"
  | ensemble => "ensemble"
  | error => "error"
  | list => "list"
  | puts => "puts"
  | ret => "return"
  | set => "set"

end Builtin

/-- What runs when a command is invoked. -/
inductive Target where
  | builtin (b : Builtin)
  | native (h : Hosted)
  /-- The ensemble whose command this is. -/
  | ensemble

/-- The natives that the target owns. -/
def Target.natives : Target → List Hosted
  | native h => [h]
  | builtin _ | ensemble => []

/-- A command. -/
structure CommandEntry where
  handle : Handle
  name : String
  target : Target

/-- The commands of an interpreter. Two maps are kept side by side, one from names to
handles and one from handles to commands; that they agree is proved, not built in. -/
structure CommandTable where
  /-- The handle that each name stands for. -/
  byName : List (String × Handle)
  /-- The commands, each under its handle. -/
  entries : List CommandEntry
  /-- The number of handles issued so far. Handles have 32 bits; fewer than 2^32 commands
  are assumed to be made in the life of an interpreter. -/
  issued : Nat

namespace CommandTable

def empty : CommandTable := ⟨[], [], 0⟩

/-- The handle that `name` stands for. -/
def handleOf? (t : CommandTable) (name : String) : Option Handle := t.byName.lookup name

/-- The command of the handle `h`. -/
def get? (t : CommandTable) (h : Handle) : Option CommandEntry :=
  t.entries.find? (·.handle = h)

/-- The command of the name `name`. -/
def find? (t : CommandTable) (name : String) : Option CommandEntry :=
  (t.handleOf? name).bind t.get?

/-- The natives that the command of the handle `h` owns. -/
def nativesOf (t : CommandTable) (h : Handle) : List Hosted :=
  (t.get? h).elim [] (·.target.natives)

/-- The table without the command of the handle `h`. Its name goes too, unless that stands
for another command. -/
def remove (t : CommandTable) (h : Handle) : CommandTable :=
  match t.get? h with
  | none => t
  | some a =>
    { t with
      byName :=
        if t.handleOf? a.name = some h then t.byName.filter (·.1 ≠ a.name) else t.byName
      entries := t.entries.filter (·.handle ≠ h) }

/-- The handle that the next command gets. -/
def nextHandle (t : CommandTable) : Handle := ⟨t.issued + 1⟩

/-- The table with a new command, in the place of one of the same name. -/
def put (t : CommandTable) (name : String) (target : Target) : CommandTable :=
  let cleared := (t.handleOf? name).elim t t.remove
  { byName := (name, t.nextHandle) :: cleared.byName.filter (·.1 ≠ name)
    entries := ⟨t.nextHandle, name, target⟩ :: cleared.entries
    issued := t.issued + 1 }

/-- The names of the commands in increasing order. -/
def names (t : CommandTable) : List String :=
  (t.byName.map (·.1)).mergeSort fun a b => decide (a ≤ b)

/-- The table of the builtin commands. -/
def initial : CommandTable :=
  Builtin.all.foldl (fun t b => t.put b.name (.builtin b)) empty

end CommandTable

end Ensembles
