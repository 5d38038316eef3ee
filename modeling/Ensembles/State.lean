import Ensembles.Catalog

/-!
# The state of an interpreter

The catalogue, the variables, the text written so far, and the natives that are being
called, are kept by the host or have been released. A native whose owner is gone is released
at once, or when the last call of it is over and the host keeps it no more. `Run` is a
computation that changes the state and gives a value or an error; a failed one keeps the
changes made before it failed.
-/

namespace Ensembles

/-- Variables and their values. -/
structure Scope where
  entries : List (String × String)
deriving DecidableEq, Repr

namespace Scope

def empty : Scope := ⟨[]⟩

/-- The value of the variable `name`. -/
def get? (s : Scope) (name : String) : Option String :=
  (s.entries.find? (·.1 = name)).map (·.2)

/-- The variables with a new value for `name`. -/
def set (s : Scope) (name value : String) : Scope :=
  ⟨(name, value) :: s.entries.filter (·.1 ≠ name)⟩

/-- The variables that a sequence of assignments makes. -/
def ofBindings (bindings : List (String × String)) : Scope :=
  bindings.foldl (fun s b => s.set b.1 b.2) empty

end Scope

/-- The state of an interpreter. -/
structure State where
  catalog : Catalog
  globals : Scope
  /-- The variables of the procedures that are running, the innermost first. -/
  locals : List Scope
  /-- The text that `puts` wrote. -/
  output : String
  /-- The serial numbers of the natives that are being called, the innermost first. -/
  calling : List Nat
  /-- The natives that the host and its natives keep after a look-up, once for each copy. -/
  kept : List Hosted
  /-- The natives without an owner that are being called or kept. -/
  orphans : List Hosted
  /-- The natives that were released, in order. -/
  released : List Hosted
  /-- The number of natives given to the interpreter. -/
  received : Nat
  /-- What the host and its natives remember. -/
  memory : String

namespace State

/-- The state of a new interpreter. -/
def initial (root : String) : State where
  catalog := .initial root
  globals := .empty
  locals := []
  output := ""
  calling := []
  kept := []
  orphans := []
  released := []
  received := 0
  memory := ""

/-! ## Variables -/

/-- A variable name without the double colons in front. -/
def stripColons : List Char → List Char
  | ':' :: ':' :: cs => stripColons cs
  | cs => cs

/-- Whether the name starts with a double colon, which names a global variable
everywhere. -/
def isGlobalName (name : String) : Bool := [':', ':'].isPrefixOf name.toList

/-- The value of the variable that `name` names here. -/
def get? (s : State) (name : String) : Option String :=
  let key := String.ofList (stripColons name.toList)
  match isGlobalName name, s.locals with
  | false, scope :: _ => scope.get? key
  | _, _ => s.globals.get? key

/-- The state with a new value for the variable that `name` names here. -/
def set (s : State) (name value : String) : State :=
  let key := String.ofList (stripColons name.toList)
  match isGlobalName name, s.locals with
  | false, scope :: outer => { s with locals := scope.set key value :: outer }
  | _, _ => { s with globals := s.globals.set key value }

/-- The state inside a procedure whose variables are `scope`. -/
def enter (s : State) (scope : Scope) : State := { s with locals := scope :: s.locals }

/-- The state after the innermost procedure. -/
def leave (s : State) : State := { s with locals := s.locals.tail }

/-- The state with a line of text written. -/
def put (s : State) (line : String) : State := { s with output := s.output ++ line ++ "\n" }

/-! ## Natives -/

/-- The native `n` as the interpreter is given it. -/
def receive (s : State) (n : Native) : Hosted × State :=
  (⟨s.received, n⟩, { s with received := s.received + 1 })

/-- The native of the number `serial` is kept by the host or by natives. -/
def Keeps (s : State) (serial : Nat) : Prop := serial ∈ s.kept.map (·.serial)

instance (s : State) (serial : Nat) : Decidable (s.Keeps serial) :=
  inferInstanceAs (Decidable (serial ∈ s.kept.map (·.serial)))

/-- The native of the number `serial` is being called or is kept. -/
def InUse (s : State) (serial : Nat) : Prop := serial ∈ s.calling ∨ s.Keeps serial

instance (s : State) (serial : Nat) : Decidable (s.InUse serial) :=
  inferInstanceAs (Decidable (serial ∈ s.calling ∨ s.Keeps serial))

/-- The state after a native lost its owner. -/
def letGo (s : State) (h : Hosted) : State :=
  if s.InUse h.serial then { s with orphans := s.orphans ++ [h] }
  else { s with released := s.released ++ [h] }

/-- The state with the native of the number `serial` released, if it has no owner and is not
in use any more. -/
def settle (s : State) (serial : Nat) : State :=
  if s.InUse serial then s
  else
    let (ended, orphans) := s.orphans.partition (·.serial = serial)
    { s with orphans, released := s.released ++ ended }

/-- The state in a call of the native `h`. -/
def beginCall (s : State) (h : Hosted) : State := { s with calling := h.serial :: s.calling }

/-- The state after a call of the native `h`. -/
def endCall (s : State) (h : Hosted) : State :=
  { s with calling := s.calling.erase h.serial }.settle h.serial

/-- The native of the number `serial`, if it is kept. -/
def kept? (s : State) (serial : Nat) : Option Hosted := s.kept.find? (·.serial = serial)

/-- The state with the native `h` kept, once more if it is kept already. -/
def keep (s : State) (h : Hosted) : State := { s with kept := h :: s.kept }

/-- The state with the native of the number `serial` kept once less. -/
def drop (s : State) (serial : Nat) : State :=
  { s with kept := s.kept.eraseP (·.serial = serial) }.settle serial

/-- The state after the interpreter is dropped, with its commands and ensembles. What is kept
is kept on. -/
def close (s : State) : State :=
  s.catalog.natives.foldl letGo
    { s with catalog := ⟨.empty, .empty s.catalog.registry.root⟩ }

end State

/-- A computation that may change the state and may fail. -/
abbrev Run := EStateM Error State

namespace Run

variable {α : Type}

/-- The computation that fails with the cause `cause`. -/
def fail (cause : Cause) : Run α := throw (.of cause)

/-- `x`, with its error changed in view of the state that it left. -/
def mapError (f : State → Error → Error) (x : Run α) : Run α := fun s =>
  match x s with
  | .ok a s' => .ok a s'
  | .error e s' => .error (f s' e) s'

/-- `x`, with a note on its error. -/
def noting (n : Note) (x : Run α) : Run α := x.mapError fun _ e => e.note n

/-- `x` as a computation that never fails and gives the outcome of `x`. -/
def attempt (x : Run α) : Run (Except Error α) := fun s =>
  match x s with
  | .ok a s' => .ok (.ok a) s'
  | .error e s' => .ok (.error e) s'

/-- `x` between a change of the state and another one, which is made in any case. -/
def between (enter leave : State → State) (x : Run α) : Run α := fun s =>
  match x (enter s) with
  | .ok a s' => .ok a (leave s')
  | .error e s' => .error e (leave s')

/-- An answer read off the catalogue. -/
def ask (f : Catalog → Except Cause α) : Run α := fun s =>
  match f s.catalog with
  | .ok a => .ok a s
  | .error cause => .error (.of cause) s

/-- A change of the catalogue. The natives that lose their owner are let go. -/
def edit (f : Catalog → Edit α) : Run α := fun s =>
  let e := f s.catalog
  let s' := e.freed.foldl State.letGo { s with catalog := e.catalog }
  match e.outcome with
  | .ok a => .ok a s'
  | .error cause => .error (.of cause) s'

end Run

end Ensembles
