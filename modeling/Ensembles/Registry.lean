import Ensembles.CommandTable
import Ensembles.PartTable

/-!
# Ensembles and how they nest

An ensemble is bound to a command and has a table of parts; a part may be another
ensemble, which then remembers where it hangs. Ensembles are numbered as they are
made, and a nested one is made after the one it hangs in. So the way up from an
ensemble (`Registry.trail`) leads to older ones only.
-/

namespace Ensembles

/-- What runs when a part is selected. -/
inductive Handler where
  | native (h : Hosted)
  | procedure (p : Procedure)
  /-- The ensemble whose command is `command`. -/
  | ensemble (command : Handle)

/-- Where a nested ensemble hangs. -/
structure ParentLink where
  ensemble : EnsembleId
  part : String
deriving DecidableEq, Repr

/-- An ensemble. -/
structure Ensemble where
  id : EnsembleId
  command : Handle
  parent : Option ParentLink
  /-- The private namespace of the ensemble. -/
  home : String
  parts : PartTable Handler

/-- The ensembles of an interpreter. Two maps are kept side by side, one from ids to
ensembles and one from the commands of ensembles to their ids; that they agree is
proved, not built in. -/
structure Registry where
  /-- The name under which private namespaces and commands lie. -/
  root : String
  /-- The ensembles, each under its id, the youngest first. -/
  ensembles : List Ensemble
  /-- The id of the ensemble that is bound to each command. -/
  byCommand : List (Handle × EnsembleId)
  /-- The number of ids issued so far. Ids have 32 bits; fewer than 2^32 ensembles are
  assumed to be made in the life of an interpreter. -/
  issued : Nat

namespace Registry

/-- The registry without ensembles. -/
def empty (root : String) : Registry := ⟨root, [], [], 0⟩

/-- The ensemble of the id `id`. -/
def get? (r : Registry) (id : EnsembleId) : Option Ensemble :=
  r.ensembles.find? (·.id = id)

/-- The id of the ensemble that is bound to the command `h`. -/
def idOf? (r : Registry) (h : Handle) : Option EnsembleId := r.byCommand.lookup h

/-- The ensemble that is bound to the command `h`. -/
def bound? (r : Registry) (h : Handle) : Option Ensemble := (r.idOf? h).bind r.get?

/-- The ensembles that hang in no other, in the order of their ids. -/
def topLevel (r : Registry) : List Ensemble :=
  (r.ensembles.filter (·.parent.isNone)).mergeSort fun x y =>
    decide (x.id.number ≤ y.id.number)

/-- The private name of the command of the ensemble that is the part `name` of
`parent`. -/
def privateName (r : Registry) (parent : EnsembleId) (name : String) : String :=
  r.root ++ "::subensembles::" ++ parent.number.repr ++ "::" ++ name

/-! ## The way up -/

/-- The top-level ensemble above `id`, and the names of the parts that lead from it down
to `id` with the names `below` after them; the ensembles to search are given youngest
first. -/
def climb (below : List String) : List Ensemble → EnsembleId → Option (Ensemble × List String)
  | [], _ => none
  | e :: older, id =>
    if e.id = id then
      match e.parent with
      | none => some (e, below)
      | some link => climb (link.part :: below) older link.ensemble
    else climb below older id

/-- The top-level ensemble above `id` and the names of the parts that lead from it down
to `id`. -/
def trail (r : Registry) (id : EnsembleId) : Option (Ensemble × List String) :=
  climb [] r.ensembles id

/-! ## Changes -/

/-- The id that the next ensemble gets. -/
def nextId (r : Registry) : EnsembleId := ⟨r.issued + 1⟩

/-- The registry with a new ensemble without parts. -/
def add (r : Registry) (command : Handle) (parent : Option ParentLink) : Registry :=
  { r with
    ensembles :=
      ⟨r.nextId, command, parent, r.root ++ "::" ++ r.nextId.number.repr, .empty⟩ :: r.ensembles
    byCommand := (command, r.nextId) :: r.byCommand.filter (·.1 ≠ command)
    issued := r.issued + 1 }

/-- The registry with the parts of the ensemble `id` changed. -/
def modifyParts (r : Registry) (id : EnsembleId) (f : PartTable Handler → PartTable Handler) :
    Registry :=
  { r with
    ensembles := r.ensembles.map fun e => if e.id = id then { e with parts := f e.parts } else e }

/-- The registry without the ensemble `e`. -/
def remove (r : Registry) (e : Ensemble) : Registry :=
  { r with
    ensembles := r.ensembles.filter (·.id ≠ e.id)
    byCommand := r.byCommand.filter (·.1 ≠ e.command) }

/-- The table without the part `name`, if that part is the ensemble bound to `command`. -/
def unhang (command : Handle) (name : String) (t : PartTable Handler) : PartTable Handler :=
  match t.find? name with
  | some ⟨_, _, _, .ensemble h⟩ => if h = command then t.erase name else t
  | _ => t

/-- The registry with the ensemble `e` taken out of the table it hangs in. -/
def detach (r : Registry) (e : Ensemble) : Registry :=
  match e.parent with
  | none => r
  | some link => r.modifyParts link.ensemble (unhang e.command link.part)

/-! ## Sizes -/

/-- The number of these ensembles and of their parts. -/
def total : List Ensemble → Nat
  | [] => 0
  | e :: es => e.parts.size + 1 + total es

/-- The number of ensembles and of their parts. -/
def size (r : Registry) : Nat := total r.ensembles

variable {r : Registry} {e : Ensemble} {h : Handle}

theorem mem_of_bound? (hb : r.bound? h = some e) : e ∈ r.ensembles := by
  obtain ⟨id, -, hg⟩ := Option.bind_eq_some_iff.1 hb
  exact List.mem_of_find?_eq_some hg

/-- With an ensemble its parts go. -/
theorem size_remove_le (he : e ∈ r.ensembles) :
    (r.remove e).size + e.parts.size + 1 ≤ r.size := by
  have hfilter (l : List Ensemble) :
      total (l.filter (·.id ≠ e.id)) ≤ total l ∧
        (e ∈ l → total (l.filter (·.id ≠ e.id)) + e.parts.size + 1 ≤ total l) := by
    induction l with
    | nil => exact ⟨Nat.le_refl _, nofun⟩
    | cons x l ih =>
      rw [List.filter_cons, total, List.mem_cons]
      split
      · rename_i hx
        rw [total]
        refine ⟨by omega, ?_⟩
        rintro (rfl | hm)
        · simp at hx
        · have := ih.2 hm
          omega
      · refine ⟨by omega, ?_⟩
        rintro (rfl | hm)
        · omega
        · have := ih.2 hm
          omega
  exact (hfilter r.ensembles).2 he

theorem size_unhang_le (h : Handle) (name : String) (t : PartTable Handler) :
    (unhang h name t).size ≤ t.size := by
  unfold unhang
  split
  · split
    · exact t.size_erase_le name
    · exact Nat.le_refl _
  · exact Nat.le_refl _

theorem size_detach_le (r : Registry) (e : Ensemble) : (r.detach e).size ≤ r.size := by
  unfold detach
  split
  · exact Nat.le_refl _
  · rename_i link _
    unfold modifyParts size
    induction r.ensembles with
    | nil => exact Nat.le_refl _
    | cons x l ih =>
      have hx := size_unhang_le e.command link.part x.parts
      simp only [List.map_cons, total] at ih ⊢
      refine Nat.add_le_add ?_ ih
      split
      · exact Nat.succ_le_succ hx
      · exact Nat.le_refl _

end Registry

end Ensembles
