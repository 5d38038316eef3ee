import Ensembles.Error

/-!
# Inquiries

What a host or a native can ask for that is answered at once, without a command or a script
being run: questions about commands and ensembles, and what becomes of handlers that are kept
after they were looked up. The host and its natives also have a text in common that they can
read and change, so a native may remember something from one call to the next.
-/

namespace Ensembles

/-- A command of one interpreter. A handle is never issued twice. -/
structure Handle where
  number : Nat
deriving DecidableEq, Repr

/-- An ensemble of one interpreter. An id is never issued twice. -/
structure EnsembleId where
  number : Nat
deriving DecidableEq, Repr

mutual

/-- What there is to know of an ensemble. -/
inductive EnsembleReport where
  | mk (path : String) (id : EnsembleId) (home : String) (parts : List PartReport)

/-- What there is to know of a part. -/
inductive PartReport where
  | mk (name : String) (minChars : Nat) (usage : String) (kind : PartKind)

/-- What a part is. -/
inductive PartKind where
  | native
  | procedure
  | ensemble (report : EnsembleReport)

end

/-- What runs for a part that was looked up; a native is told by its serial number. -/
inductive Selected where
  | native (serial : Nat)
  | procedure (p : Procedure)
  | ensemble (command : Handle)
deriving DecidableEq, Repr

/-- What is answered at once. -/
inductive Inquiry where
  | find (name : String)
  | isEnsemble (h : Handle)
  | commandNames
  /-- The usage listing of the ensemble at a path, if there is one. -/
  | usage (path : String)
  /-- The usage listing of the ensemble of a command, if there is one. -/
  | usageOfCommand (name : String)
  | reports
  /-- What runs for the part that a word selects. If that is a native, it is kept. -/
  | part (path word : String)
  /-- Keeps a native that is kept once more. -/
  | copy (serial : Nat)
  /-- Ceases to keep a native, once. -/
  | drop (serial : Nat)
  | remembered
  | remember (text : String)
deriving DecidableEq, Repr

/-- What is answered. -/
def Inquiry.Answer : Inquiry → Type
  | find _ => Option Handle
  | isEnsemble _ => Bool
  | commandNames => List String
  | usage _ | usageOfCommand _ => Option String
  | reports => List EnsembleReport
  | part _ _ => Except Error Selected
  | copy _ | drop _ | remember _ => Unit
  | remembered => String

end Ensembles
