import Ensembles.Native.Stock
import Ensembles.Proofs.Resolving
import Ensembles.Proofs.Tables

/-!
# Abbreviated calls

The words of a call of an ensemble are resolved one by one, each in the ensemble that the words
before it lead to. `Catalog.spell` puts full names in the place of those words that select a
part. `Run.dispatch_spellFrom` says that an ensemble cannot tell the difference, however deep
the words lead; so in a reachable interpreter a call that is spelled out gives the same value or
error, with the same notes, and leaves the same interpreter
(`Interpreter.invoke_spell`).
-/

namespace Ensembles

namespace Catalog

/-- The words for the ensemble bound to `h` with the first one spelled out, and, if it selects
an ensemble, those for that ensemble. A word that selects no part stays, with all after it. -/
def spellFrom (c : Catalog) (h : Handle) : List String → List String
  | [] => []
  | word :: words =>
    match c.registry.bound? h with
    | none => word :: words
    | some e =>
      match e.parts.resolve word with
      | .found p =>
        p.name :: match p.handler with
          | .ensemble child => c.spellFrom child words
          | _ => words
      | _ => word :: words

/-- The words of a call with the names of parts spelled out, if it is of an ensemble. -/
def spell (c : Catalog) : List String → List String
  | [] => []
  | name :: words =>
    match c.commands.find? name with
    | some ⟨h, _, .ensemble⟩ => name :: c.spellFrom h words
    | _ => name :: words

end Catalog

namespace Run

variable {α β : Type} {s : State}

theorem bind_congr_at {x y : Run α} (f : α → Run β) (h : x s = y s) :
    (x >>= f) s = (y >>= f) s := by
  simp only [bind, EStateM.bind, h]

theorem callNotedPart_congr_at {deeper : Deeper} {id : EnsembleId} {part : String}
    {handler : Handler} {args args' : List String}
    (h : callPart deeper id part handler args s = callPart deeper id part handler args' s) :
    callNotedPart deeper id part handler args s = callNotedPart deeper id part handler args' s := by
  simp only [callNotedPart, mapError, h]

/-- An ensemble does the same if the words that lead on from it are spelled out. -/
theorem dispatch_spellFrom (ht : s.catalog.registry.Tabled) (levels : Nat) (h : Handle)
    (name : String) (words : List String) :
    dispatch (perform levels) h (name :: s.catalog.spellFrom h words) s =
      dispatch (perform levels) h (name :: words) s := by
  induction words generalizing levels h name with
  | nil => rfl
  | cons word words ih =>
    rw [Catalog.spellFrom]
    cases hb : s.catalog.registry.bound? h with
    | none => rfl
    | some e =>
      simp only
      cases hr : e.parts.resolve word with
      | absent => rfl
      | ambiguous ps => rfl
      | found p =>
        have hname := (ht.bound? hb).resolve_name hr
        simp only [dispatch, hb, select, hr, hname]
        refine callNotedPart_congr_at ?_
        cases p.handler with
        | native n => rfl
        | procedure q => rfl
        | ensemble child =>
          cases levels with
          | zero => rfl
          | succ levels => exact bind_congr_at _ (bind_congr_at _ (ih levels child p.name))

theorem invoke_spell_at (ht : s.catalog.registry.Tabled) (levels : Nat) (argv : List String) :
    invoke (perform levels) (s.catalog.spell argv) s = invoke (perform levels) argv s := by
  cases argv with
  | nil => rfl
  | cons name words =>
    rw [Catalog.spell]
    cases hf : s.catalog.commands.find? name with
    | none => rfl
    | some entry =>
      obtain ⟨h, _, target⟩ := entry
      cases target with
      | builtin b => rfl
      | native n => rfl
      | ensemble =>
        simp only [invoke, hf, map_eq_pure_bind]
        exact bind_congr_at _ (dispatch_spellFrom ht levels h name words)

end Run

namespace Interpreter

/-- In a reachable interpreter it makes no difference whether a call of an ensemble is
abbreviated or spelled out. -/
theorem invoke_spell {root : String} {i : Interpreter} (hi : Reachable root i)
    (argv : List String) : i.invoke (i.state.catalog.spell argv) = i.invoke argv := by
  have hperform : perform i.limit (.invoke (i.state.catalog.spell argv)) i.state =
      perform i.limit (.invoke argv) i.state := by
    cases i.limit with
    | zero => rfl
    | succ levels => exact Run.invoke_spell_at hi.tables levels argv
  unfold invoke run
  rw [Run.bind_congr_at _ hperform]

/-- So it is where `b` stands for a nested ensemble and `e` for a part of that; the last `b` is
an argument. -/
theorem invoke_spell_nested :
    let i := (((((new "::r" 4).create "a").2.create "a bcd").2.addPart "a bcd" "efg" none
      ⟨none, Program.echo⟩).2)
    i.state.catalog.spell ["a", "b", "e", "b"] = ["a", "bcd", "efg", "b"] ∧
      i.invoke ["a", "bcd", "efg", "b"] = i.invoke ["a", "b", "e", "b"] ∧
      (i.invoke ["a", "b", "e", "b"]).1 = .ok "efg b" := by
  intro i
  have hs : i.state.catalog.spell ["a", "b", "e", "b"] = ["a", "bcd", "efg", "b"] := by
    decide +kernel
  have hi : Reachable "::r" i := .addPart _ _ _ _ (.create _ (.create _ (.new 4)))
  exact ⟨hs, hs ▸ invoke_spell hi ["a", "b", "e", "b"], by decide +kernel⟩

end Interpreter

end Ensembles
