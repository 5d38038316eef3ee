import Ensembles.Native.Stock
import Ensembles.Proofs.SpelledOut

/-!
# Calls by full name

The full name of a part resolves to that part, whatever siblings have come and gone and even if
the name starts theirs, with one exception: the empty text stands for nothing
(`PartTable.Wf.resolve_full_name`). No table refuses a part for its name, so a part may have
the empty name, and then no word selects it.

`Interpreter.part_by_full_name` says what the command of an ensemble does with the full name of
a part: it calls the part, and only if that name is empty the catch-all part, or none.
-/

namespace Ensembles

/-- A part is found under its full name unless that is empty. -/
theorem PartTable.Wf.resolve_full_name {α : Type} {t : PartTable α} (hw : t.Wf) {p : Part α}
    (hp : p ∈ t.toList) : t.resolve p.name = .found p ↔ p.name ≠ "" := by
  constructor
  · intro hr hn
    rw [hn] at hr
    cases hr
  · intro hn
    rw [hw.resolve_eq_scan, hw.sorted.scan_eq_found_iff hn]
    exact ⟨hp, startsWith_of_name_eq rfl, .inl rfl⟩

namespace Run

variable {deeper : Deeper} {s : State} {e : Ensemble} {p : Part Handler}

/-- What an ensemble does with a word that selects none of its parts. -/
def unresolved (deeper : Deeper) (e : Ensemble) (word : String) (args : List String) :
    Run String :=
  match e.parts.find? catchAll with
  | some p => callNotedPart deeper e.id catchAll p.handler (word :: args)
  | none => ask fun c => .error (.unknownPart word (c.usage e.id))

/-- The command of an ensemble calls the part that the word selects. -/
theorem dispatch_of_found (hb : s.catalog.registry.bound? e.command = some e) {word : String}
    (hr : e.parts.resolve word = .found p) (called : String) (args : List String) :
    dispatch deeper e.command (called :: word :: args) s =
      callNotedPart deeper e.id p.name p.handler args s := by
  simp only [dispatch, hb, select, hr]

theorem dispatch_of_absent (hb : s.catalog.registry.bound? e.command = some e) {word : String}
    (hr : e.parts.resolve word = .absent) (called : String) (args : List String) :
    dispatch deeper e.command (called :: word :: args) s = unresolved deeper e word args s := by
  simp only [dispatch, hb, select, hr]
  rfl

/-- A command that is bound to an ensemble does what the ensemble does. -/
theorem invoke_of_ensemble {a : CommandEntry} (hf : s.catalog.commands.find? a.name = some a)
    (ht : a.target = .ensemble) (args : List String) :
    invoke deeper (a.name :: args) s =
      (Completion.normal <$> dispatch deeper a.handle (a.name :: args)) s := by
  obtain ⟨h, name, target⟩ := a
  obtain rfl : target = .ensemble := ht
  simp only [invoke, hf]

end Run

namespace Interpreter

/-- In a reachable interpreter an ensemble that is called with the full name of one of its parts
calls that part, with the name in front of the other arguments, unless the name is empty. With
the empty name it does what it does with any word that selects no part. -/
theorem part_by_full_name {root : String} {i : Interpreter} (hi : Reachable root i)
    {id : EnsembleId} {e : Ensemble} (he : i.state.catalog.registry.get? id = some e)
    {p : Part Handler} (hp : p ∈ e.parts.toList) (deeper : Deeper) (args : List String) :
    (e.parts.resolve p.name = .found p ↔ p.name ≠ "") ∧
    (∀ called, Run.dispatch deeper e.command (called :: p.name :: args) i.state =
      if p.name = "" then Run.unresolved deeper e "" args i.state
      else Run.callNotedPart deeper e.id p.name p.handler args i.state) ∧
    ∃ a, i.state.catalog.commands.get? e.command = some a ∧
      Run.invoke deeper (a.name :: p.name :: args) i.state =
        (Completion.normal <$> Run.dispatch deeper e.command (a.name :: p.name :: args))
          i.state := by
  have hw := hi.wf
  have ht := hi.tables
  obtain ⟨hem, -⟩ := (Registry.get?_eq_some_iff hw.registry).1 he
  have hb : i.state.catalog.registry.bound? e.command = some e :=
    (Registry.bound?_eq_some_iff hw.registry).2 ⟨hem, rfl⟩
  have hname := (ht e hem).resolve_full_name hp
  refine ⟨hname, fun called => ?_, ?_⟩
  · split
    · rename_i hn
      rw [hn]
      exact Run.dispatch_of_absent hb rfl called args
    · rename_i hn
      exact Run.dispatch_of_found hb (hname.2 hn) called args
  · obtain ⟨a, ha, hh, htarget, -⟩ := hw.owned e hem
    have hf := (CommandTable.find?_eq_some_iff hw.commands).2 ⟨ha, rfl⟩
    refine ⟨a, (CommandTable.get?_eq_some_iff hw.commands).2 ⟨ha, hh⟩, ?_⟩
    rw [Run.invoke_of_ensemble hf htarget, hh]

/-- A part whose name starts that of another one is called all the same, also after a part
that both names start with was taken out again. -/
theorem part_by_full_name_prefix :
    let i := ((((((new "::r" 4).create "e").2.create "e i").2.addPart "e" "info" none
      ⟨none, Program.count⟩).2.addPart "e" "in" none ⟨none, Program.echo⟩).2.delete
      "::r::subensembles::1::i").2
    ∃ e p, i.state.catalog.registry.get? ⟨1⟩ = some e ∧ p ∈ e.parts.toList ∧ p.name = "in" ∧
      e.parts.resolve "in" = .found p ∧
      Run.dispatch (perform 3) e.command ["e", "in", "x"] i.state =
        Run.callNotedPart (perform 3) e.id "in" p.handler ["x"] i.state ∧
      (i.invoke ["e", "in", "x"]).1 = .ok "in x" := by
  intro i
  have hi : Reachable "::r" i :=
    .delete _ (.addPart _ _ _ _ (.addPart _ _ _ _ (.create _ (.create _ (.new 4)))))
  have hnames : ((i.state.catalog.registry.get? ⟨1⟩).bind (·.parts.find? "in")).isSome = true := by
    decide +kernel
  obtain ⟨p, hfind⟩ := Option.isSome_iff_exists.1 hnames
  obtain ⟨e, he, hp⟩ := Option.bind_eq_some_iff.1 hfind
  obtain ⟨hpm, hn⟩ := PartTable.find?_mem hp
  obtain ⟨hr, hd, -⟩ := part_by_full_name hi he hpm (perform 3) ["x"]
  have hd' := hd "e"
  rw [hn] at hr hd'
  exact ⟨e, p, he, hpm, hn, hr.2 (by decide), hd', by decide +kernel⟩

/-- A part of the empty name is declared without an error, and no word selects it: the empty
word does not, even though the listing of the ensemble tells to write it. -/
theorem part_of_empty_name :
    let i := ((new "::r" 4).eval "ensemble e \x7bpart \x7b\x7d \x7b\x7d \x7breturn x\x7d\x7d").2
    ((new "::r" 4).eval "ensemble e \x7bpart \x7b\x7d \x7b\x7d \x7breturn x\x7d\x7d").1 = .ok "" ∧
      ((i.state.catalog.registry.get? ⟨1⟩).map (·.parts.toList.map Part.name)) = some [""] ∧
      (i.eval "e \x7b\x7d").1 = .error
        ⟨.unknownPart "" "  e \x7b\x7d", [.executing "e \x7b\x7d"]⟩ := by
  decide +kernel

end Interpreter

end Ensembles
