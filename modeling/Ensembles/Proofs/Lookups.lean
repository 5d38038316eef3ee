import Ensembles.Native.Stock
import Ensembles.Proofs.NestedCalls

/-!
# Looking up and calling

A host can ask what runs for a word in the ensemble at a path, and it can call that ensemble with
the word. `Catalog.part` answers the question, and `Run.dispatch` makes the call; they treat an
ambiguous word and the catch-all part differently. `Interpreter.SelectsAlike` says how they agree,
and `Interpreter.lookups_agree_with_calls` that they do in every reachable interpreter, for every
path and every word.
-/

namespace Ensembles

/-- A text resolves to nothing if it is empty or starts no name. -/
theorem PartTable.Wf.resolve_eq_absent_iff {α : Type} {t : PartTable α} (hw : t.Wf)
    {text : String} :
    t.resolve text = .absent ↔ text = "" ∨ ∀ q ∈ t.toList, q.startsWith text = false := by
  by_cases hn : text = ""
  · rw [hn]
    exact iff_of_true rfl (.inl rfl)
  · rw [hw.resolve_eq_scan, scan_eq_absent_iff hn, or_iff_right hn]

namespace Catalog

variable {root : String} {c : Catalog} {path : String} {id : EnsembleId}

/-- A path that resolves starts with the command of an ensemble. -/
theorem Wf.top_of_resolve (hw : c.Wf root) {words : List String} (hr : c.resolve words = .ok id) :
    ∃ name names top, words = name :: names ∧
      (c.commands.find? name).bind (c.registry.bound? ·.handle) = some top ∧
      c.resolveFrom [name] top.id names = .ok id := by
  unfold resolve at hr
  split at hr
  · cases hr
  · rename_i name names
    split at hr
    · cases hr
    · rename_i htop
      obtain ⟨h, hh, hid⟩ := Option.bind_eq_some_iff.1 htop
      obtain ⟨a, ha, hn, rfl⟩ := (CommandTable.handleOf?_eq_some_iff hw.commands).1 hh
      obtain ⟨top, ht, hc, rfl⟩ := hw.registry.idOf?_eq_some_iff.1 hid
      refine ⟨name, names, top, rfl, Option.bind_eq_some_iff.2 ⟨a, ?_, ?_⟩, hr⟩
      · exact (CommandTable.find?_eq_some_iff hw.commands).2 ⟨ha, hn⟩
      · exact (Registry.bound?_eq_some_iff hw.registry).2 ⟨ht, hc⟩

/-- Each further word of it is the name of a nested ensemble. -/
theorem Wf.below_of_resolveFrom (hw : c.Wf root) {e : Ensemble}
    (he : c.registry.get? e.id = some e) {name : String} {walked names : List String}
    (hr : c.resolveFrom walked e.id (name :: names) = .ok id) :
    ∃ p h below, e.parts.find? name = some p ∧ p.handler = .ensemble h ∧
      c.registry.bound? h = some below ∧
      c.resolveFrom (name :: walked) below.id names = .ok id := by
  rw [resolveFrom, he, Option.bind_some] at hr
  split at hr
  · cases hr
  · rename_i h hf
    split at hr
    · cases hr
    · rename_i hid
      obtain ⟨below, hb, hc, rfl⟩ := hw.registry.idOf?_eq_some_iff.1 hid
      exact ⟨_, h, below, hf, rfl, (Registry.bound?_eq_some_iff hw.registry).2 ⟨hb, hc⟩, hr⟩
  · cases hr

theorem Wf.exists_of_resolveFrom (hw : c.Wf root) {e : Ensemble}
    (he : c.registry.get? e.id = some e) {walked names : List String}
    (hr : c.resolveFrom walked e.id names = .ok id) : ∃ e, c.registry.get? id = some e := by
  induction names generalizing walked e with
  | nil =>
    cases hr
    exact ⟨e, he⟩
  | cons name names ih =>
    obtain ⟨_, _, below, -, -, hb, hr⟩ := hw.below_of_resolveFrom he hr
    exact ih (hw.registry.get?_of_bound? hb) hr

/-- A path that resolves leads to an ensemble that is there. -/
theorem Wf.exists_of_resolveText (hw : c.Wf root) (hr : c.resolveText path = .ok id) :
    ∃ e, c.registry.get? id = some e := by
  unfold resolveText at hr
  split at hr
  · cases hr
  · obtain ⟨name, names, top, -, htop, hr⟩ := hw.top_of_resolve hr
    have hget := hw.registry.get?_of_bound? (bound?_of_find? hw.registry htop)
    exact hw.exists_of_resolveFrom hget hr

end Catalog

namespace Interpreter

/-- Looking `word` up in the ensemble `e` at the path `path` agrees with calling `e` with it. -/
structure SelectsAlike (i : Interpreter) (path word : String) (e : Ensemble) : Prop where
  /-- The part that a call goes to is called by its full name. -/
  called : ∀ args p args', e.choice word args = some (p, args') → ∀ deeper name,
    Run.dispatch deeper e.command (name :: word :: args) i.state =
      Run.callNotedPart deeper e.id p.name p.handler args' i.state
  /-- What is found is what runs for the part that a call goes to by name, with just the arguments
  after the word. -/
  named : ∀ args handler, i.part path word = .ok handler ↔
    ∃ p, e.choice word args = some (p, args) ∧ p.handler = handler
  /-- Where nothing is found, the word is ambiguous or unknown. -/
  unresolved : ∀ err, i.part path word = .error err →
    ∃ listing, err = .of (.ambiguousPart word listing) ∨ err = .of (.unknownPart word listing)
  /-- Then a call goes to the catch-all part, if there is one, with the word as first argument. -/
  caught : ∀ err, i.part path word = .error err → ∀ p, e.parts.find? catchAll = some p →
    ∀ args, e.choice word args = some (p, word :: args)
  /-- If there is none, the call is refused. -/
  refused : ∀ err, i.part path word = .error err → e.parts.find? catchAll = none →
    ∀ args deeper name, Run.dispatch deeper e.command (name :: word :: args) i.state =
      .error (.of (.unknownPart word (i.state.catalog.usage e.id))) i.state
  /-- Where the word starts no name, the error is the same both times. -/
  unmatched : (word = "" ∨ ∀ q ∈ e.parts.toList, q.startsWith word = false) →
    e.parts.find? catchAll = none → ∃ err, i.part path word = .error err ∧
      ∀ args deeper name,
        Run.dispatch deeper e.command (name :: word :: args) i.state = .error err i.state

variable {root : String} {i : Interpreter}

/-- What is found where a path resolves. -/
theorem part_of_resolveText {path : String} {id : EnsembleId}
    (hp : i.state.catalog.resolveText path = .ok id) {e : Ensemble}
    (he : i.state.catalog.registry.get? id = some e) (word : String) :
    i.part path word = match e.parts.resolve word with
      | .found p => .ok p.handler
      | .ambiguous ps => .error (.of (.ambiguousPart word (i.state.catalog.usageLines id ps)))
      | .absent => .error (.of (.unknownPart word (i.state.catalog.usage id))) := by
  simp only [part, Catalog.part, hp, bind, Except.bind, he]
  cases e.parts.resolve word <;> rfl

/-- In a reachable interpreter a path that resolves leads to an ensemble in which looking a word up
agrees with calling the ensemble with it. -/
theorem lookups_agree_with_calls (hi : Reachable root i) {path : String} {id : EnsembleId}
    (hp : i.state.catalog.resolveText path = .ok id) (word : String) :
    ∃ e, i.state.catalog.registry.get? id = some e ∧ i.SelectsAlike path word e := by
  have hw := hi.wf
  obtain ⟨e, he⟩ := hw.exists_of_resolveText hp
  obtain ⟨hem, rfl⟩ := (Registry.get?_eq_some_iff hw.registry).1 he
  have hb : i.state.catalog.registry.bound? e.command = some e :=
    (Registry.bound?_eq_some_iff hw.registry).2 ⟨hem, rfl⟩
  have hpart := part_of_resolveText hp he word
  have hunresolved {err : Error} (h : i.part path word = .error err) (q : Part Handler) :
      e.parts.resolve word ≠ .found q := by
    intro hq
    rw [hpart, hq] at h
    cases h
  have hrefused (h : ∀ q, e.parts.resolve word ≠ .found q) (hf : e.parts.find? catchAll = none)
      (args : List String) (deeper : Deeper) (name : String) :
      Run.dispatch deeper e.command (name :: word :: args) i.state =
        .error (.of (.unknownPart word (i.state.catalog.usage e.id))) i.state :=
    Run.dispatch_of_refused hb (Ensemble.choice_eq_none_iff.2 ⟨h, hf⟩) name
  refine ⟨e, he, ?_⟩
  constructor
  case called => exact fun args p args' hc deeper name => Run.dispatch_of_choice hb hc name
  case named =>
    intro args handler
    rw [hpart]
    cases hr : e.parts.resolve word with
    | found p =>
      rw [Ensemble.choice_of_found hr]
      constructor
      · rintro ⟨⟩
        exact ⟨p, rfl, rfl⟩
      · rintro ⟨_, ⟨⟩, rfl⟩
        rfl
    | ambiguous | absent =>
      refine iff_of_false nofun ?_
      rintro ⟨p, hc, -⟩
      -- Through the catch-all part there is one argument more.
      rw [Ensemble.choice_of_unresolved (by simp [hr])] at hc
      obtain ⟨q, -, hq⟩ := Option.map_eq_some_iff.1 hc
      exact List.cons_ne_self word args (congrArg Prod.snd hq)
  case unresolved =>
    intro err h
    rw [hpart] at h
    cases hr : e.parts.resolve word with
    | found p =>
      rw [hr] at h
      cases h
    | ambiguous ps =>
      rw [hr] at h
      cases h
      exact ⟨_, .inl rfl⟩
    | absent =>
      rw [hr] at h
      cases h
      exact ⟨_, .inr rfl⟩
  case caught =>
    intro err h p hf args
    rw [Ensemble.choice_of_unresolved (hunresolved h), hf]
    rfl
  case refused => exact fun err h hf => hrefused (hunresolved h) hf
  case unmatched =>
    intro hnone hf
    have hr := (hi.tables e hem).resolve_eq_absent_iff.2 hnone
    rw [hr] at hpart
    exact ⟨_, hpart, hrefused (by simp [hr]) hf⟩

/-- So it is with an abbreviation, an ambiguous word and one that starts no name. A call makes no
difference between the last two. -/
theorem lookups_agree_with_calls_abbreviated :
    let i := ((((new "::r" 4).create "e").2.addPart "e" "two" none ⟨none, Program.echo⟩).2.addPart
      "e" "three" none ⟨none, Program.echo⟩).2
    (∀ word ∈ ["th", "t", "x"], ∃ e, i.state.catalog.registry.get? ⟨1⟩ = some e ∧
      i.SelectsAlike "e" word e) ∧
    (["th", "t", "x"].map fun word => match i.part "e" word with
      | .ok _ => none
      | .error err => some err) =
      [none, some (.of (.ambiguousPart "t" "  e three\n  e two")),
        some (.of (.unknownPart "x" "  e three\n  e two"))] ∧
    (["th", "t", "x"].map fun word => (i.invoke ["e", word, "y"]).1) =
      [.ok "three y", .error (.of (.unknownPart "t" "  e three\n  e two")),
        .error (.of (.unknownPart "x" "  e three\n  e two"))] := by
  intro i
  have hi : Reachable "::r" i := .addPart _ _ _ _ (.addPart _ _ _ _ (.create _ (.new 4)))
  have hp : i.state.catalog.resolveText "e" = .ok ⟨1⟩ := by decide +kernel
  exact ⟨fun word _ => lookups_agree_with_calls hi hp word, by decide +kernel, by decide +kernel⟩

end Interpreter

end Ensembles
