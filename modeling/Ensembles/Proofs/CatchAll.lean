import Ensembles.Native.Stock
import Ensembles.Proofs.NestedCalls

/-!
# The catch-all part

A word that selects no part of an ensemble, be it empty, ambiguous or unknown, is one more argument
of the catch-all part if there is one. The call then is the one that names the catch-all part in
front of the word (`Run.dispatch_catchAll`), whatever runs for that part: a native, a procedure or
an ensemble. So no call is refused by an ensemble that has a catch-all part, unless it has no word
at all (`Interpreter.unresolved_words_are_caught`).
-/

namespace Ensembles

theorem catchAll_ne_empty : catchAll ≠ "" := by decide

/-- The catch-all part is selected by its name. -/
theorem Ensemble.choice_catchAll {e : Ensemble} (hw : e.parts.Wf) {p : Part Handler}
    (hf : e.parts.find? catchAll = some p) (args : List String) :
    e.choice catchAll args = some (p, args) := by
  obtain ⟨hp, hn⟩ := PartTable.find?_mem hf
  have hr := (hw.resolve_full_name hp).2 (hn ▸ catchAll_ne_empty)
  rw [hn] at hr
  exact choice_of_found hr args

/-- A word that selects no part goes to the catch-all part as its first argument. -/
theorem Run.dispatch_catchAll {deeper : Deeper} {s : State} {command : Handle} {e : Ensemble}
    (hb : s.catalog.registry.bound? command = some e) (hw : e.parts.Wf) {p : Part Handler}
    (hf : e.parts.find? catchAll = some p) {word : String}
    (hr : ∀ q, e.parts.resolve word ≠ .found q) (called : String) (args : List String) :
    dispatch deeper command (called :: word :: args) s =
      dispatch deeper command (called :: catchAll :: word :: args) s := by
  have hword : e.choice word args = some (p, word :: args) := by
    rw [Ensemble.choice_of_unresolved hr, hf]
    rfl
  rw [dispatch_of_choice hb hword, dispatch_of_choice hb (Ensemble.choice_catchAll hw hf _)]

namespace Interpreter

variable {root : String} {i : Interpreter}

/-- In a reachable interpreter a call of an ensemble that has a catch-all part, with a word that
selects no part, comes to the same, in a script and for the host, as the call with the name of the
catch-all part in front of that word: the same value or error with the same notes, and the same
interpreter afterwards. The ensemble itself, whose errors are those without a note, never says that
it does not know the word. -/
theorem unresolved_words_are_caught (hi : Reachable root i) {name word : String} {e : Ensemble}
    {p : Part Handler}
    (hn : (i.state.catalog.commands.find? name).bind (i.state.catalog.registry.bound? ·.handle) =
      some e)
    (hf : e.parts.find? catchAll = some p) (hr : ∀ q, e.parts.resolve word ≠ .found q)
    (args : List String) :
    (∀ deeper, Run.invoke deeper (name :: word :: args) i.state =
      Run.invoke deeper (name :: catchAll :: word :: args) i.state) ∧
    i.invoke (name :: word :: args) = i.invoke (name :: catchAll :: word :: args) ∧
    (∀ deeper called option listing s, Run.dispatch deeper e.command (called :: word :: args)
      i.state ≠ .error (.of (.unknownPart option listing)) s) ∧
    ∀ option listing,
      (i.invoke (name :: word :: args)).1 ≠ .error (.of (.unknownPart option listing)) := by
  have hw := hi.wf
  have hb := Catalog.bound?_of_find? hw.registry hn
  have hcaught (deeper : Deeper) :
      Run.dispatch deeper e.command (name :: word :: args) i.state =
        Run.dispatch deeper e.command (name :: catchAll :: word :: args) i.state :=
    Run.dispatch_catchAll hb (hi.tables.bound? hb) hf hr name args
  have hown (deeper : Deeper) (called option listing : String) (s : State) :
      Run.dispatch deeper e.command (called :: word :: args) i.state ≠
        .error (.of (.unknownPart option listing)) s := by
    intro hd
    obtain h | ⟨-, -, -, -, hnone, -⟩ := Run.own_error hb hd
    · cases h
    · rw [hf] at hnone
      cases hnone
  refine ⟨fun deeper => ?_, ?_⟩
  · rw [Run.invoke_of_bound hw hn, Run.invoke_of_bound hw hn, map_eq_pure_bind]
    exact Run.bind_congr_at _ (hcaught deeper)
  cases hl : i.limit with
  | zero =>
    rw [invoke_of_zero hl, invoke_of_zero hl]
    exact ⟨rfl, hown, nofun⟩
  | succ levels =>
    rw [invoke_of_bound hw hn hl, invoke_of_bound hw hn hl]
    unfold run
    refine ⟨by rw [hcaught], hown, fun option listing => ?_⟩
    cases hd : Run.dispatch (perform levels) e.command (name :: word :: args) i.state with
    | ok value s => exact nofun
    | error err s =>
      rintro ⟨⟩
      exact hown _ _ _ _ _ hd

/-- So it is where the catch-all part is a nested ensemble, which looks at the word in its turn: it
knows the first word here, and refuses the second one. -/
theorem unresolved_words_are_caught_nested :
    let i := ((((((new "::r" 4).create "e").2.create "e @error").2.addPart "e @error" "list" none
      ⟨none, Program.echo⟩).2.addPart "e" "ab" none ⟨none, Program.echo⟩).2.addPart "e" "ac" none
        ⟨none, Program.echo⟩).2
    (∃ e p, ((i.state.catalog.commands.find? "e").bind
        (i.state.catalog.registry.bound? ·.handle) = some e) ∧
      e.parts.find? catchAll = some p ∧ (∀ q, e.parts.resolve "l" ≠ .found q) ∧
      ∀ q, e.parts.resolve "a" ≠ .found q) ∧
    i.invoke ["e", "l", "x"] = i.invoke ["e", "@error", "l", "x"] ∧
    (i.invoke ["e", "l", "x"]).1 = .ok "list x" ∧
    i.invoke ["e", "a"] = i.invoke ["e", "@error", "a"] ∧
    (i.invoke ["e", "a"]).1 =
      .error ⟨.unknownPart "a" "  e @error list", [.partOf "@error" "e"]⟩ := by
  intro i
  have hi : Reachable "::r" i :=
    .addPart _ _ _ _ (.addPart _ _ _ _ (.addPart _ _ _ _ (.create _ (.create _ (.new 4)))))
  have hclosed : ((i.state.catalog.commands.find? "e").bind
      (i.state.catalog.registry.bound? ·.handle)).map (fun e =>
        ((e.parts.find? catchAll).isSome, (e.choice "l" []).map Prod.snd,
          (e.choice "a" []).map Prod.snd)) = some (true, some ["l"], some ["a"]) := by
    decide +kernel
  obtain ⟨e, hn, he⟩ := Option.map_eq_some_iff.1 hclosed
  simp only [Prod.mk.injEq] at he
  obtain ⟨p, hf⟩ := Option.isSome_iff_exists.1 he.1
  have hunresolved {word : String} (h : (e.choice word []).map Prod.snd = some [word])
      (q : Part Handler) : e.parts.resolve word ≠ .found q := by
    intro hq
    rw [Ensemble.choice_of_found hq] at h
    cases h
  have hl := hunresolved he.2.1
  have ha := hunresolved he.2.2
  exact ⟨⟨e, p, hn, hf, hl, ha⟩, (unresolved_words_are_caught hi hn hf hl ["x"]).2.1,
    by decide +kernel, (unresolved_words_are_caught hi hn hf ha []).2.1, by decide +kernel⟩

end Interpreter

end Ensembles
