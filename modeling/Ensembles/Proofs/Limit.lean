import Ensembles.Native.Stock
import Ensembles.Proofs.Likeness

/-!
# What the limit does

The limit on the levels of nesting is looked at where a task is started and nowhere else, and the
error that then comes up ends everything around it, as far as natives let it out. So of two
evaluations within different numbers of levels the one within fewer either fails for want of levels
or comes to the same as the other one (`Interpreter.limit_only_cuts_off`).
-/

namespace Ensembles

/-- The error says that no level of nesting was left. -/
def Error.IsLimit (e : Error) : Prop := e.cause = .nestedTooDeep

namespace Interpreter

variable {α : Type} {limit limit' : Nat}

/-- The first run, within fewer levels, failed for want of them, or it came to the same as the
second one and left the same state. -/
def CutOff (x y : Except Error α × Interpreter) : Prop :=
  (∃ e, x.1 = .error e ∧ e.IsLimit) ∨ x.1 = y.1 ∧ x.2.state = y.2.state

/-- The same for runs command by command. -/
def CutOffEach (x y : Transcript × Interpreter) : Prop :=
  (∃ e, x.1.error = some e ∧ e.IsLimit) ∨ x.1 = y.1 ∧ x.2.state = y.2.state

theorem cutOff_run {x y : Run Completion} {s : State} {n : Nat}
    (h : x.Matches (State.Same Error.IsLimit n) Error.IsLimit y)
    (hs : State.Same Error.IsLimit n s s) :
    CutOff ((⟨limit, s⟩ : Interpreter).run do return (← x).value)
      ((⟨limit', s⟩ : Interpreter).run do return (← y).value) := by
  rw [run_value, run_value]
  obtain ⟨e, he, hlimit⟩ | ⟨ho, ha⟩ := h s s hs
  · exact .inl ⟨e, congrArg (Except.map Completion.value) he, hlimit⟩
  · exact .inr ⟨congrArg (Except.map Completion.value) ho, ha.eq⟩

/-- Within fewer levels a script or an invocation fails for want of levels, or it comes to the same
value or error as within more levels and leaves the same state, if the natives that commands and
parts own let out that error. -/
theorem limit_only_cuts_off (hl : limit ≤ limit') (s : State)
    (hs : ∀ h ∈ s.catalog.natives, h.native.LetsOut Error.IsLimit) :
    (∀ script, CutOff ((⟨limit, s⟩ : Interpreter).eval script) (eval ⟨limit', s⟩ script)) ∧
    (∀ argv, CutOff ((⟨limit, s⟩ : Interpreter).invoke argv) (invoke ⟨limit', s⟩ argv)) ∧
    ∀ onResult : String → State → State,
      (∀ (result : String) (s : State), s.Alone (onResult result s)) →
      ∀ script, CutOffEach ((⟨limit, s⟩ : Interpreter).evalEach onResult script)
        (evalEach ⟨limit', s⟩ onResult script) := by
  have hR : State.Nesting Error.IsLimit (State.Same Error.IsLimit) :=
    State.nesting_same fun e n he => he
  have hd (n : Nat) (t : Task) :
      (perform limit t).Matches (State.Same Error.IsLimit n) Error.IsLimit (perform limit' t) :=
    matches_perform hR (.inr ⟨hl, rfl⟩) n t
  have hsame := State.Same.refl hs
  refine ⟨fun script => ?_, fun argv => ?_, fun onResult hr script => ?_⟩
  · refine cutOff_run ?_ hsame
    have heval := (Work.respects_eval script).matches_run (hR.like s.locals.length) (hd _)
    rwa [Work.run_eval, Work.run_eval] at heval
  · exact cutOff_run (hd _ _) hsame
  · unfold evalEach
    cases Script.parse .all script with
    | error e => exact .inr ⟨rfl, rfl⟩
    | ok commands =>
      refine (evalEachOf_matches (hR.like s.locals.length) (hd _) ?_ commands hsame).imp id
        fun h => ⟨h.1, h.2.eq⟩
      rintro result s _ ⟨rfl, hn, hs⟩
      obtain ⟨_, _, _, _, _, ho⟩ := (hr result s).eq
      rw [ho]
      exact ⟨rfl, hn, hs⟩

/-- An interpreter with a native that evaluates its arguments: one level is too few for the script
of a script, and with two levels as with three it gives its value. -/
theorem limit_only_cuts_off_reentered :
    let s := ((new "::r" 1).register "e" ⟨none, Program.evalArguments⟩).2.state
    let given (limit : Nat) := eval ⟨limit, s⟩ "e set x 1"
    1 ≤ 2 ∧ 2 ≤ 3 ∧ s.catalog.natives.length = 1 ∧
      (∀ h ∈ s.catalog.natives, h.native.LetsOut Error.IsLimit) ∧
      (∃ e, (given 1).1 = .error e ∧ e.IsLimit) ∧
      (given 2).1 = .ok "1" ∧ (given 2).1 = (given 3).1 ∧
        (given 2).2.state = (given 3).2.state := by
  intro s given
  have hn : ∀ h ∈ s.catalog.natives, h.native.LetsOut Error.IsLimit := by
    have hlets : Native.LetsOut Error.IsLimit ⟨none, Program.evalArguments⟩ :=
      fun argv => ⟨fun r => trivial, fun e he => ⟨e, rfl, he⟩⟩
    have hinit : State.Same Error.IsLimit 0 (.initial "::r") (.initial "::r") := ⟨rfl, rfl, nofun⟩
    have hR : State.Nesting Error.IsLimit (State.Same Error.IsLimit) :=
      State.nesting_same fun e n he => he
    have hs : s = (Run.register "e" ⟨none, Program.evalArguments⟩).after (.initial "::r") :=
      state_run (new "::r" 1) _
    rw [hs]
    exact (Run.respects_register (hR.like 0) "e" hlets _ _ hinit).2.natives
  have hone : (given 1).1 ≠ .ok "1" := by decide +kernel
  have htwo : (given 2).1 = .ok "1" := by decide +kernel
  have hcut := ((limit_only_cuts_off (by decide : 1 ≤ 2) s hn).1 "e set x 1").resolve_right
    fun h => hone (h.1.trans htwo)
  have hsame := ((limit_only_cuts_off (by decide : 2 ≤ 3) s hn).1 "e set x 1").resolve_left <| by
    rintro ⟨e, he, -⟩
    cases htwo.symm.trans he
  exact ⟨by decide, by decide, rfl, hn, hcut, htwo, hsame.1, hsame.2⟩

end Interpreter

end Ensembles
