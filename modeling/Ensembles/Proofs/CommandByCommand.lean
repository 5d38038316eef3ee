import Ensembles.Proofs.Along
import Ensembles.Proofs.Reachable
import Ensembles.Proofs.WrittenCommand

/-!
# Scripts command by command

`Interpreter.eval` runs the commands of a script on a level of their own, and
`Interpreter.evalEach` one by one where it stands. As long as the levels suffice
(`Interpreter.Fits`) they do the same up to the first command that returns. There `eval` ends,
and `evalEach` goes on with the commands after it (`Interpreter.evalEach_eq`).
`Interpreter.agrees_iff` draws the conclusion: the two agree if and only if these commands,
`Interpreter.skipped`, do nothing.
-/

namespace Ensembles

/-- The commands after the first that ends by `return`; none if none does, or if one fails. -/
def Run.skipped (deeper : Deeper) : List Command → State → List Command
  | [], _ => []
  | c :: cs, s =>
    match evalCommand deeper c s with
    | .ok (.returned _) _ => cs
    | .ok (.normal _) s' => skipped deeper cs s'
    | .error _ _ => []

namespace Interpreter

/-- The host takes note of a result and writes nothing. -/
def listen (_result : String) (s : State) : State := s

/-- The evaluation of the script gets along with the levels of the interpreter. -/
def Fits (i : Interpreter) (script : String) : Prop :=
  ∀ commands, Script.parse .all script = .ok commands →
    Task.Fits i.limit (.script commands) i.state

/-- The commands of the script after the first that returns. -/
def skipped (i : Interpreter) (script : String) : List Command :=
  match Script.parse .all script with
  | .error _ => []
  | .ok commands => Run.skipped (perform i.limit) commands i.state

/-- What becomes of the commands that `eval` skips if they are evaluated after all. -/
def afterSkipped (i : Interpreter) (script : String) : Transcript × State :=
  evalEachOf (perform i.limit) listen (i.skipped script) (i.eval script).2.state

/-- The script comes to the same command by command: the same interpreter, and the same error
or the same value, which is that of the last command. -/
def Agrees (i : Interpreter) (script : String) : Prop :=
  let each := i.evalEach listen script
  each.2 = (i.eval script).2 ∧
    match (i.eval script).1 with
    | .error e => each.1.error = some e
    | .ok value => each.1.error = none ∧ each.1.results.getLastD "" = value

end Interpreter

namespace Run

variable {deeper : Deeper} {s s' : State} {c : Command} {cs : List Command} {last : Completion}
  {value : String} {e : Error}

/-! ## One command after the other -/

/-- The commands of a script, with the notes that scripts make on errors. -/
abbrev evalScript (deeper : Deeper) (last : Completion) (cs : List Command) : Run Completion :=
  evalCommands deeper (fun _ e => e) last cs

theorem evalScript_of_normal (h : evalCommand deeper c s = .ok (.normal value) s') :
    evalScript deeper last (c :: cs) s = evalScript deeper (.normal value) cs s' := by
  simp only [evalScript, evalCommands, bind, EStateM.bind, mapError, h]

theorem evalScript_of_returned (h : evalCommand deeper c s = .ok (.returned value) s') :
    evalScript deeper last (c :: cs) s = .ok (.returned value) s' := by
  simp only [evalScript, evalCommands, bind, EStateM.bind, mapError, h]
  rfl

theorem evalScript_of_error (h : evalCommand deeper c s = .error e s') :
    evalScript deeper last (c :: cs) s = .error (e.traced c.text) s' := by
  simp only [evalScript, evalCommands, bind, EStateM.bind, mapError, h]

end Run

namespace Interpreter

variable {deeper : Deeper} {s s' : State} {c : Command} {cs : List Command} {done : Completion}
  {e : Error} {levels : Nat} {i : Interpreter} {script : String}

theorem evalEachOf_of_ok {onResult : String → State → State}
    (h : Run.evalCommand deeper c s = .ok done s') :
    evalEachOf deeper onResult (c :: cs) s =
      let (t, s'') := evalEachOf deeper onResult cs (onResult done.value s')
      ({ t with results := done.value :: t.results }, s'') := by
  rw [evalEachOf, Run.evalCommands_singleton]
  simp only [Run.mapError, h]

theorem evalEachOf_of_error {onResult : String → State → State}
    (h : Run.evalCommand deeper c s = .error e s') :
    evalEachOf deeper onResult (c :: cs) s = (⟨[], some (e.traced c.text)⟩, s') := by
  rw [evalEachOf, Run.evalCommands_singleton]
  simp only [Run.mapError, h]

/-- The work of a script, with the notes that scripts make on errors. -/
abbrev workOf (last : Completion) (cs : List Command) : Work Completion :=
  Work.evalCommands (fun _ e => e) last cs

/-- A script that gets along with its levels does so command by command, and what a command
does there it does one level further out, too. -/
theorem fits_cons {last : Completion}
    (hfits : (workOf last (c :: cs)).Along (perform levels) (Task.Fits levels)
      (fun _ _ _ => True) s) :
    Run.evalCommand (perform (levels + 1)) c s = Run.evalCommand (perform levels) c s ∧
      ∀ value s', Run.evalCommand (perform levels) c s = .ok (.normal value) s' →
        (workOf (.normal value) cs).Along (perform levels) (Task.Fits levels)
          (fun _ _ _ => True) s' := by
  obtain ⟨hc, hrest⟩ := Work.along_bind.1 hfits
  constructor
  · have hrun := (Work.along_mapError.1 hc).run_congr fun _ _ ht => Task.Fits.perform_succ ht
    rw [Work.run_evalCommand, Work.run_evalCommand] at hrun
    exact hrun.symm
  · intro value s' h
    rw [Work.run_mapError, Work.run_evalCommand, Run.outcome, Run.after] at hrest
    simp only [Run.mapError, h] at hrest
    exact hrest _ rfl

/-- Up to the first command that returns, a script does the same command by command. -/
theorem evalEachOf_eq {last : Completion}
    (hfits : (workOf last cs).Along (perform levels) (Task.Fits levels) (fun _ _ _ => True) s) :
    match Run.evalScript (perform levels) last cs s with
    | .error e s' =>
      ∃ results, evalEachOf (perform (levels + 1)) listen cs s = (⟨results, some e⟩, s')
    | .ok done s' =>
      ∃ results, results.getLastD last.value = done.value ∧
        let rest := evalEachOf (perform (levels + 1)) listen
          (Run.skipped (perform (levels + 1)) cs s) s'
        evalEachOf (perform (levels + 1)) listen cs s =
          (⟨results ++ rest.1.results, rest.1.error⟩, rest.2) := by
  induction cs generalizing s last with
  | nil => exact ⟨[], rfl, rfl⟩
  | cons c cs ih =>
    obtain ⟨hc, hrest⟩ := fits_cons hfits
    cases h : Run.evalCommand (perform levels) c s with
    | error e s' =>
      rw [Run.evalScript_of_error h, evalEachOf_of_error (hc.trans h)]
      exact ⟨[], rfl⟩
    | ok done s' =>
      rw [evalEachOf_of_ok (hc.trans h)]
      cases done with
      | returned value =>
        rw [Run.evalScript_of_returned h]
        simp only [Run.skipped, hc, h]
        exact ⟨[value], rfl, rfl⟩
      | normal value =>
        rw [Run.evalScript_of_normal h]
        have htail := ih (hrest value s' h)
        simp only [Run.skipped, hc, h]
        cases hs : Run.evalScript (perform levels) (.normal value) cs s' with
        | error e s'' =>
          rw [hs] at htail
          obtain ⟨results, hr⟩ := htail
          refine ⟨value :: results, ?_⟩
          rw [listen, hr]
          rfl
        | ok done s'' =>
          rw [hs] at htail
          obtain ⟨results, hlast, hr⟩ := htail
          refine ⟨value :: results, (List.getLastD_cons ..).trans hlast, ?_⟩
          rw [listen, hr]
          rfl

/-- What evaluating a script command by command comes to: what evaluating it does, and then the
commands that this skips. -/
theorem evalEach_eq (hf : i.Fits script) :
    match i.eval script with
    | (.error e, j) => ∃ results, i.evalEach listen script = (⟨results, some e⟩, j)
    | (.ok value, j) =>
      ∃ results, results.getLastD "" = value ∧
        let rest := i.afterSkipped script
        i.evalEach listen script =
          (⟨results ++ rest.1.results, rest.1.error⟩, { j with state := rest.2 }) := by
  cases hp : Script.parse .all script with
  | error e =>
    have heval : i.eval script = (.error (.of (.malformed e)), i) := by
      simp only [eval, run, Run.eval, Run.parse, bind, EStateM.bind, hp]
    rw [heval]
    refine ⟨[], ?_⟩
    simp only [evalEach, hp]
  | ok commands =>
    obtain ⟨limit, s⟩ := i
    cases limit with
    | zero => exact (hf commands hp).elim
    | succ levels =>
      have hfits : (workOf (.normal "") commands).Along (perform levels) (Task.Fits levels)
        (fun _ _ _ => True) s := hf commands hp
      have heach := evalEachOf_eq hfits
      have hrun : Run.eval (perform (levels + 1)) script =
          Run.evalScript (perform levels) (.normal "") commands := Run.eval_of_parse _ hp
      simp only [eval, run, hrun, afterSkipped, skipped, evalEach, hp, bind, EStateM.bind]
      cases hs : Run.evalScript (perform levels) (.normal "") commands s with
      | error e s' =>
        rw [hs] at heach
        obtain ⟨results, hr⟩ := heach
        exact ⟨results, by rw [hr]⟩
      | ok done s' =>
        rw [hs] at heach
        obtain ⟨results, hlast, hr⟩ := heach
        exact ⟨results, hlast, by rw [hr]; rfl⟩

/-- Evaluating a script as a whole and command by command agree, if the levels suffice, if and
only if the commands that follow a `return` do nothing: they do not fail, leave the state as it
is, and the last of them gives the value that was returned. -/
theorem agrees_iff (hf : i.Fits script) :
    i.Agrees script ↔ ∀ value, (i.eval script).1 = .ok value →
      (i.afterSkipped script).1.error = none ∧
      (i.afterSkipped script).1.results.getLastD value = value ∧
      (i.afterSkipped script).2 = (i.eval script).2.state := by
  have heach := evalEach_eq hf
  unfold Agrees
  generalize i.afterSkipped script = rest at heach ⊢
  cases hres : i.eval script with
  | mk result j =>
    rw [hres] at heach
    cases result with
    | error e =>
      obtain ⟨results, hr⟩ := heach
      rw [hr]
      exact ⟨fun _ => nofun, fun _ => ⟨rfl, rfl⟩⟩
    | ok value =>
      obtain ⟨results, hlast, hr⟩ := heach
      have happend : (results ++ rest.1.results).getLastD "" = rest.1.results.getLastD value := by
        rw [← hlast]
        simp only [List.getLastD_eq_getLast?, List.getLast?_append]
        cases rest.1.results.getLast? <;> rfl
      rw [hr]
      simp only [happend, Except.ok.injEq, forall_eq']
      constructor
      · rintro ⟨hj, he, hl⟩
        exact ⟨he, hl, congrArg Interpreter.state hj⟩
      · rintro ⟨he, hl, hs⟩
        exact ⟨by rw [hs], he, hl⟩

/-- They agree on a script that ends with its only `return`. -/
theorem agrees_iff_returned_last : (new "::r" 1).Agrees "set x early; return $x" := by
  have hp : Script.parse .all "set x early; return $x" = .ok
      [⟨[.ofText "set", .ofText "x", .ofText "early"], 1, "set x early"⟩,
        ⟨[.ofText "return", ⟨[.var "x"]⟩], 1, "return $x"⟩] := by
    decide +kernel
  have hfits : (new "::r" 1).Fits "set x early; return $x" := by
    intro commands hc
    rw [hp] at hc
    cases hc
    exact True.intro
  have hskipped : (new "::r" 1).skipped "set x early; return $x" = [] := by decide +kernel
  refine (agrees_iff hfits).2 fun value _ => ?_
  rw [afterSkipped, hskipped]
  exact ⟨rfl, rfl, rfl⟩

/-- Command by command a script goes on after a `return` on its top level, to a command that
fails. -/
theorem evalEach_goes_on :
    let i := new "::r" 1
    Reachable "::r" i ∧ i.Fits "return early; error late" ∧
      (i.eval "return early; error late").1 = .ok "early" ∧
      (i.evalEach listen "return early; error late").1 =
        ⟨["early"], some ⟨.user "late", [.executing "error late"]⟩⟩ ∧
      ¬ i.Agrees "return early; error late" := by
  intro i
  have hp : Script.parse .all "return early; error late" = .ok
      [⟨[.ofText "return", .ofText "early"], 1, "return early"⟩,
        ⟨[.ofText "error", .ofText "late"], 1, "error late"⟩] := by
    decide +kernel
  have hfits : i.Fits "return early; error late" := by
    intro commands hc
    rw [hp] at hc
    cases hc
    exact True.intro
  have hvalue : (i.eval "return early; error late").1 = .ok "early" := by decide +kernel
  have heach : (i.evalEach listen "return early; error late").1 =
      ⟨["early"], some ⟨.user "late", [.executing "error late"]⟩⟩ := by
    decide +kernel
  refine ⟨.new 1, hfits, hvalue, heach, fun ha => ?_⟩
  have hnone := ha.2
  rw [hvalue, heach] at hnone
  exact nomatch hnone.1

end Interpreter

end Ensembles
