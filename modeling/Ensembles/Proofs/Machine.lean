import Ensembles.Proofs.Work
import Mathlib.Logic.Relation

/-!
# Evaluation step by step

The levels of nesting on a stack: `Machine.step` takes one step on the innermost level, starts
a task on a new one, or ends a level. Nothing in the machine counts steps; the limit is only
looked at when a task is to be started, as `Interpreter.limit` says.

* `Machine.wellFounded_step`: from no machine there is an endless run. The measure is the
  levels that are left, and on each level the work that is left on it: commands, pieces of
  words, arguments and the requests of natives yet to be gone through.
* `Interpreter.evaluation_ends`: so the machine ends when a script or an invocation is
  evaluated, whatever they bring about, and with the outcome and the state of the interpreter.
-/

namespace Ensembles

/-- A run on its way. -/
structure Machine where
  state : State
  /-- What is left to do on the innermost level. -/
  work : Work Completion
  /-- What is left to do on the levels outside it, which wait for its outcome; the innermost
  first. -/
  waiting : List (Except Error Completion → Work Completion)

namespace Machine

/-- The next step of the machine, if it is not done. A task is started if there are less
than `limit` levels, and fails otherwise. -/
def step (limit : Nat) (m : Machine) : Option Machine :=
  match m.work, m.waiting with
  | .done _, [] => none
  | .done result, next :: waiting => some ⟨m.state, next result, waiting⟩
  | .step change next, waiting => some ⟨change m.state, next m.state, waiting⟩
  | .locate current name next, waiting =>
    let x := Run.locate current name
    some ⟨x.after m.state, next (x.outcome m.state), waiting⟩
  | .call task next, waiting =>
    if waiting.length < limit then some ⟨m.state, task.work, next :: waiting⟩
    else some ⟨m.state, next (.error (.of .nestedTooDeep)), waiting⟩

/-- The machine comes to another one in some number of steps. -/
def Leads (limit : Nat) : Machine → Machine → Prop :=
  Relation.ReflTransGen fun m m' => m.step limit = some m'

end Machine

/-! ## Runs of the machine -/

namespace Machine

variable {limit levels : Nat} {s : State}
  {waiting : List (Except Error Completion → Work Completion)}

/-- Where the work of the innermost level has been done. -/
def finish (levels : Nat) (w : Work Completion) (s : State)
    (waiting : List (Except Error Completion → Work Completion)) : Machine :=
  ⟨(w.run (perform levels)).after s, .done ((w.run (perform levels)).outcome s), waiting⟩

/-- The work of a level comes to its end if tasks one level down come to theirs. -/
theorem leads_finish_of_calls
    (hcall : ∀ t next s, Leads limit ⟨s, .call t next, waiting⟩
      ⟨(perform levels t).after s, next ((perform levels t).outcome s), waiting⟩)
    (w : Work Completion) (s : State) :
    Leads limit ⟨s, w, waiting⟩ (finish levels w s waiting) := by
  induction w generalizing s with
  | done result =>
    cases result with
    | ok done => exact .refl
    | error e => exact .refl
  | step change next ih => exact .head rfl (ih s (change s))
  | locate current name next ih =>
    rw [finish, Work.run, Run.outcome_attempt_bind, Run.after_attempt_bind]
    exact .head rfl (ih _ _)
  | call task next ih =>
    rw [finish, Work.run, Run.outcome_attempt_bind, Run.after_attempt_bind]
    exact (hcall task next s).trans (ih _ _)

/-- A task comes to its end, with the outcome that it has on the levels that are left. -/
theorem leads_call (hlevels : limit - waiting.length = levels) (t : Task)
    (next : Except Error Completion → Work Completion) (s : State) :
    Leads limit ⟨s, .call t next, waiting⟩
      ⟨(perform levels t).after s, next ((perform levels t).outcome s), waiting⟩ := by
  induction levels generalizing t next s waiting with
  | zero =>
    have hfull : ¬ waiting.length < limit := by omega
    exact .single (if_neg hfull)
  | succ levels ih =>
    have hroom : waiting.length < limit := by omega
    have hinner : Leads limit ⟨s, t.work, next :: waiting⟩
        (finish levels t.work s (next :: waiting)) :=
      leads_finish_of_calls
        (fun t' next' s' => ih (by rw [List.length_cons]; omega) t' next' s') _ _
    rw [finish, Task.run_work] at hinner
    exact .head (if_pos hroom) (hinner.tail rfl)

theorem leads_finish (w : Work Completion) (s : State)
    (waiting : List (Except Error Completion → Work Completion)) :
    Leads limit ⟨s, w, waiting⟩ (finish (limit - waiting.length) w s waiting) :=
  leads_finish_of_calls (leads_call rfl) w s

/-- From anywhere the machine comes to its end. -/
theorem leads_done (limit : Nat) (m : Machine) :
    ∃ s result, Leads limit m ⟨s, .done result, []⟩ := by
  obtain ⟨s, w, waiting⟩ := m
  induction waiting generalizing s w with
  | nil => exact ⟨_, _, leads_finish w s []⟩
  | cons next waiting ih =>
    obtain ⟨s', result, h⟩ := ih _ _
    exact ⟨s', result, ((leads_finish w s (next :: waiting)).tail rfl).trans h⟩

/-- No run of the machine goes on forever. -/
theorem wellFounded_step (limit : Nat) :
    WellFounded fun m' m : Machine => m.step limit = some m' := by
  refine ⟨fun m => ?_⟩
  obtain ⟨s, result, h⟩ := leads_done limit m
  induction h using Relation.ReflTransGen.head_induction_on with
  | refl => exact ⟨_, fun m' hm' => nomatch hm'⟩
  | head hstep _ ih =>
    refine ⟨_, fun m' hm' => ?_⟩
    rwa [← Option.some.inj (hstep.symm.trans hm')]

end Machine

namespace Interpreter

variable {i : Interpreter}

/-- Evaluation ends: there is no endless run of the machine, and for each script and for each
command with its arguments it comes, from the state of the interpreter, to the value or the
error and the state that `eval` and `invoke` give. -/
theorem evaluation_ends (i : Interpreter) :
    WellFounded (fun m' m : Machine => m.step i.limit = some m') ∧
    (∀ script, ∃ result s,
      Machine.Leads i.limit ⟨i.state, Work.eval script, []⟩ ⟨s, .done result, []⟩ ∧
      i.eval script = (result.map Completion.value, ⟨i.limit, s⟩)) ∧
    ∀ argv, ∃ result s,
      Machine.Leads i.limit ⟨i.state, Work.task (.invoke argv), []⟩ ⟨s, .done result, []⟩ ∧
      i.invoke argv = (result.map Completion.value, ⟨i.limit, s⟩) := by
  refine ⟨Machine.wellFounded_step i.limit, fun script => ?_, fun argv => ?_⟩
  · refine ⟨_, _, Machine.leads_finish (Work.eval script) i.state [], ?_⟩
    rw [Work.run_eval]
    exact i.eval_eq script
  · refine ⟨_, _, Machine.leads_finish (Work.task (.invoke argv)) i.state [], ?_⟩
    rw [Work.run_task]
    exact i.invoke_eq argv

/-- A part that calls itself comes to the limit. -/
example : ((new "::r" 5).eval "ensemble e {part loop {} {e loop}}; e loop").1.mapError (·.cause) =
    .error .nestedTooDeep := by
  decide +kernel

end Interpreter

end Ensembles
