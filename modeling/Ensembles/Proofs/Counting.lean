import Ensembles.Proofs.Likeness
import Ensembles.Proofs.Machine

/-!
# Evaluation with the depth counted

An interpreter that is used again from inside a run has some of the levels taken up. It counts
them: a task is started if the count is less than the limit, which adds one to the count, and the
end of a level takes one away. `Counted` is the machine of the levels with that count. What a host
or a native can ask for there is a `Request`; from each depth it comes to its end at the same depth,
with the outcome and the state that the interpreter gives within the levels left
(`Request.leads_done`).
-/

namespace Ensembles

/-! ## The machine with a count -/

/-- A run on its way, and how deep the innermost level lies. -/
structure Counted extends Machine where
  depth : Nat

namespace Counted

/-- The next step, if the run is not done. It goes by the count, not by the levels that wait. -/
def step (limit : Nat) (m : Counted) : Option Counted :=
  match m.work, m.waiting with
  | .done _, [] => none
  | .done result, next :: waiting => some ⟨⟨m.state, next result, waiting⟩, m.depth - 1⟩
  | .step change next, waiting => some ⟨⟨change m.state, next m.state, waiting⟩, m.depth⟩
  | .locate current name next, waiting =>
    let x := Run.locate current name
    some ⟨⟨x.after m.state, next (x.outcome m.state), waiting⟩, m.depth⟩
  | .call task next, waiting =>
    if m.depth < limit then some ⟨⟨m.state, task.work, next :: waiting⟩, m.depth + 1⟩
    else some ⟨⟨m.state, next (.error (.of .nestedTooDeep)), waiting⟩, m.depth⟩

/-- The run comes to another point in some number of steps. -/
def Leads (limit : Nat) : Counted → Counted → Prop :=
  Relation.ReflTransGen fun m m' => m.step limit = some m'

/-- The work is begun at depth `depth`. -/
def start (depth : Nat) (s : State) (w : Work Completion) : Counted := ⟨⟨s, w, []⟩, depth⟩

/-- The machine, where the outermost level lies at depth `depth`. -/
def count (depth : Nat) (m : Machine) : Counted := ⟨m, depth + m.waiting.length⟩

variable {limit depth : Nat}

/-- The count is right: it makes the machine go as far as the levels that are left do. -/
theorem step_count (m : Machine) :
    (count depth m).step limit = (m.step (limit - depth)).map (count depth) := by
  obtain ⟨s, w, waiting⟩ := m
  cases w with
  | done result => cases waiting <;> rfl
  | step change next => rfl
  | locate current name next => rfl
  | call task next =>
    have hroom : depth + waiting.length < limit ↔ waiting.length < limit - depth := by omega
    unfold Machine.step step
    simp only [count, hroom]
    split <;> rfl

theorem leads_count {m m' : Machine} (h : m.Leads (limit - depth) m') :
    (count depth m).Leads limit (count depth m') := by
  induction h with
  | refl => exact .refl
  | tail _ hstep ih =>
    refine ih.tail ?_
    rw [step_count, hstep]
    rfl

end Counted

/-! ## Requests -/

/-- What is told the results of commands, and has no way to the interpreter. -/
structure Listener where
  tell : String → State → State
  alone : ∀ (result : String) (s : State), s.Alone (tell result s)

/-- What makes an interpreter evaluate something. -/
inductive Request where
  | eval (script : String)
  | evalEach (listener : Listener) (script : String)
  | invoke (argv : List String)
  | callKept (serial : Nat) (argv : List String)
  | callPart (path word : String) (argv : List String)

namespace Work

/-- The work of `Interpreter.evalEachOf`, without the list of the results. -/
def evalEachOf (l : Listener) : List Command → Work Completion
  | [] => return .normal ""
  | c :: cs => do
    let done ← evalCommands (fun _ e => e) (.normal "") [c]
    lift (modify (l.tell done.value))
    evalEachOf l cs

/-- The work of `Interpreter.callKept`. -/
def callKept (serial : Nat) (argv : List String) : Work Completion := read fun s =>
  match s.kept? serial with
  | none => return .normal ""
  | some h => .normal <$> h.work argv

/-- The work of `Interpreter.callPart`. -/
def callPartAt (path word : String) (argv : List String) : Work Completion := do
  match ← lift (Run.inquire (.part path word)) with
  | .error e => .done (.error e)
  | .ok (.native serial) => (callKept serial argv).followedBy (·.drop serial)
  | .ok _ => return .normal ""

variable (deeper : Deeper)

theorem outcome_read (f : State → Work Completion) (s : State) :
    ((read f).run deeper).outcome s = ((f s).run deeper).outcome s := rfl

theorem after_read (f : State → Work Completion) (s : State) :
    ((read f).run deeper).after s = ((f s).run deeper).after s := rfl

theorem run_evalEachOf (l : Listener) (commands : List Command) (s : State) :
    let x := (evalEachOf l commands).run deeper
    let y := Interpreter.evalEachOf deeper l.tell commands s
    (∀ e, y.1.error = some e ↔ x.outcome s = .error e) ∧ y.2 = x.after s := by
  induction commands generalizing s with
  | nil => exact ⟨fun e => ⟨nofun, nofun⟩, rfl⟩
  | cons c commands ih =>
    simp only [evalEachOf, run_bind, run_evalCommands, run_lift, Run.outcome_bind, Run.after_bind,
      Interpreter.evalEachOf_cons]
    cases (Run.evalCommands deeper (fun _ e => e) (.normal "") [c]).outcome s with
    | error e => exact ⟨fun e' => ⟨fun h => by cases h; rfl, fun h => by cases h; rfl⟩, rfl⟩
    | ok done => exact ih _

end Work

namespace Request

/-- What is to be done on the level on which the request is made. -/
def work : Request → Work Completion
  | .eval script => Work.eval script
  | .evalEach l script => do Work.evalEachOf l (← Work.lift (Run.parse .all script))
  | .invoke argv => Work.task (.invoke argv)
  | .callKept serial argv => Work.callKept serial argv
  | .callPart path word argv => Work.callPartAt path word argv

/-- To the request the interpreter `i` answers `result`, and is left in the state `s`. -/
def Gives (i : Interpreter) (result : Except Error Completion) (s : State) : Request → Prop
  | .eval script => i.eval script = (result.map Completion.value, ⟨i.limit, s⟩)
  | .evalEach l script =>
    let x := i.evalEach l.tell script
    (∀ e, x.1.error = some e ↔ result = .error e) ∧ x.2 = ⟨i.limit, s⟩
  | .invoke argv => i.invoke argv = (result.map Completion.value, ⟨i.limit, s⟩)
  | .callKept serial argv =>
    let x := i.callKept serial argv
    x.1.map (·.getD "") = result.map Completion.value ∧ x.2 = ⟨i.limit, s⟩
  | .callPart path word argv =>
    let x := i.callPart path word argv
    x.1.map (·.getD "") = result.map Completion.value ∧ x.2 = ⟨i.limit, s⟩

theorem gives_callKept (i : Interpreter) (serial : Nat) (argv : List String) :
    (callKept serial argv).Gives i
      (((Work.callKept serial argv).run (perform i.limit)).outcome i.state)
      (((Work.callKept serial argv).run (perform i.limit)).after i.state) := by
  simp only [Gives, Interpreter.callKept, Work.callKept, Work.outcome_read, Work.after_read]
  cases i.state.kept? serial with
  | none => exact ⟨rfl, rfl⟩
  | some h =>
    simp only [Work.run_map, h.run_work, Run.outcome_map, Run.after_map, Interpreter.run_eq]
    cases (h.call (perform i.limit) argv).outcome i.state <;> exact ⟨rfl, trivial⟩

/-- The work of a request does what the interpreter does. -/
theorem gives_run (i : Interpreter) (r : Request) :
    r.Gives i ((r.work.run (perform i.limit)).outcome i.state)
      ((r.work.run (perform i.limit)).after i.state) := by
  cases r with
  | eval script =>
    rw [work, Work.run_eval]
    exact i.eval_eq script
  | invoke argv =>
    rw [work, Work.run_task]
    exact i.invoke_eq argv
  | evalEach l script =>
    simp only [work, Gives, Work.run_bind, Work.run_lift, Run.outcome_bind, Run.after_bind,
      Run.outcome_parse, Run.after_parse, Interpreter.evalEach]
    cases Script.parse .all script with
    | error e => exact ⟨fun e' => ⟨fun h => by cases h; rfl, fun h => by cases h; rfl⟩, rfl⟩
    | ok commands =>
      obtain ⟨he, hs⟩ := Work.run_evalEachOf (perform i.limit) l commands i.state
      exact ⟨he, congrArg (Interpreter.mk i.limit) hs⟩
  | callKept serial argv => exact gives_callKept i serial argv
  | callPart path word argv =>
    simp only [work, Gives, Work.callPartAt, Work.run_bind, Work.run_lift, Run.outcome_bind,
      Run.after_bind, Run.outcome_inquire, Run.after_inquire, Interpreter.callPart, Interpreter.ask]
    rcases i.state.answer (.part path word) with ⟨found, s⟩
    match found with
    | .error e => exact ⟨rfl, rfl⟩
    | .ok (.procedure p) => exact ⟨rfl, rfl⟩
    | .ok (.ensemble command) => exact ⟨rfl, rfl⟩
    | .ok (.native serial) =>
      obtain ⟨ho, ha⟩ := gives_callKept ⟨i.limit, s⟩ serial argv
      simp only [Work.run_followedBy, Run.outcome_between, Run.after_between, id]
      refine ⟨ho, ?_⟩
      rw [ha]
      rfl

/-- A request comes to its end at the depth at which it is made, with what the interpreter gives
within the levels that are left. -/
theorem leads_done (limit depth : Nat) (s : State) (r : Request) : ∃ result s',
    (Counted.start depth s r.work).Leads limit (.start depth s' (.done result)) ∧
      r.Gives ⟨limit - depth, s⟩ result s' :=
  ⟨_, _, Counted.leads_count (Machine.leads_finish r.work s []), gives_run ⟨limit - depth, s⟩ r⟩

end Request

end Ensembles
