import Ensembles.Proofs.Runs

/-!
# The work of one level

What a task does on its own level of nesting, apart from the tasks that it brings about one
level down: `Work` is the tree of the steps that it takes there, with the outcomes of the
tasks below as answers. `Task.run_work` says that the trees written down here do what
`Task.run` does. They show what a run of a task comes through on its way, which its outcome
does not tell.
-/

namespace Ensembles

variable {α β γ : Type}

/-- What the computation gives, without the state that it leaves behind. -/
def Run.outcome (x : Run α) (s : State) : Except Error α :=
  match x s with
  | .ok a _ => .ok a
  | .error e _ => .error e

/-- The computation that gives `r` and changes nothing. -/
def Run.conclude : Except Error α → Run α
  | .ok a => pure a
  | .error e => throw e

/-- The steps that are left to do on a level, up to a value or an error. -/
inductive Work (α : Type) where
  | done (result : Except Error α)
  /-- A change of the state. How things go on depends on the state before it. -/
  | step (change : State → State) (next : State → Work α)
  /-- An ensemble is found or made, in the ensemble `current` if there is one. -/
  | locate (current : Option EnsembleId) (name : String)
      (next : Except Error EnsembleId → Work α)
  /-- A task is run one level down. -/
  | call (task : Task) (next : Except Error Completion → Work α)

namespace Work

/-- Does the work, with `deeper` for the tasks one level down. -/
def run (deeper : Deeper) : Work α → Run α
  | .done result => Run.conclude result
  | .step change next => fun s => (next s).run deeper (change s)
  | .locate current name next => do
    let r ← Run.attempt (Run.locate current name)
    (next r).run deeper
  | .call task next => do
    let r ← Run.attempt (deeper task)
    (next r).run deeper

/-! ## Combinators -/

/-- First one work, then another one that depends on what it gives. -/
def bind (f : α → Work β) : Work α → Work β
  | .done (.ok a) => f a
  | .done (.error e) => .done (.error e)
  | .step change next => .step change fun s => (next s).bind f
  | .locate current name next => .locate current name fun r => (next r).bind f
  | .call task next => .call task fun r => (next r).bind f

instance : Monad Work where
  pure a := .done (.ok a)
  bind w f := w.bind f

/-- A computation as a single step. -/
def lift (x : Run α) : Work α := .step x.after fun s => .done (x.outcome s)

/-- Work that depends on the state. -/
def read (f : State → Work α) : Work α := .step id f

def fail (cause : Cause) : Work α := .done (.error (.of cause))

/-- The task, one level down. -/
def task (t : Task) : Work Completion := .call t .done

/-- The ensemble `name`, found or made. -/
def ensemble (current : Option EnsembleId) (name : String) : Work EnsembleId :=
  .locate current name .done

/-- The work, with its error changed in view of the state that it left. -/
def mapError (f : State → Error → Error) : Work α → Work α
  | .done (.ok a) => .done (.ok a)
  | .done (.error e) => read fun s => .done (.error (f s e))
  | .step change next => .step change fun s => (next s).mapError f
  | .locate current name next => .locate current name fun r => (next r).mapError f
  | .call task next => .call task fun r => (next r).mapError f

/-- The work, which never fails and gives the outcome. -/
def attempt : Work α → Work (Except Error α)
  | .done result => .done (.ok result)
  | .step change next => .step change fun s => (next s).attempt
  | .locate current name next => .locate current name fun r => (next r).attempt
  | .call task next => .call task fun r => (next r).attempt

/-- The work and then a change of the state, which is made in any case. -/
def followedBy (leave : State → State) : Work α → Work α
  | .done result => .step leave fun _ => .done result
  | .step change next => .step change fun s => (next s).followedBy leave
  | .locate current name next => .locate current name fun r => (next r).followedBy leave
  | .call task next => .call task fun r => (next r).followedBy leave

/-- The work between two changes of the state. -/
def between (enter leave : State → State) (w : Work α) : Work α :=
  .step enter fun _ => w.followedBy leave

end Work

namespace Run

theorem conclude_outcome (x : Run α) (s : State) : conclude (x.outcome s) (x.after s) = x s := by
  unfold outcome after
  cases x s <;> rfl

theorem outcome_conclude (r : Except Error α) (s : State) : (conclude r).outcome s = r := by
  cases r <;> rfl

theorem after_conclude (r : Except Error α) (s : State) : (conclude r).after s = s := by
  cases r <;> rfl

theorem attempt_bind (x : Run α) (f : Except Error α → Run β) (s : State) :
    (x.attempt >>= f) s = f (x.outcome s) (x.after s) := by
  unfold attempt outcome after
  simp only [Bind.bind, EStateM.bind]
  cases x s <;> rfl

theorem outcome_attempt_bind (x : Run α) (f : Except Error α → Run β) (s : State) :
    (x.attempt >>= f).outcome s = (f (x.outcome s)).outcome (x.after s) := by
  rw [outcome, attempt_bind]
  rfl

theorem after_attempt_bind (x : Run α) (f : Except Error α → Run β) (s : State) :
    (x.attempt >>= f).after s = (f (x.outcome s)).after (x.after s) := by
  rw [after, attempt_bind]
  rfl

end Run

namespace Work

variable {deeper : Deeper}

instance : LawfulMonad Work := by
  refine LawfulMonad.mk' Work (fun w => ?_) (fun a f => rfl) (fun w f g => ?_)
  · show w.bind (fun a => pure a) = w
    induction w with
    | done r => cases r <;> rfl
    | step change next ih => exact congrArg _ (funext ih)
    | locate current name next ih => exact congrArg _ (funext ih)
    | call task next ih => exact congrArg _ (funext ih)
  · show (w.bind f).bind g = w.bind fun a => (f a).bind g
    induction w with
    | done r => cases r <;> rfl
    | step change next ih => exact congrArg _ (funext ih)
    | locate current name next ih => exact congrArg _ (funext ih)
    | call task next ih => exact congrArg _ (funext ih)

/-! Each combinator does what its counterpart among the computations does. -/

theorem run_bind (w : Work α) (f : α → Work β) :
    (w >>= f).run deeper = w.run deeper >>= fun a => (f a).run deeper := by
  show (w.bind f).run deeper = _
  induction w with
  | done r => cases r <;> rfl
  | step change next ih =>
    funext s
    exact congrFun (ih s) (change s)
  | locate current name next ih =>
    simp only [bind, run, bind_assoc]
    exact congrArg _ (funext ih)
  | call task next ih =>
    simp only [bind, run, bind_assoc]
    exact congrArg _ (funext ih)

@[simp]
theorem run_pure (a : α) : (pure a : Work α).run deeper = pure a := rfl

@[simp]
theorem run_fail (cause : Cause) : (fail cause : Work α).run deeper = Run.fail cause := rfl

@[simp]
theorem run_read (f : State → Work α) : (read f).run deeper = fun s => (f s).run deeper s := rfl

@[simp]
theorem run_lift (x : Run α) : (lift x).run deeper = x :=
  funext fun s => Run.conclude_outcome x s

@[simp]
theorem run_map (f : α → β) (w : Work α) : (f <$> w).run deeper = f <$> w.run deeper := by
  rw [map_eq_pure_bind, run_bind, map_eq_pure_bind]
  rfl

@[simp]
theorem run_discard (w : Work α) : (discard w).run deeper = discard (w.run deeper) :=
  run_map _ w

theorem run_task (t : Task) : (task t).run deeper = deeper t := by
  funext s
  show (Run.attempt (deeper t) >>= fun r => Run.conclude r) s = _
  rw [Run.attempt_bind, Run.conclude_outcome]

theorem run_attempt (w : Work α) : w.attempt.run deeper = (w.run deeper).attempt := by
  induction w with
  | done r => cases r <;> rfl
  | step change next ih =>
    funext s
    exact congrFun (ih s) (change s)
  | locate current name next ih | call task next ih =>
    funext s
    simp only [attempt, run, ih, Run.attempt_bind]
    simp only [Run.attempt, Run.attempt_bind]

theorem run_mapError (f : State → Error → Error) (w : Work α) :
    (w.mapError f).run deeper = (w.run deeper).mapError f := by
  induction w with
  | done r => cases r <;> rfl
  | step change next ih =>
    funext s
    exact congrFun (ih s) (change s)
  | locate current name next ih | call task next ih =>
    funext s
    simp only [mapError, run, ih, Run.attempt_bind]
    simp only [Run.mapError, Run.attempt_bind]

theorem run_followedBy (leave : State → State) (w : Work α) :
    (w.followedBy leave).run deeper = (w.run deeper).between id leave := by
  induction w with
  | done r => cases r <;> rfl
  | step change next ih =>
    funext s
    exact congrFun (ih s) (change s)
  | locate current name next ih | call task next ih =>
    funext s
    simp only [followedBy, run, ih, Run.attempt_bind]
    simp only [Run.between, id, Run.attempt_bind]

theorem run_between (enter leave : State → State) (w : Work α) :
    (w.between enter leave).run deeper = (w.run deeper).between enter leave := by
  funext s
  exact congrFun (run_followedBy leave w) (enter s)

theorem run_mapM (f : γ → Work β) (l : List γ) :
    (l.mapM f).run deeper = l.mapM fun c => (f c).run deeper := by
  induction l with
  | nil => rfl
  | cons c l ih => simp only [List.mapM_cons, run_bind, ih, run_pure]

theorem run_forM (f : γ → Work PUnit) (l : List γ) :
    (l.forM f).run deeper = l.forM fun c => (f c).run deeper := by
  induction l with
  | nil => rfl
  | cons c l ih =>
    show (f c >>= fun _ => l.forM f).run deeper = _
    rw [run_bind, ih]
    rfl

theorem run_ensemble (current : Option EnsembleId) (name : String) :
    (ensemble current name).run deeper = Run.locate current name := by
  funext s
  show (Run.attempt (Run.locate current name) >>= fun r => Run.conclude r) s = _
  rw [Run.attempt_bind, Run.conclude_outcome]

end Work

/-! ## Scripts and declarations -/

namespace Work

/-- The work of `Run.eval`. -/
def eval (source : String) : Work Completion := do
  task (.script (← lift (Run.parse .all source)))

def expandPiece : Piece → Work String
  | .text s => return s
  | .var name => lift (Run.readVariable name)
  | .script source => return (← eval source).value

def expand (w : Word) : Work String := return .join (← w.pieces.mapM expandPiece)

def declareBody (id : EnsembleId) (body : String) : Work Unit := do
  discard (task (.body id (← lift (Run.parse .escapes body))))

def declareEnsemble (current : Option EnsembleId) : List String → Work Unit
  | [] => fail (.wrongArguments "ensemble name ?command arg arg...?")
  | [name] => discard (ensemble current name)
  | [name, body] => do declareBody (← ensemble current name) body
  | name :: keyword :: args => do
    let id ← ensemble current name
    if keyword = "ensemble" then declareEnsemble (some id) args
    else lift (Run.declareLeaf id keyword args)

def declare (id : EnsembleId) : List String → Work Unit
  | [] => pure ()
  | keyword :: args =>
    if keyword = "ensemble" then declareEnsemble (some id) args
    else lift (Run.declareLeaf id keyword args)

def declareAll (id : EnsembleId) (commands : List Command) : Work Unit :=
  commands.forM fun c =>
    (declare id (c.words.map Word.literal)).mapError fun _ e =>
      (e.traced c.text).note (.bodyLine c.line)

variable {deeper : Deeper}

theorem run_eval (source : String) : (eval source).run deeper = Run.eval deeper source := by
  simp only [eval, Run.eval, run_bind, run_lift, run_task]

theorem run_expandPiece (p : Piece) :
    (expandPiece p).run deeper = Run.expandPiece deeper p := by
  cases p with
  | text s => rfl
  | var name => exact run_lift _
  | script source => simp only [expandPiece, Run.expandPiece, run_bind, run_eval, run_pure]

theorem run_expand (w : Word) : (expand w).run deeper = Run.expand deeper w := by
  simp only [expand, Run.expand, run_bind, run_mapM, run_expandPiece, run_pure]

theorem run_declareBody (id : EnsembleId) (body : String) :
    (declareBody id body).run deeper = Run.declareBody deeper id body := by
  simp only [declareBody, Run.declareBody, run_bind, run_lift, run_discard, run_task]

theorem run_declareEnsemble (current : Option EnsembleId) (args : List String) :
    (declareEnsemble current args).run deeper = Run.declareEnsemble deeper current args := by
  fun_induction declareEnsemble current args with
  | case1 => rfl
  | case2 current name => simp only [Run.declareEnsemble, run_discard, run_ensemble]
  | case3 current name body =>
    simp only [Run.declareEnsemble, run_bind, run_ensemble, run_declareBody]
  | case4 current name keyword args hlong ih =>
    rw [Run.declareEnsemble.eq_4 _ _ _ _ _ hlong, run_bind, run_ensemble]
    congr 1
    funext id
    split
    · exact ih id
    · exact run_lift _

theorem run_declare (id : EnsembleId) (words : List String) :
    (declare id words).run deeper = Run.declare deeper id words := by
  cases words with
  | nil => rfl
  | cons keyword args =>
    unfold declare Run.declare
    simp only
    split
    · exact run_declareEnsemble (some id) args
    · exact run_lift _

theorem run_declareAll (id : EnsembleId) (commands : List Command) :
    (declareAll id commands).run deeper = Run.declareAll deeper id commands := by
  simp only [declareAll, Run.declareAll, run_forM, run_mapError, run_declare]

end Work

/-! ## Calls -/

/-- The work of `Program.answer`. -/
def Program.work : Program → Work String
  | .done result => .done result
  | .eval script next => do
    let r ← (Work.eval script).attempt
    work (next (r.map Completion.value))
  | .invoke argv next => do
    let r ← (Work.task (.invoke argv)).attempt
    work (next (r.map Completion.value))
  | .delete name next => do
    let r ← Work.lift (Run.delete name)
    work (next r)
  | .create path next => do
    let r ← (Work.lift (Run.create path)).attempt
    work (next r)
  | .ask q next => do
    let r ← Work.lift (Run.inquire q)
    work (next r)
  | .addPart path name summary tag body next => do
    let r ← (Work.lift (Run.addPart path name summary ⟨tag, body⟩)).attempt
    work (next r)
  | .register name tag body next => do
    let r ← Work.lift (Run.register name ⟨tag, body⟩)
    work (next r)

/-- The work of `Hosted.call`. -/
def Hosted.work (h : Hosted) (argv : List String) : Work String :=
  .between (·.beginCall h) (·.endCall h) (h.native.run argv).work

namespace Work

def callPart (id : EnsembleId) (part : String) (handler : Handler) (args : List String) :
    Work String :=
  match handler with
  | .native h => h.work (part :: args)
  | .procedure p =>
    match p.signature.bind args with
    | none => lift (Run.ask fun c => .error (.wrongArguments (c.usageOf id part)))
    | some bindings => do
      return (← task (.procedure p.name bindings (← lift (Run.parse .all p.body)))).value
  | .ensemble command => do return (← task (.dispatch command (part :: args))).value

def callNotedPart (id : EnsembleId) (part : String) (handler : Handler) (args : List String) :
    Work String :=
  (callPart id part handler args).mapError fun s e => e.note (.partOf part (s.catalog.path id))

def select (e : Ensemble) (word : String) (args : List String) : Work String :=
  match e.parts.resolve word with
  | .found p => callNotedPart e.id p.name p.handler args
  | _ =>
    match e.parts.find? catchAll with
    | some p => callNotedPart e.id catchAll p.handler (word :: args)
    | none => lift (Run.ask fun c => .error (.unknownPart word (c.usage e.id)))

def dispatch (command : Handle) (argv : List String) : Work String := read fun s =>
  match s.catalog.registry.bound? command, argv with
  | none, _ => fail (.unknownCommand (argv.headD ""))
  | some e, _ :: word :: args => select e word args
  | some e, _ => fail (.missingPart (s.catalog.usage e.id))

end Work

theorem Program.run_work {deeper : Deeper} (p : Program) :
    p.work.run deeper = p.answer deeper := by
  induction p with
  | done result => cases result <;> rfl
  | eval script next ih =>
    simp only [work, answer, Work.run_bind, Work.run_attempt, Work.run_eval, ih]
  | invoke argv next ih =>
    simp only [work, answer, Work.run_bind, Work.run_attempt, Work.run_task, ih]
  | delete name next ih | ask q next ih | register name tag body next _ ih =>
    simp only [work, answer, Work.run_bind, Work.run_lift, ih]
  | create path next ih | addPart path name summary tag body next _ ih =>
    simp only [work, answer, Work.run_bind, Work.run_attempt, Work.run_lift, ih]

theorem Hosted.run_work {deeper : Deeper} (h : Hosted) (argv : List String) :
    (h.work argv).run deeper = h.call deeper argv := by
  rw [work, call, Work.run_between, Program.run_work]

namespace Work

variable {deeper : Deeper}

theorem run_callPart (id : EnsembleId) (part : String) (handler : Handler) (args : List String) :
    (callPart id part handler args).run deeper = Run.callPart deeper id part handler args := by
  cases handler with
  | native h => exact h.run_work _
  | ensemble command => simp only [callPart, Run.callPart, run_bind, run_task, run_pure]
  | procedure p =>
    unfold callPart Run.callPart
    simp only
    cases p.signature.bind args with
    | none => exact run_lift _
    | some bindings => simp only [run_bind, run_lift, run_task, run_pure]

theorem run_callNotedPart (id : EnsembleId) (part : String) (handler : Handler)
    (args : List String) :
    (callNotedPart id part handler args).run deeper =
      Run.callNotedPart deeper id part handler args := by
  rw [callNotedPart, Run.callNotedPart, run_mapError, run_callPart]

theorem run_select (e : Ensemble) (word : String) (args : List String) :
    (select e word args).run deeper = Run.select deeper e word args := by
  unfold select Run.select
  cases e.parts.resolve word with
  | found p => exact run_callNotedPart ..
  | ambiguous | absent =>
    cases e.parts.find? catchAll with
    | some p => exact run_callNotedPart ..
    | none => exact run_lift _

theorem run_dispatch (command : Handle) (argv : List String) :
    (dispatch command argv).run deeper = Run.dispatch deeper command argv := by
  funext s
  simp only [dispatch, run_read, Run.dispatch]
  cases s.catalog.registry.bound? command with
  | none => rfl
  | some e =>
    cases argv with
    | nil => rfl
    | cons name rest =>
      cases rest with
      | nil => rfl
      | cons word args => exact congrFun (run_select e word args) s

/-! ## Evaluation -/

/-- Of the builtin commands only one has work for the next level. -/
def builtin : Builtin → List String → Work Completion
  | .ensemble, args => do
    declareEnsemble none args
    return .normal ""
  | b, args => lift (Run.builtin (perform 0) b args)

def invoke : List String → Work Completion
  | [] => return .normal ""
  | name :: args => read fun s =>
    match s.catalog.commands.find? name with
    | none => fail (.unknownCommand name)
    | some ⟨_, _, .builtin b⟩ => builtin b args
    | some ⟨_, _, .native h⟩ => .normal <$> h.work (name :: args)
    | some ⟨handle, _, .ensemble⟩ => .normal <$> dispatch handle (name :: args)

def evalCommand (c : Command) : Work Completion := do
  invoke (← c.words.mapM expand)

def evalCommands (blame : Command → Error → Error) (last : Completion) :
    List Command → Work Completion
  | [] => return last
  | c :: cs => do
    match ← (evalCommand c).mapError (fun _ e => blame c (e.traced c.text)) with
    | .returned value => return .returned value
    | .normal value => evalCommands blame (.normal value) cs

theorem run_builtin (b : Builtin) (args : List String) :
    (builtin b args).run deeper = Run.builtin deeper b args := by
  cases b with
  | ensemble => simp only [builtin, Run.builtin, run_bind, run_declareEnsemble, run_pure]
  | concat | list => exact run_lift _
  | error | puts | ret | set =>
    refine (run_lift _).trans ?_
    match args with
    | [] | [_] | [_, _] | _ :: _ :: _ :: _ => rfl

theorem run_invoke (argv : List String) : (invoke argv).run deeper = Run.invoke deeper argv := by
  cases argv with
  | nil => rfl
  | cons name args =>
    funext s
    simp only [invoke, run_read, Run.invoke]
    cases s.catalog.commands.find? name with
    | none => rfl
    | some a =>
      obtain ⟨handle, _, target⟩ := a
      cases target with
      | builtin b => exact congrFun (run_builtin b args) s
      | native h => simp only [run_map, h.run_work]
      | ensemble => simp only [run_map, run_dispatch]

theorem run_evalCommand (c : Command) :
    (evalCommand c).run deeper = Run.evalCommand deeper c := by
  simp only [evalCommand, Run.evalCommand, run_bind, run_mapM, run_expand, run_invoke]

theorem run_evalCommands (blame : Command → Error → Error) (last : Completion)
    (commands : List Command) :
    (evalCommands blame last commands).run deeper =
      Run.evalCommands deeper blame last commands := by
  induction commands generalizing last with
  | nil => rfl
  | cons c commands ih =>
    simp only [evalCommands, Run.evalCommands, run_bind, run_mapError, run_evalCommand]
    congr 1
    funext done
    cases done with
    | returned value => rfl
    | normal value => exact ih _

end Work

/-- What a task does on its own level. -/
def Task.work : Task → Work Completion
  | .script commands => Work.evalCommands (fun _ e => e) (.normal "") commands
  | .procedure name bindings commands => do
    let done ← Work.between (·.enter (.ofBindings bindings)) State.leave
      (Work.evalCommands (fun c e => e.note (.procedureLine name c.line)) (.normal "") commands)
    return .normal done.value
  | .body id commands => do
    Work.declareAll id commands
    return .normal ""
  | .dispatch command argv => return .normal (← Work.dispatch command argv)
  | .invoke argv => Work.invoke argv

theorem Task.run_work {deeper : Deeper} (t : Task) : t.work.run deeper = t.run deeper := by
  cases t with
  | script commands => exact Work.run_evalCommands ..
  | procedure name bindings commands =>
    simp only [work, run, Work.run_bind, Work.run_between, Work.run_evalCommands, Work.run_pure]
  | body id commands => simp only [work, run, Work.run_bind, Work.run_declareAll, Work.run_pure]
  | dispatch command argv =>
    simp only [work, run, Work.run_bind, Work.run_dispatch, Work.run_pure]
  | invoke argv => exact Work.run_invoke argv

namespace Interpreter

theorem run_eq (i : Interpreter) (x : Run α) :
    i.run x = (x.outcome i.state, ⟨i.limit, x.after i.state⟩) := by
  unfold run Run.outcome Run.after
  cases x i.state <;> rfl

theorem run_value (i : Interpreter) (x : Run Completion) :
    i.run (do return (← x).value) =
      ((x.outcome i.state).map Completion.value, ⟨i.limit, x.after i.state⟩) := by
  rw [run_eq]
  unfold Run.outcome Run.after
  simp only [bind, EStateM.bind]
  cases x i.state <;> rfl

/-- What `eval` gives and leaves behind. -/
theorem eval_eq (i : Interpreter) (script : String) :
    i.eval script = let x := Run.eval (perform i.limit) script
      ((x.outcome i.state).map Completion.value, ⟨i.limit, x.after i.state⟩) :=
  i.run_value _

theorem invoke_eq (i : Interpreter) (argv : List String) :
    i.invoke argv = let x := perform i.limit (.invoke argv)
      ((x.outcome i.state).map Completion.value, ⟨i.limit, x.after i.state⟩) :=
  i.run_value _

end Interpreter

end Ensembles
