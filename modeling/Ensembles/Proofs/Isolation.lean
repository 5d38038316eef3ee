import Ensembles.Proofs.Likeness

/-!
# Procedures and the variables of their callers

The body of a procedure looks up and sets variables in the frame of the procedure and in the global
one, and puts further frames above its own. So what lies below is of no matter: runs from states
that differ only there do the same (`State.nesting_inside`). A call that leads to a procedure part,
straight or through nested ensembles, touches no variable before (`Run.isolatedAt_dispatch`); it
neither sees nor changes the variables of the procedures that are running
(`Interpreter.procedures_isolated`).
-/

namespace Ensembles

variable {α β : Type}

/-! ## Calls that lead to procedures -/

/-- The part that a call of the ensemble selects, and the arguments after the name of the part. -/
def Ensemble.choice (e : Ensemble) (word : String) (args : List String) :
    Option (Part Handler × List String) :=
  match e.parts.resolve word with
  | .found p => some (p, args)
  | _ => (e.parts.find? catchAll).map fun p => (p, word :: args)

namespace Catalog

/-- The call of the ensemble that is bound to the command leads to a procedure part, of it or of
an ensemble below it. -/
inductive LeadsToProcedure (c : Catalog) : Handle → List String → Prop where
  | part {command : Handle} {e : Ensemble} {name word : String} {args args' : List String}
      {p : Part Handler} {procedure : Procedure} :
    c.registry.bound? command = some e → e.choice word args = some (p, args') →
      p.handler = .procedure procedure → LeadsToProcedure c command (name :: word :: args)
  | nested {command below : Handle} {e : Ensemble} {name word : String} {args args' : List String}
      {p : Part Handler} :
    c.registry.bound? command = some e → e.choice word args = some (p, args') →
      p.handler = .ensemble below → LeadsToProcedure c below (p.name :: args') →
        LeadsToProcedure c command (name :: word :: args)

/-- The words are a call of a procedure part. -/
def CallsProcedure (c : Catalog) (argv : List String) : Prop :=
  ∃ name args a, argv = name :: args ∧ c.commands.find? name = some a ∧ a.target = .ensemble ∧
    c.LeadsToProcedure a.handle argv

end Catalog

/-! ## Inside a procedure -/

namespace State

/-- The states differ at most in the frames below the innermost one, which are `outer` in the one
and `outer'` in the other. -/
def Inside (frames : List Scope × List Scope) (s t : State) : Prop :=
  ∃ scope, s.locals = scope :: frames.1 ∧ t = { s with locals := scope :: frames.2 }

/-! The variables of procedures play no part in which natives are released. -/

theorem letGo_locals (s : State) (locals : List Scope) (h : Hosted) :
    { s with locals }.letGo h = { s.letGo h with locals } := by
  unfold letGo
  by_cases hu : s.InUse h.serial
  · rw [if_pos hu]
    exact if_pos hu
  · rw [if_neg hu]
    exact if_neg hu

theorem settle_locals (s : State) (locals : List Scope) (serial : Nat) :
    { s with locals }.settle serial = { s.settle serial with locals } := by
  by_cases h : s.InUse serial
  · rw [settle_of_inUse h]
    exact settle_of_inUse h
  · rw [settle_of_not_inUse h]
    exact settle_of_not_inUse h

theorem answer_locals (s : State) (locals : List Scope) (q : Inquiry) :
    { s with locals }.answer q = ((s.answer q).1, { (s.answer q).2 with locals }) := by
  cases q with
  | part path word =>
    simp only [answer]
    cases s.catalog.part path word with
    | error cause => rfl
    | ok handler => cases handler <;> rfl
  | copy serial =>
    simp only [answer, kept?]
    cases s.kept.find? (·.serial = serial) <;> rfl
  | drop serial =>
    exact congrArg (Prod.mk ())
      (settle_locals { s with kept := s.kept.eraseP (·.serial = serial) } locals serial)
  | _ => rfl

/-- What is done in a procedure goes on as if the frames below were others. -/
theorem nesting_inside : Nesting Error.Never Inside where
  like frames := {
    note := fun _ => id
    catalog := by
      rintro s _ ⟨scope, hl, rfl⟩
      rfl
    received := by
      rintro s _ ⟨scope, hl, rfl⟩
      rfl
    get? := by
      rintro s _ ⟨scope, hl, rfl⟩ name
      unfold get?
      rw [hl]
      cases isGlobalName name <;> rfl
    natives := fun _ h _ => h.native.letsOut_never
    set := by
      rintro s _ ⟨scope, hl, rfl⟩ name value
      unfold set
      rw [hl]
      cases isGlobalName name <;> exact ⟨_, rfl, rfl⟩
    put := by
      rintro s _ ⟨scope, hl, rfl⟩ line
      exact ⟨scope, hl, rfl⟩
    receive := by
      rintro s _ ⟨scope, hl, rfl⟩
      exact ⟨scope, hl, rfl⟩
    edited := by
      rintro s _ ⟨scope, hl, rfl⟩ c hc
      exact ⟨scope, hl, rfl⟩
    letGo := by
      rintro s _ ⟨scope, hl, rfl⟩ h
      obtain ⟨_, _, he⟩ := s.letGo_eq h
      refine ⟨scope, ?_, letGo_locals s _ h⟩
      rw [he, hl]
    beginCall := by
      rintro s _ ⟨scope, hl, rfl⟩ h
      exact ⟨scope, hl, rfl⟩
    endCall := by
      rintro s _ ⟨scope, hl, rfl⟩ h
      obtain ⟨_, _, _, he⟩ := s.endCall_eq h
      refine ⟨scope, ?_, settle_locals { s with calling := s.calling.erase h.serial } _ h.serial⟩
      rw [he, hl]
    answer := by
      rintro s _ ⟨scope, hl, rfl⟩ q
      obtain ⟨_, _, _, _, ha⟩ := s.answer_eq q
      rw [answer_locals s (scope :: frames.2)]
      refine ⟨rfl, scope, ?_, rfl⟩
      rw [ha, hl] }
  frame {frames s _} h := by
    obtain ⟨scope, hl, rfl⟩ := h
    refine ⟨(scope :: frames.1, scope :: frames.2), fun inner => ⟨inner, ?_, rfl⟩, ?_⟩
    · rw [enter, hl]
    · rintro s' _ ⟨inner, hl', rfl⟩
      refine ⟨scope, ?_, rfl⟩
      rw [leave, hl']
      rfl

end State

/-! ## Isolated computations -/

/-- From the state on, the computation neither sees nor changes the variables of the procedures
that are running. -/
structure Run.IsolatedAt (x : Run α) (s : State) : Prop where
  locals : (x.after s).locals = s.locals
  outcome (locals : List Scope) : x.outcome { s with locals } = x.outcome s
  after (locals : List Scope) : x.after { s with locals } = { x.after s with locals }

namespace Run

variable {x y : Run α} {s : State} {levels : Nat}

theorem IsolatedAt.congr (hy : y.IsolatedAt s)
    (h : ∀ locals, x { s with locals } = y { s with locals }) : x.IsolatedAt s := by
  have houtcome (locals : List Scope) :
      x.outcome { s with locals } = y.outcome { s with locals } := by
    rw [Run.outcome, Run.outcome, h]
  have hafter (locals : List Scope) : x.after { s with locals } = y.after { s with locals } := by
    rw [Run.after, Run.after, h]
  have hs : x.after s = y.after s := hafter s.locals
  refine ⟨?_, fun locals => ?_, fun locals => ?_⟩
  · rw [hs, hy.locals]
  · rw [houtcome, hy.outcome]
    exact (houtcome s.locals).symm
  · rw [hafter, hy.after, hs]

/-- What leaves the state alone and does not look at variables. -/
theorem isolatedAt_of_after (ha : ∀ s, x.after s = s)
    (ho : ∀ locals, x.outcome { s with locals } = x.outcome s) : x.IsolatedAt s where
  locals := by rw [ha]
  outcome := ho
  after locals := by rw [ha, ha]

theorem isolatedAt_fail (cause : Cause) : (fail cause : Run α).IsolatedAt s :=
  isolatedAt_of_after (fun _ => rfl) fun _ => rfl

theorem isolatedAt_pure (a : α) : (pure a : Run α).IsolatedAt s :=
  isolatedAt_of_after (fun _ => rfl) fun _ => rfl

theorem isolatedAt_ask (f : Catalog → Except Cause α) : (ask f).IsolatedAt s :=
  isolatedAt_of_after (after_ask f) fun locals => by rw [outcome_ask, outcome_ask]

theorem isolatedAt_parse (f : Substitutions) (source : String) : (parse f source).IsolatedAt s :=
  isolatedAt_of_after (after_parse f source) fun locals => by rw [outcome_parse, outcome_parse]

theorem IsolatedAt.bind {f : α → Run β} (hx : x.IsolatedAt s)
    (hf : ∀ a, (f a).IsolatedAt (x.after s)) : (x >>= f).IsolatedAt s := by
  refine ⟨?_, fun locals => ?_, fun locals => ?_⟩
  · rw [after_bind]
    cases x.outcome s with
    | ok a => exact (hf a).locals.trans hx.locals
    | error e => exact hx.locals
  · rw [outcome_bind, outcome_bind, hx.outcome, hx.after]
    cases x.outcome s with
    | ok a => exact (hf a).outcome locals
    | error e => rfl
  · rw [after_bind, after_bind, hx.outcome, hx.after]
    cases x.outcome s with
    | ok a => exact (hf a).after locals
    | error e => rfl

theorem IsolatedAt.map (hx : x.IsolatedAt s) (f : α → β) : (f <$> x).IsolatedAt s := by
  rw [map_eq_pure_bind]
  exact hx.bind fun _ => isolatedAt_pure _

theorem IsolatedAt.mapError (hx : x.IsolatedAt s) {f : State → Error → Error}
    (hf : ∀ (s : State) (locals : List Scope), f { s with locals } = f s) :
    (x.mapError f).IsolatedAt s where
  locals := by rw [after_mapError, hx.locals]
  outcome locals := by rw [outcome_mapError, outcome_mapError, hx.outcome, hx.after, hf]
  after locals := by rw [after_mapError, after_mapError, hx.after]

/-! ## Calls -/

/-- The body of a procedure is isolated by the frame that it is given. -/
theorem isolatedAt_between (hx : ∀ frames, x.Matches (State.Inside frames) Error.Never x)
    (scope : Scope) : (x.between (·.enter scope) State.leave).IsolatedAt s := by
  have hinside (locals : List Scope) :
      x.outcome (s.enter scope) = x.outcome (State.enter { s with locals } scope) ∧
        State.Inside (s.locals, locals) (x.after (s.enter scope))
          (x.after (State.enter { s with locals } scope)) :=
    (hx (s.locals, locals) _ _ ⟨scope, rfl, rfl⟩).resolve_left fun ⟨_, _, h⟩ => h
  refine ⟨?_, fun locals => ?_, fun locals => ?_⟩
  · obtain ⟨inner, hl, -⟩ := (hinside s.locals).2
    rw [after_between, State.leave, hl]
    rfl
  · rw [outcome_between, outcome_between]
    exact (hinside locals).1.symm
  · obtain ⟨inner, -, ha⟩ := (hinside locals).2
    rw [after_between, after_between, ha]
    rfl

theorem isolatedAt_procedure (levels : Nat) (name : String) (bindings : List (String × String))
    (commands : List Command) :
    (perform levels (.procedure name bindings commands)).IsolatedAt s := by
  cases levels with
  | zero => exact isolatedAt_fail _
  | succ levels =>
    refine IsolatedAt.bind (isolatedAt_between (fun frames => ?_) _) fun _ => isolatedAt_pure _
    have hR := State.nesting_inside
    have hd (t : Task) :
        (perform levels t).Matches (State.Inside frames) Error.Never (perform levels t) :=
      matches_perform hR (.inl rfl) frames t
    have hbody := (Work.respects_evalCommands (hR.like frames)
      (fun c e => e.note (.procedureLine name c.line)) (fun _ _ => id) (.normal "")
      commands).matches_run (hR.like frames) hd
    rwa [Work.run_evalCommands] at hbody

theorem isolatedAt_callPart (id : EnsembleId) (part : String) (p : Procedure)
    (args : List String) :
    (callPart (perform levels) id part (.procedure p) args).IsolatedAt s := by
  unfold callPart
  simp only
  cases p.signature.bind args with
  | none => exact isolatedAt_ask _
  | some bindings =>
    exact (isolatedAt_parse _ _).bind fun commands =>
      (isolatedAt_procedure levels _ _ _).bind fun _ => isolatedAt_pure _

/-- A call goes to the part that it selects, and a note on the part is made on its error. -/
theorem select_of_choice {deeper : Deeper} {e : Ensemble} {word : String} {args args' : List String}
    {p : Part Handler} (h : e.choice word args = some (p, args')) :
    select deeper e word args = callNotedPart deeper e.id p.name p.handler args' := by
  unfold Ensemble.choice at h
  unfold select
  cases hr : e.parts.resolve word with
  | found q =>
    rw [hr] at h
    cases h
    rfl
  | ambiguous | absent =>
    rw [hr] at h
    obtain ⟨q, hq, hqp⟩ := Option.map_eq_some_iff.1 h
    cases hqp
    simp only [hq, (PartTable.find?_mem hq).2]

/-- A call is isolated if that of the part it selects is. -/
theorem IsolatedAt.dispatch {deeper : Deeper} {command : Handle} {e : Ensemble}
    {name word : String} {args args' : List String} {p : Part Handler}
    (hb : s.catalog.registry.bound? command = some e) (hc : e.choice word args = some (p, args'))
    (hp : (callPart deeper e.id p.name p.handler args').IsolatedAt s) :
    (dispatch deeper command (name :: word :: args)).IsolatedAt s := by
  have hnoted : (callNotedPart deeper e.id p.name p.handler args').IsolatedAt s :=
    hp.mapError fun _ _ => rfl
  refine hnoted.congr fun locals => ?_
  simp only [Run.dispatch, hb, select_of_choice hc]

theorem isolatedAt_dispatch {command : Handle} {argv : List String}
    (h : s.catalog.LeadsToProcedure command argv) (levels : Nat) :
    (dispatch (perform levels) command argv).IsolatedAt s := by
  induction h generalizing levels with
  | part hb hc hh =>
    refine .dispatch hb hc ?_
    rw [hh]
    exact isolatedAt_callPart _ _ _ _
  | nested hb hc hh _ ih =>
    refine .dispatch hb hc ?_
    rw [hh]
    refine IsolatedAt.bind ?_ fun _ => isolatedAt_pure _
    cases levels with
    | zero => exact isolatedAt_fail _
    | succ levels => exact (ih levels).bind fun _ => isolatedAt_pure _

/-- A call of a procedure part is isolated. -/
theorem isolatedAt_invoke {argv : List String} (h : s.catalog.CallsProcedure argv) (levels : Nat) :
    (invoke (perform levels) argv).IsolatedAt s := by
  obtain ⟨name, args, ⟨handle, _, _⟩, rfl, hf, rfl, hl⟩ := h
  refine ((isolatedAt_dispatch hl levels).map .normal).congr fun locals => ?_
  simp only [invoke, hf]

theorem isolatedAt_perform {argv : List String} (h : s.catalog.CallsProcedure argv)
    (levels : Nat) : (perform levels (.invoke argv)).IsolatedAt s := by
  cases levels with
  | zero => exact isolatedAt_fail _
  | succ levels => exact isolatedAt_invoke h levels

end Run

namespace Interpreter

/-- A call of a procedure part, by a command in a script or by the host, changes no frame of
variables but the global one and those that it makes itself, whether it succeeds or fails; and with
other frames in their place it comes to the same value or error and leaves the same state but for
them. -/
theorem procedures_isolated {argv : List String} {s : State} (h : s.catalog.CallsProcedure argv)
    (levels : Nat) (locals : List Scope) :
    (let x := Run.invoke (perform levels) argv
     (x.after s).locals = s.locals ∧ x.outcome { s with locals } = x.outcome s ∧
      x.after { s with locals } = { x.after s with locals }) ∧
    let x := invoke ⟨levels, s⟩ argv
    x.2.state.locals = s.locals ∧
      invoke ⟨levels, { s with locals }⟩ argv = (x.1, ⟨levels, { x.2.state with locals }⟩) := by
  have hcall := Run.isolatedAt_invoke h levels
  have hhost := Run.isolatedAt_perform h levels
  simp only [invoke_eq]
  refine ⟨⟨hcall.locals, hcall.outcome locals, hcall.after locals⟩, hhost.locals, ?_⟩
  rw [hhost.outcome, hhost.after]

/-- A call from inside a procedure, compared with the one from outside of any. -/
theorem procedures_isolated_called :
    let s := ((new "::r" 5).eval "ensemble e {part p x {set y $x}}").2.state.enter
      (.ofBindings [("y", "2")])
    let x := Run.invoke (perform 5) ["e", "p", "1"]
    s.catalog.CallsProcedure ["e", "p", "1"] ∧ (x.after s).locals = s.locals ∧
      x.outcome { s with locals := [] } = x.outcome s := by
  intro s x
  have hfind : ((s.catalog.commands.find? "e").map fun a =>
      (a.handle, match a.target with | .ensemble => true | .builtin _ | .native _ => false)) =
        some (⟨8⟩, true) := by
    decide +kernel
  have hchoice : ((s.catalog.registry.bound? ⟨8⟩).bind fun e => (e.choice "p" ["1"]).map fun y =>
      match y.1.handler with | .procedure _ => true | .native _ | .ensemble _ => false) =
        some true := by
    decide +kernel
  obtain ⟨⟨handle, name, target⟩, ha, hat⟩ := Option.map_eq_some_iff.1 hfind
  obtain ⟨e, he, hy⟩ := Option.bind_eq_some_iff.1 hchoice
  obtain ⟨⟨⟨_, _, _, handler⟩, args⟩, hc, hp⟩ := Option.map_eq_some_iff.1 hy
  cases target <;> cases hat
  cases handler <;> cases hp
  have hcalls : s.catalog.CallsProcedure ["e", "p", "1"] :=
    ⟨_, _, _, rfl, ha, rfl, .part he hc rfl⟩
  obtain ⟨hlocals, houtcome, -⟩ := (procedures_isolated hcalls 5 []).1
  exact ⟨hcalls, hlocals, houtcome⟩

end Interpreter

end Ensembles
