import Ensembles.Interpreter
import Ensembles.Proofs.CommandTables
import Ensembles.Proofs.SortedParts

/-!
# Runs

All that scripts, declarations, calls and natives do to a state they do in a few kinds of
steps. `State.Reaches` is the relation that these steps make, with the steps inside a
procedure or a call of a native between its beginning and its end. `Run.steps_perform` says
that every task reaches the state it leaves behind; so what the steps preserve, every run
preserves, at any limit and however natives and scripts call each other.
-/

namespace Ensembles

variable {α β : Type}

/-- The state that a computation leaves behind, whether it fails or not. -/
def Run.after (x : Run α) (s : State) : State :=
  match x s with
  | .ok _ s' => s'
  | .error _ s' => s'

/-- The natives that can be called: those that something owns and those that are kept. -/
def State.atHand (s : State) : List Hosted := s.catalog.natives ++ s.kept

theorem State.mem_atHand_of_kept? {s : State} {serial : Nat} {h : Hosted}
    (hk : s.kept? serial = some h) : h ∈ s.atHand :=
  List.mem_append_right _ (List.mem_of_find?_eq_some hk)

/-- What runs can make of a state. -/
inductive State.Reaches : State → State → Prop where
  | refl (s : State) : Reaches s s
  | trans {s t u : State} : Reaches s t → Reaches t u → Reaches s u
  | set (s : State) (name value : String) : Reaches s (s.set name value)
  | write (s : State) (output : String) : Reaches s { s with output }
  | register (s : State) (name : String) (n : Native) : Reaches s ((Run.register name n).after s)
  | delete (s : State) (name : String) : Reaches s ((Run.delete name).after s)
  | create (s : State) (path : String) : Reaches s ((Run.create path).after s)
  | addPart (s : State) (path name : String) (usage : Option String) (n : Native) :
    Reaches s ((Run.addPart path name usage n).after s)
  | locate (s : State) (current : Option EnsembleId) (name : String) :
    Reaches s ((Run.locate current name).after s)
  | declarePart (s : State) (id : EnsembleId) (keyword : String) (args : List String) :
    Reaches s ((Run.declarePart id keyword args).after s)
  | ask (s : State) (q : Inquiry) : Reaches s (s.answer q).2
  /-- The run of a procedure. -/
  | frame {s t : State} {scope : Scope} : Reaches (s.enter scope) t → Reaches s t.leave
  /-- A call of a native that a command or part owns or that is kept. -/
  | call {s t : State} {h : Hosted} :
    h ∈ s.atHand → Reaches (s.beginCall h) t → Reaches s (t.endCall h)

/-- What can become of a state without the interpreter: text is written, and natives that are
kept are copied and dropped. -/
inductive State.Alone : State → State → Prop where
  | refl (s : State) : Alone s s
  | trans {s t u : State} : Alone s t → Alone t u → Alone s u
  | write (s : State) (output : String) : Alone s { s with output }
  | remember (s : State) (memory : String) : Alone s { s with memory }
  | copy (s : State) (serial : Nat) : Alone s (s.answer (.copy serial)).2
  | drop (s : State) (serial : Nat) : Alone s (s.drop serial)

theorem State.Alone.reaches {s t : State} (h : s.Alone t) : s.Reaches t := by
  induction h with
  | refl s => exact .refl s
  | trans _ _ ih₁ ih₂ => exact ih₁.trans ih₂
  | write s output => exact .write s output
  | remember s memory => exact .ask s (.remember memory)
  | copy s serial => exact .ask s (.copy serial)
  | drop s serial => exact .ask s (.drop serial)

/-- From any state the computation reaches the one that it leaves behind. -/
def Run.Steps (x : Run α) : Prop := ∀ s : State, s.Reaches (x.after s)

namespace Run

variable {x : Run α} {f : α → Run β} {s : State} {deeper : Deeper}

/-! ## Combinators -/

theorem after_of_ok {a : α} {t : State} (h : x s = .ok a t) : x.after s = t := by
  rw [after, h]

theorem after_of_error {e : Error} {t : State} (h : x s = .error e t) : x.after s = t := by
  rw [after, h]

theorem reaches_congr {y : Run α} (h : x s = y s) (hy : s.Reaches (y.after s)) :
    s.Reaches (x.after s) := by
  unfold after at hy ⊢
  rwa [h]

theorem reaches_bind (hx : s.Reaches (x.after s)) (hf : ∀ a, (f a).Steps) :
    s.Reaches ((x >>= f).after s) := by
  unfold after at hx ⊢
  simp only [bind, EStateM.bind]
  cases h : x s with
  | ok a s' =>
    rw [h] at hx
    exact hx.trans (hf a s')
  | error e s' =>
    rw [h] at hx
    exact hx

theorem steps_bind (hx : x.Steps) (hf : ∀ a, (f a).Steps) : (x >>= f).Steps :=
  fun s => reaches_bind (hx s) hf

theorem steps_pure (a : α) : (pure a : Run α).Steps := fun s => .refl s

theorem steps_fail (cause : Cause) : (fail cause : Run α).Steps := fun s => .refl s

theorem steps_throw (e : Error) : (throw e : Run α).Steps := fun s => .refl s

theorem reaches_map {g : α → β} (hx : s.Reaches (x.after s)) : s.Reaches ((g <$> x).after s) := by
  rw [map_eq_pure_bind]
  exact reaches_bind hx fun a => steps_pure (g a)

theorem steps_discard (hx : x.Steps) : (discard x).Steps := fun s => reaches_map (hx s)

theorem after_mapError (g : State → Error → Error) (x : Run α) (s : State) :
    (x.mapError g).after s = x.after s := by
  unfold after mapError
  cases x s <;> rfl

theorem steps_mapError {g : State → Error → Error} (hx : x.Steps) : (x.mapError g).Steps :=
  fun s => (after_mapError g x s).symm ▸ hx s

theorem after_attempt (x : Run α) (s : State) : x.attempt.after s = x.after s := by
  unfold after attempt
  cases x s <;> rfl

theorem steps_attempt (hx : x.Steps) : x.attempt.Steps :=
  fun s => (after_attempt x s).symm ▸ hx s

theorem after_ask (g : Catalog → Except Cause α) (s : State) : (ask g).after s = s := by
  unfold after ask
  cases g s.catalog <;> rfl

theorem after_inquire (q : Inquiry) (s : State) : (inquire q).after s = (s.answer q).2 := rfl

theorem steps_ask (g : Catalog → Except Cause α) : (ask g).Steps :=
  fun s => (after_ask g s).symm ▸ .refl s

theorem steps_mapM {γ : Type} {g : γ → Run β} (hg : ∀ c, (g c).Steps) (l : List γ) :
    (l.mapM g).Steps := by
  induction l with
  | nil => exact steps_pure _
  | cons c l ih =>
    rw [List.mapM_cons]
    exact steps_bind (hg c) fun b => steps_bind ih fun bs => steps_pure _

theorem steps_forM {γ : Type} {g : γ → Run PUnit} (hg : ∀ c, (g c).Steps) (l : List γ) :
    (l.forM g).Steps := by
  induction l with
  | nil => exact steps_pure _
  | cons c l ih => exact steps_bind (hg c) fun _ => ih

/-! ## Scripts -/

theorem steps_parse (f : Substitutions) (source : String) : (parse f source).Steps := by
  intro s
  unfold after parse
  cases Script.parse f source <;> exact .refl s

theorem steps_eval (hd : ∀ t, (deeper t).Steps) (source : String) : (eval deeper source).Steps :=
  steps_bind (steps_parse _ _) fun _ => hd _

theorem steps_readVariable (name : String) : (readVariable name).Steps := by
  intro s
  unfold after readVariable
  cases s.get? name <;> exact .refl s

theorem steps_expandPiece (hd : ∀ t, (deeper t).Steps) (p : Piece) :
    (expandPiece deeper p).Steps := by
  cases p with
  | text s => exact steps_pure s
  | var name => exact steps_readVariable name
  | script source => exact steps_bind (steps_eval hd source) fun _ => steps_pure _

theorem steps_expand (hd : ∀ t, (deeper t).Steps) (w : Word) : (expand deeper w).Steps :=
  steps_bind (steps_mapM (steps_expandPiece hd) _) fun _ => steps_pure _

/-! ## Declarations -/

theorem steps_declareLeaf (id : EnsembleId) (keyword : String) (args : List String) :
    (declareLeaf id keyword args).Steps := by
  unfold declareLeaf
  split
  · exact fun s => .declarePart s id keyword args
  · exact steps_fail _

theorem steps_declareBody (hd : ∀ t, (deeper t).Steps) (id : EnsembleId) (body : String) :
    (declareBody deeper id body).Steps :=
  steps_bind (steps_parse _ _) fun _ => steps_discard (hd _)

theorem steps_locate (current : Option EnsembleId) (name : String) : (locate current name).Steps :=
  fun s => .locate s current name

theorem steps_declareEnsemble (hd : ∀ t, (deeper t).Steps) (current : Option EnsembleId)
    (args : List String) : (declareEnsemble deeper current args).Steps := by
  fun_induction declareEnsemble deeper current args with
  | case1 => exact steps_fail _
  | case2 current name => exact steps_discard (steps_locate current name)
  | case3 current name body =>
    exact steps_bind (steps_locate current name) fun id => steps_declareBody hd id body
  | case4 current name keyword args _ ih =>
    refine steps_bind (steps_locate current name) fun id => ?_
    split
    · exact ih id
    · exact steps_declareLeaf id keyword args

theorem steps_declare (hd : ∀ t, (deeper t).Steps) (id : EnsembleId) (words : List String) :
    (declare deeper id words).Steps := by
  unfold declare
  split
  · exact steps_pure _
  · split
    · exact steps_declareEnsemble hd _ _
    · exact steps_declareLeaf _ _ _

theorem steps_declareAll (hd : ∀ t, (deeper t).Steps) (id : EnsembleId) (commands : List Command) :
    (declareAll deeper id commands).Steps :=
  steps_forM (fun _ => steps_mapError (steps_declare hd id _)) commands

end Run

/-! ## Calls -/

theorem Program.steps_answer {deeper : Deeper} (hd : ∀ t, (deeper t).Steps) (p : Program) :
    (p.answer deeper).Steps := by
  induction p with
  | done result =>
    cases result with
    | error e => exact Run.steps_throw e
    | ok value => exact Run.steps_pure value
  | eval script _ ih =>
    exact Run.steps_bind (Run.steps_attempt (Run.steps_eval hd script)) fun _ => ih _
  | invoke argv _ ih => exact Run.steps_bind (Run.steps_attempt (hd _)) fun _ => ih _
  | delete name _ ih => exact Run.steps_bind (fun s => .delete s name) fun _ => ih _
  | create path _ ih =>
    exact Run.steps_bind (Run.steps_attempt fun s => .create s path) fun _ => ih _
  | ask q _ ih => exact Run.steps_bind (fun s => .ask s q) fun _ => ih _
  | addPart path name summary tag body _ _ ih =>
    refine Run.steps_bind (Run.steps_attempt fun s => ?_) fun _ => ih _
    exact .addPart s path name summary ⟨tag, body⟩
  | register name tag body _ _ ih =>
    exact Run.steps_bind (fun s => .register s name ⟨tag, body⟩) fun _ => ih _

namespace Run

variable {s : State} {deeper : Deeper}

theorem after_between (enter leave : State → State) (x : Run α) (s : State) :
    (x.between enter leave).after s = leave (x.after (enter s)) := by
  unfold after between
  cases x (enter s) <;> rfl

/-- A call of a native that is at hand. -/
theorem reaches_call (hd : ∀ t, (deeper t).Steps) {h : Hosted} (hm : h ∈ s.atHand)
    (argv : List String) : s.Reaches ((h.call deeper argv).after s) := by
  rw [Hosted.call, after_between]
  exact .call hm (Program.steps_answer hd _ _)

theorem reaches_callPart (hd : ∀ t, (deeper t).Steps) {handler : Handler}
    (hm : ∀ h, handler = .native h → h ∈ s.catalog.natives) (id : EnsembleId) (part : String)
    (args : List String) : s.Reaches ((callPart deeper id part handler args).after s) := by
  cases handler with
  | native h => exact reaches_call hd (List.mem_append_left _ (hm h rfl)) _
  | ensemble command => exact reaches_bind (hd _ s) fun _ => steps_pure _
  | procedure p =>
    unfold callPart
    simp only
    split
    · exact steps_ask _ s
    · exact reaches_bind (steps_parse _ _ s) fun _ => steps_bind (hd _) fun _ => steps_pure _

/-- What a part runs, its catalogue owns. -/
theorem mem_natives_of_part {c : Catalog} {e : Ensemble} {p : Part Handler} {h : Hosted}
    (he : e ∈ c.registry.ensembles) (hp : p ∈ e.parts.toList) (hh : p.handler = .native h) :
    h ∈ c.natives := by
  refine List.mem_append_right _ (List.mem_flatMap.2 ⟨e, he, List.mem_flatMap.2 ⟨p, hp, ?_⟩⟩)
  rw [hh]
  exact List.mem_singleton_self h

theorem reaches_select (hd : ∀ t, (deeper t).Steps) {e : Ensemble}
    (he : e ∈ s.catalog.registry.ensembles) (word : String) (args : List String) :
    s.Reaches ((select deeper e word args).after s) := by
  unfold select
  split
  · rename_i p hp
    rw [callNotedPart, after_mapError]
    have hm := PartTable.mem_of_resolve hp
    exact reaches_callPart hd (fun _ hh => mem_natives_of_part he hm hh) ..
  · split
    · rename_i p hp
      rw [callNotedPart, after_mapError]
      have hm := (PartTable.find?_mem hp).1
      exact reaches_callPart hd (fun _ hh => mem_natives_of_part he hm hh) ..
    · exact steps_ask _ s

theorem steps_dispatch (hd : ∀ t, (deeper t).Steps) (command : Handle) (argv : List String) :
    (dispatch deeper command argv).Steps := by
  intro s
  cases hb : s.catalog.registry.bound? command with
  | none =>
    refine reaches_congr ?_ (steps_fail (.unknownCommand (argv.headD "")) s)
    simp only [dispatch, hb]
  | some e =>
    match argv with
    | [] | [_] =>
      refine reaches_congr ?_ (steps_fail (.missingPart (s.catalog.usage e.id)) s)
      simp only [dispatch, hb]
    | _ :: word :: args =>
      refine reaches_congr ?_ (reaches_select hd (Registry.mem_of_bound? hb) word args)
      simp only [dispatch, hb]

/-! ## Evaluation -/

theorem steps_modify {f : State → State} (hf : ∀ s : State, s.Reaches (f s)) :
    (modify f : Run PUnit).Steps := hf

theorem steps_builtin (hd : ∀ t, (deeper t).Steps) (b : Builtin) (args : List String) :
    (builtin deeper b args).Steps := by
  unfold builtin
  split
  · exact steps_pure _
  · exact steps_bind (steps_declareEnsemble hd none _) fun _ => steps_pure _
  · exact steps_fail _
  · exact steps_fail _
  · exact steps_pure _
  · exact steps_bind (steps_modify fun s => .write s _) fun _ => steps_pure _
  · exact steps_fail _
  · exact steps_pure _
  · exact steps_pure _
  · exact steps_fail _
  · exact steps_bind (steps_readVariable _) fun _ => steps_pure _
  · exact steps_bind (steps_modify fun s => .set s _ _) fun _ => steps_pure _
  · exact steps_fail _

theorem mem_natives_of_command {c : Catalog} {a : CommandEntry} {h : Hosted}
    (ha : a ∈ c.commands.entries) (hh : a.target = .native h) : h ∈ c.natives := by
  refine List.mem_append_left _ (List.mem_flatMap.2 ⟨a, ha, ?_⟩)
  rw [hh]
  exact List.mem_singleton_self h

theorem steps_invoke (hd : ∀ t, (deeper t).Steps) (argv : List String) :
    (invoke deeper argv).Steps := by
  match argv with
  | [] => exact steps_pure _
  | name :: args =>
    intro s
    cases hf : s.catalog.commands.find? name with
    | none =>
      refine reaches_congr ?_ (steps_fail (.unknownCommand name) s)
      simp only [invoke, hf]
    | some a =>
      have ha := CommandTable.mem_of_find? hf
      obtain ⟨handle, _, target⟩ := a
      cases target with
      | builtin b =>
        refine reaches_congr ?_ (steps_builtin hd b args s)
        simp only [invoke, hf]
      | native h =>
        have hc := reaches_call hd (List.mem_append_left _ (mem_natives_of_command ha rfl))
          (name :: args)
        refine reaches_congr ?_ (reaches_map (g := Completion.normal) hc)
        simp only [invoke, hf]
      | ensemble =>
        have hc := steps_dispatch hd handle (name :: args) s
        refine reaches_congr ?_ (reaches_map (g := Completion.normal) hc)
        simp only [invoke, hf]

theorem steps_evalCommand (hd : ∀ t, (deeper t).Steps) (c : Command) :
    (evalCommand deeper c).Steps :=
  steps_bind (steps_mapM (steps_expand hd) _) fun _ => steps_invoke hd _

theorem steps_evalCommands (hd : ∀ t, (deeper t).Steps) (blame : Command → Error → Error)
    (last : Completion) (commands : List Command) :
    (evalCommands deeper blame last commands).Steps := by
  induction commands generalizing last with
  | nil => exact steps_pure last
  | cons c commands ih =>
    refine steps_bind (steps_mapError (steps_evalCommand hd c)) fun done => ?_
    cases done with
    | normal value => exact ih _
    | returned value => exact steps_pure _

end Run

theorem Task.steps_run {deeper : Deeper} (hd : ∀ t, (deeper t).Steps) (t : Task) :
    (t.run deeper).Steps := by
  cases t with
  | script commands => exact Run.steps_evalCommands hd _ _ commands
  | procedure name bindings commands =>
    refine Run.steps_bind (fun s => ?_) fun _ => Run.steps_pure _
    rw [Run.after_between]
    exact .frame (Run.steps_evalCommands hd _ _ commands _)
  | body id commands =>
    exact Run.steps_bind (Run.steps_declareAll hd id commands) fun _ => Run.steps_pure _
  | dispatch command argv =>
    exact Run.steps_bind (Run.steps_dispatch hd command argv) fun _ => Run.steps_pure _
  | invoke argv => exact Run.steps_invoke hd argv

/-- At any limit a task reaches the state it leaves behind. -/
theorem Run.steps_perform (levels : Nat) (t : Task) : (perform levels t).Steps := by
  induction levels generalizing t with
  | zero => exact Run.steps_fail _
  | succ levels ih => exact Task.steps_run ih t

end Ensembles
