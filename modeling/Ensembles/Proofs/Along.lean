import Ensembles.Proofs.Work

/-!
# What a run comes through

`Work.Along` says what holds all along the work of a level: of the tasks that it starts and of
the ensembles that it finds or makes, in the states that it does so in. `Task.Keeps` is the
same for the run of a task with all that it brings about. In particular `Task.Fits` says that
a run never asks for a level more than there are; then more levels make no difference to it
(`Task.Fits.perform_succ`).
-/

namespace Ensembles

variable {α β γ : Type}

/-- All along the work, with `deeper` for the tasks one level down, `calls` holds of the tasks
that are started, and `locates` of the ensembles that are found or made. -/
def Work.Along (deeper : Deeper) (calls : Task → State → Prop)
    (locates : Option EnsembleId → String → State → Prop) : Work α → State → Prop
  | .done _, _ => True
  | .step change next, s => (next s).Along deeper calls locates (change s)
  | .locate current name next, s =>
    let x := Run.locate current name
    locates current name s ∧ (next (x.outcome s)).Along deeper calls locates (x.after s)
  | .call task next, s =>
    let x := deeper task
    calls task s ∧ (next (x.outcome s)).Along deeper calls locates (x.after s)

/-- What is asked of a run. -/
structure Watch where
  /-- What is asked where a task is to be started and no level is left. -/
  limit : Prop
  /-- What is asked where a task finds or makes an ensemble on its own level. -/
  locate : Task → Option EnsembleId → String → State → Prop

/-- The run of the task within a number of levels does what is asked. -/
def Task.Keeps (w : Watch) : (levels : Nat) → Task → State → Prop
  | 0, _, _ => w.limit
  | levels + 1, t, s => t.work.Along (perform levels) (Keeps w levels) (w.locate t) s

/-- The run of the task gets along with the levels that it has. -/
def Task.Fits : (levels : Nat) → Task → State → Prop :=
  Task.Keeps ⟨False, fun _ _ _ _ => True⟩

namespace Work

variable {deeper : Deeper} {calls : Task → State → Prop}
  {locates : Option EnsembleId → String → State → Prop} {s : State}

/-! ## Combinators -/

theorem along_bind {w : Work α} {f : α → Work β} :
    (w >>= f).Along deeper calls locates s ↔ w.Along deeper calls locates s ∧
      ∀ a, (w.run deeper).outcome s = .ok a →
        (f a).Along deeper calls locates ((w.run deeper).after s) := by
  show (w.bind f).Along deeper calls locates s ↔ _
  induction w generalizing s with
  | done r =>
    cases r with
    | ok a => simp only [bind, Along, run, Run.outcome_conclude, Run.after_conclude, true_and,
        Except.ok.injEq, forall_eq']
    | error e => simp only [bind, Along, run, Run.outcome_conclude, reduceCtorEq, true_and,
        false_implies, implies_true]
  | step change next ih => exact ih s
  | locate current name next ih | call task next ih =>
    simp only [bind, Along, run, Run.outcome_attempt_bind, Run.after_attempt_bind, ih, and_assoc]

theorem along_discard {w : Work α} :
    (discard w).Along deeper calls locates s ↔ w.Along deeper calls locates s :=
  along_bind.trans (and_iff_left fun _ _ => True.intro)

theorem along_mapError {f : State → Error → Error} {w : Work α} :
    (w.mapError f).Along deeper calls locates s ↔ w.Along deeper calls locates s := by
  induction w generalizing s with
  | done r => cases r <;> rfl
  | step change next ih => exact ih s
  | locate current name next ih | call task next ih => exact and_congr_right fun _ => ih _

theorem along_followedBy {leave : State → State} {w : Work α} :
    (w.followedBy leave).Along deeper calls locates s ↔ w.Along deeper calls locates s := by
  induction w generalizing s with
  | done r => rfl
  | step change next ih => exact ih s
  | locate current name next ih | call task next ih => exact and_congr_right fun _ => ih _

theorem along_between {enter leave : State → State} {w : Work α} :
    (w.between enter leave).Along deeper calls locates s ↔
      w.Along deeper calls locates (enter s) :=
  along_followedBy

/-- What is done with the tasks that work starts is all that matters of tasks. -/
theorem Along.run_congr {deeper' : Deeper} {w : Work α}
    (hw : w.Along deeper calls locates s) (hd : ∀ t s, calls t s → deeper t s = deeper' t s) :
    w.run deeper s = w.run deeper' s := by
  induction w generalizing s with
  | done r => rfl
  | step change next ih => exact ih s hw
  | locate current name next ih =>
    simp only [run, Run.attempt_bind]
    exact ih _ hw.2
  | call task next ih =>
    have ht := hd task s hw.1
    have ho : (deeper' task).outcome s = (deeper task).outcome s := by
      rw [Run.outcome, Run.outcome, ht]
    have ha : (deeper' task).after s = (deeper task).after s := by
      rw [Run.after, Run.after, ht]
    simp only [run, Run.attempt_bind, ho, ha]
    exact ih _ hw.2

end Work

/-! ## Invariants -/

namespace Run

theorem after_bind (x : Run α) (f : α → Run β) (s : State) :
    (x >>= f).after s = match x.outcome s with
      | .ok a => (f a).after (x.after s)
      | .error _ => x.after s := by
  unfold after outcome
  simp only [bind, EStateM.bind]
  cases x s <;> rfl

theorem after_map (g : α → β) (x : Run α) (s : State) : (g <$> x).after s = x.after s := by
  rw [map_eq_pure_bind, after_bind]
  cases x.outcome s <;> rfl

theorem after_discard (x : Run α) (s : State) : (discard x).after s = x.after s :=
  after_map _ x s

theorem outcome_bind (x : Run α) (f : α → Run β) (s : State) :
    (x >>= f).outcome s = match x.outcome s with
      | .ok a => (f a).outcome (x.after s)
      | .error e => .error e := by
  unfold outcome after
  simp only [bind, EStateM.bind]
  cases x s <;> rfl

theorem outcome_map (g : α → β) (x : Run α) (s : State) :
    (g <$> x).outcome s = (x.outcome s).map g := by
  rw [map_eq_pure_bind, outcome_bind]
  cases x.outcome s <;> rfl

theorem outcome_mapError (g : State → Error → Error) (x : Run α) (s : State) :
    (x.mapError g).outcome s = (x.outcome s).mapError (g (x.after s)) := by
  unfold mapError outcome after
  simp only
  cases x s <;> rfl

theorem outcome_between (enter leave : State → State) (x : Run α) (s : State) :
    (x.between enter leave).outcome s = x.outcome (enter s) := by
  unfold outcome between
  cases x (enter s) <;> rfl

theorem outcome_ask (f : Catalog → Except Cause α) (s : State) :
    (ask f).outcome s = (f s.catalog).mapError .of := by
  unfold outcome ask
  cases f s.catalog <;> rfl

theorem outcome_inquire (q : Inquiry) (s : State) :
    (inquire q).outcome s = .ok (s.answer q).1 := rfl

theorem outcome_parse (f : Substitutions) (source : String) (s : State) :
    (parse f source).outcome s = (Script.parse f source).mapError fun e => .of (.malformed e) := by
  unfold outcome parse
  cases Script.parse f source <;> rfl

theorem outcome_edit (f : Catalog → Edit α) (s : State) :
    (edit f).outcome s = (f s.catalog).outcome.mapError .of := by
  unfold outcome edit
  simp only
  cases (f s.catalog).outcome <;> rfl

theorem after_parse (f : Substitutions) (source : String) (s : State) :
    (parse f source).after s = s := by
  unfold after parse
  cases Script.parse f source <;> rfl

theorem after_readVariable (name : String) (s : State) : (readVariable name).after s = s := by
  unfold after readVariable
  cases s.get? name <;> rfl

end Run

namespace Work

variable {deeper : Deeper} {calls : Task → State → Prop}
  {locates : Option EnsembleId → String → State → Prop} {I : State → Prop}

/-- The work leaves behind what it finds, as far as it does what is asked all along. -/
def Maintains (deeper : Deeper) (calls : Task → State → Prop)
    (locates : Option EnsembleId → String → State → Prop) (I : State → Prop) (w : Work α) : Prop :=
  ∀ s, I s → w.Along deeper calls locates s → I ((w.run deeper).after s)

theorem maintains_done (r : Except Error α) : (done r).Maintains deeper calls locates I := by
  intro s hs _
  rwa [run, Run.after_conclude]

theorem maintains_bind {w : Work α} {f : α → Work β} (hw : w.Maintains deeper calls locates I)
    (hf : ∀ a, (f a).Maintains deeper calls locates I) :
    (w >>= f).Maintains deeper calls locates I := by
  intro s hs ha
  obtain ⟨haw, haf⟩ := along_bind.1 ha
  rw [run_bind, Run.after_bind]
  cases ho : (w.run deeper).outcome s with
  | error e => exact hw s hs haw
  | ok a => exact hf a _ (hw s hs haw) (haf a ho)

theorem maintains_lift {x : Run α} (hx : ∀ s, I s → I (x.after s)) :
    (lift x).Maintains deeper calls locates I := by
  intro s hs _
  rw [run_lift]
  exact hx s hs

/-- What is looked up in the state may be taken as known. -/
theorem maintains_read {f : State → Work α}
    (hf : ∀ s, I s → (f s).Maintains deeper calls locates I) :
    (read f).Maintains deeper calls locates I :=
  fun s hs ha => hf s hs s hs ha

theorem maintains_map {f : α → β} {w : Work α} (hw : w.Maintains deeper calls locates I) :
    (f <$> w).Maintains deeper calls locates I := by
  rw [map_eq_pure_bind]
  exact maintains_bind hw fun _ => maintains_done _

theorem maintains_mapError {f : State → Error → Error} {w : Work α}
    (hw : w.Maintains deeper calls locates I) :
    (w.mapError f).Maintains deeper calls locates I := by
  intro s hs ha
  rw [run_mapError, Run.after_mapError]
  exact hw s hs (along_mapError.1 ha)

theorem maintains_between {enter leave : State → State} {w : Work α}
    (henter : ∀ s, I s → I (enter s)) (hleave : ∀ s, I s → I (leave s))
    (hw : w.Maintains deeper calls locates I) :
    (w.between enter leave).Maintains deeper calls locates I := by
  intro s hs ha
  rw [run_between, Run.after_between]
  exact hleave _ (hw _ (henter s hs) (along_between.1 ha))

theorem maintains_mapM {f : γ → Work β} (hf : ∀ c, (f c).Maintains deeper calls locates I)
    (l : List γ) : (l.mapM f).Maintains deeper calls locates I := by
  induction l with
  | nil => exact maintains_done _
  | cons c l ih =>
    rw [List.mapM_cons]
    exact maintains_bind (hf c) fun b => maintains_bind ih fun bs => maintains_done _

theorem maintains_forM {f : γ → Work PUnit} (hf : ∀ c, (f c).Maintains deeper calls locates I)
    (l : List γ) : (l.forM f).Maintains deeper calls locates I := by
  induction l with
  | nil => exact maintains_done _
  | cons c l ih => exact maintains_bind (hf c) fun _ => ih

end Work

/-- A run that gets along with its levels does the same with one more. -/
theorem Task.Fits.perform_succ {levels : Nat} {t : Task} {s : State} (h : t.Fits levels s) :
    perform levels t s = perform (levels + 1) t s := by
  induction levels generalizing t s with
  | zero => exact h.elim
  | succ levels ih =>
    have hrun := Work.Along.run_congr h fun t' s' ht' => ih ht'
    rw [Task.run_work, Task.run_work] at hrun
    exact hrun

end Ensembles
