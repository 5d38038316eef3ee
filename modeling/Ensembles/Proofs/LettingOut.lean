import Ensembles.Proofs.Along

/-!
# Errors that are let out

An error that comes out of a script or an invocation which a native asked for is answered to the
native, which may go on as if nothing had happened. A native lets out errors of a kind if it
fails with such an error in its turn (`Native.LetsOut`). The work of such a native fails as well
(`Program.Fails.work`), and so does all that waits for it (`Work.Fails`): nothing else in a run
looks at the outcome of a task and goes on after an error.
-/

namespace Ensembles

variable {α β : Type}

/-! ## Natives -/

/-- A kind of errors that there are none of. -/
def Error.Never (_ : Error) : Prop := False

namespace Program

/-- Whatever it is answered, the program ends with an error for which `cut` holds. -/
def Fails (cut : Error → Prop) : Program → Prop
  | .done result => ∃ e, result = .error e ∧ cut e
  | .eval _ next => ∀ r, (next r).Fails cut
  | .invoke _ next => ∀ r, (next r).Fails cut
  | .delete _ next => ∀ r, (next r).Fails cut
  | .create _ next => ∀ r, (next r).Fails cut
  | .ask _ next => ∀ r, (next r).Fails cut
  | .addPart _ _ _ _ _ next => ∀ r, (next r).Fails cut
  | .register _ _ _ next => ∀ r, (next r).Fails cut

/-- After an evaluation or an invocation that fails with an error for which `cut` holds, the
program ends with such an error, and so do the natives that it brings along. -/
def LetsOut (cut : Error → Prop) : Program → Prop
  | .done _ => True
  | .eval _ next => (∀ r, (next r).LetsOut cut) ∧ ∀ e, cut e → (next (.error e)).Fails cut
  | .invoke _ next => (∀ r, (next r).LetsOut cut) ∧ ∀ e, cut e → (next (.error e)).Fails cut
  | .delete _ next => ∀ r, (next r).LetsOut cut
  | .create _ next => ∀ r, (next r).LetsOut cut
  | .ask _ next => ∀ r, (next r).LetsOut cut
  | .addPart _ _ _ _ body next => (∀ argv, (body argv).LetsOut cut) ∧ ∀ r, (next r).LetsOut cut
  | .register _ _ body next => (∀ argv, (body argv).LetsOut cut) ∧ ∀ r, (next r).LetsOut cut

/-- Where there is nothing to let out, every program lets it out. -/
theorem letsOut_never (p : Program) : p.LetsOut Error.Never := by
  induction p with
  | done => trivial
  | eval _ _ ih | invoke _ _ ih => exact ⟨ih, fun _ => False.elim⟩
  | delete _ _ ih | create _ _ ih | ask _ _ ih => exact ih
  | addPart _ _ _ _ _ _ ihbody ih | register _ _ _ _ ihbody ih => exact ⟨ihbody, ih⟩

end Program

namespace Native

/-- Each call of the native lets out the errors for which `cut` holds. -/
def LetsOut (cut : Error → Prop) (n : Native) : Prop := ∀ argv, (n.run argv).LetsOut cut

theorem letsOut_never (n : Native) : n.LetsOut Error.Never := fun argv => (n.run argv).letsOut_never

end Native

/-! ## Work -/

namespace Work

/-- However its steps go, the work ends with an error for which `cut` holds. -/
def Fails (cut : Error → Prop) : Work α → Prop
  | .done result => ∃ e, result = .error e ∧ cut e
  | .step _ next => ∀ s, (next s).Fails cut
  | .locate _ _ next => ∀ r, (next r).Fails cut
  | .call _ next => ∀ r, (next r).Fails cut

variable {cut : Error → Prop} {deeper : Deeper}

theorem Fails.bind {w : Work α} (hw : w.Fails cut) (f : α → Work β) : (w >>= f).Fails cut := by
  show (w.bind f).Fails cut
  induction w with
  | done r =>
    obtain ⟨e, rfl, he⟩ := hw
    exact ⟨e, rfl, he⟩
  | step _ _ ih | locate _ _ _ ih | call _ _ ih => exact fun r => ih r (hw r)

theorem Fails.mapError {w : Work α} (hw : w.Fails cut) {f : State → Error → Error}
    (hf : ∀ s e, cut e → cut (f s e)) : (w.mapError f).Fails cut := by
  induction w with
  | done r =>
    obtain ⟨e, rfl, he⟩ := hw
    exact fun s => ⟨f s e, rfl, hf s e he⟩
  | step _ _ ih | locate _ _ _ ih | call _ _ ih => exact fun r => ih r (hw r)

theorem Fails.followedBy {w : Work α} (hw : w.Fails cut) (leave : State → State) :
    (w.followedBy leave).Fails cut := by
  induction w with
  | done r => exact fun _ => hw
  | step _ _ ih | locate _ _ _ ih | call _ _ ih => exact fun r => ih r (hw r)

/-- What fails fails when its outcome is waited for by work that then fails. -/
theorem Fails.attempt_bind {w : Work α} (hw : w.Fails cut) {f : Except Error α → Work β}
    (hf : ∀ e, cut e → (f (.error e)).Fails cut) : (w.attempt >>= f).Fails cut := by
  show (w.attempt.bind f).Fails cut
  induction w with
  | done r =>
    obtain ⟨e, rfl, he⟩ := hw
    exact hf e he
  | step _ _ ih | locate _ _ _ ih | call _ _ ih => exact fun r => ih r (hw r)

theorem Fails.run {w : Work α} (hw : w.Fails cut) (s : State) :
    ∃ e, (w.run deeper).outcome s = .error e ∧ cut e := by
  induction w generalizing s with
  | done r =>
    obtain ⟨e, rfl, he⟩ := hw
    exact ⟨e, rfl, he⟩
  | step change _ ih => exact ih s (hw s) (change s)
  | locate _ _ _ ih | call _ _ ih =>
    rw [Work.run, Run.outcome_attempt_bind]
    exact ih _ (hw _) _

/-- What comes after an attempt decides. -/
theorem fails_attempt_bind {f : Except Error α → Work β} (hf : ∀ r, (f r).Fails cut) (w : Work α) :
    (w.attempt >>= f).Fails cut := by
  show (w.attempt.bind f).Fails cut
  induction w with
  | done r => exact hf r
  | step _ _ ih | locate _ _ _ ih | call _ _ ih => exact ih

/-- What comes after a step that does not fail decides. -/
theorem fails_lift_bind {x : Run α} (hx : ∀ s, ∃ a, x.outcome s = .ok a) {f : α → Work β}
    (hf : ∀ a, (f a).Fails cut) : (lift x >>= f).Fails cut := by
  intro s
  obtain ⟨a, ha⟩ := hx s
  show Fails cut ((done (x.outcome s)).bind f)
  rw [ha]
  exact hf a

end Work

/-- A native that fails so whatever it is answered fails so. -/
theorem Program.Fails.work {cut : Error → Prop} {p : Program} (hp : p.Fails cut) :
    p.work.Fails cut := by
  induction p with
  | done result => exact hp
  | eval script next ih => exact Work.fails_attempt_bind (fun r => ih _ (hp _)) _
  | invoke argv next ih => exact Work.fails_attempt_bind (fun r => ih _ (hp _)) _
  | create path next ih => exact Work.fails_attempt_bind (fun r => ih _ (hp _)) _
  | addPart path name summary tag body next _ ih =>
    exact Work.fails_attempt_bind (fun r => ih _ (hp _)) _
  | ask q next ih => exact Work.fails_lift_bind (fun s => ⟨_, rfl⟩) fun r => ih _ (hp _)
  | delete name next ih =>
    refine Work.fails_lift_bind (fun s => ?_) fun r => ih _ (hp _)
    rw [Run.delete, Run.outcome_edit]
    unfold Catalog.delete
    split <;> exact ⟨_, rfl⟩
  | register name tag body next _ ih =>
    refine Work.fails_lift_bind (fun s => ?_) fun r => ih _ (hp _)
    show ∃ a, (Run.edit (·.put name _)).outcome _ = .ok a
    rw [Run.outcome_edit]
    unfold Catalog.put
    split <;> exact ⟨_, rfl⟩

end Ensembles
