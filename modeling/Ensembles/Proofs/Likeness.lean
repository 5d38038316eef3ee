import Ensembles.Proofs.LettingOut
import Ensembles.Proofs.Provenance
import Ensembles.Proofs.Reachable

/-!
# Runs from like states

Two runs of the same task are compared, from two states of which one is like the other and with
two ways of running the tasks below. `State.Likeness` says, for any relation between states, what
it takes for the work of a level to respect it: from related states it takes the same steps, and
these leave related states again (`Work.Respects`). Then the two runs come to the same if the tasks
below do (`Work.Respects.matches_run`). An error for which `cut` holds may come out of a task below
in the first run only, as far as natives let it out again; then the first run ends with such an
error.

* `Task.matches_run`: the runs of a task match if those of the tasks below do. What is outside a
  procedure and what is inside may be related in different ways (`State.Nesting`).
* `matches_perform`: so the runs within a number of levels match. Those within more levels do as
  well if `cut` holds of the error of a task that finds no level left.
* `State.nesting_same`: a relation of this kind is that of each state to itself, and so on with the
  number of procedures that are running.
-/

namespace Ensembles

variable {α β γ : Type}

/-! ## Relations between states -/

/-- What the steps of a level need of a relation between states: it holds of states with the same
catalogue and the same variables in sight, and goes on to hold when both are changed alike.
Natives let out the errors for which `cut` holds, with any notes. -/
structure State.Likeness (cut : Error → Prop) (R : State → State → Prop) : Prop where
  note {e : Error} (n : Note) : cut e → cut (e.note n)
  catalog {s t : State} : R s t → s.catalog = t.catalog
  received {s t : State} : R s t → s.received = t.received
  get? {s t : State} : R s t → ∀ name, s.get? name = t.get? name
  natives {s t : State} : R s t → ∀ h ∈ s.catalog.natives, h.native.LetsOut cut
  set {s t : State} : R s t → ∀ name value, R (s.set name value) (t.set name value)
  put {s t : State} : R s t → ∀ line, R (s.put line) (t.put line)
  receive {s t : State} : R s t →
    R { s with received := s.received + 1 } { t with received := t.received + 1 }
  edited {s t : State} : R s t → ∀ c : Catalog, (∀ h ∈ c.natives, h.native.LetsOut cut) →
    R { s with catalog := c } { t with catalog := c }
  letGo {s t : State} : R s t → ∀ h, R (s.letGo h) (t.letGo h)
  beginCall {s t : State} : R s t → ∀ h, R (s.beginCall h) (t.beginCall h)
  endCall {s t : State} : R s t → ∀ h, R (s.endCall h) (t.endCall h)
  answer {s t : State} : R s t → ∀ q, (s.answer q).1 = (t.answer q).1 ∧
    R (s.answer q).2 (t.answer q).2

/-- Relations of that kind, one of which holds inside a procedure where another one holds outside
it. -/
structure State.Nesting {ι : Type} (cut : Error → Prop) (R : ι → State → State → Prop) : Prop where
  like (i : ι) : State.Likeness cut (R i)
  frame {i : ι} {s t : State} : R i s t → ∃ j,
    (∀ scope, R j (s.enter scope) (t.enter scope)) ∧ ∀ s' t', R j s' t' → R i s'.leave t'.leave

/-- From related states the computation comes to the same and leaves related states. -/
def Run.Respects (R : State → State → Prop) (x : Run α) : Prop :=
  ∀ s t, R s t → x.outcome s = x.outcome t ∧ R (x.after s) (x.after t)

/-- From related states the computations come to the same and leave related states, unless the
first one fails with an error for which `cut` holds. -/
def Run.Matches (R : State → State → Prop) (cut : Error → Prop) (x y : Run α) : Prop :=
  ∀ s t, R s t → (∃ e, x.outcome s = .error e ∧ cut e) ∨
    x.outcome s = y.outcome t ∧ R (x.after s) (y.after t)

namespace Work

/-- From related states the work takes the same steps, and these leave related states. If an error
for which `cut` holds comes out of a task that it starts, it ends with such an error. -/
def Respects (R : State → State → Prop) (cut : Error → Prop) : Work α → Prop
  | .done _ => True
  | .step change next => ∀ s t, R s t →
    R (change s) (change t) ∧ next s = next t ∧ (next s).Respects R cut
  | .locate _ _ next => ∀ r, (next r).Respects R cut
  | .call _ next => (∀ r, (next r).Respects R cut) ∧ ∀ e, cut e → (next (.error e)).Fails cut

end Work

/-! ## Steps of a level -/

namespace Run

variable {R : State → State → Prop} {cut : Error → Prop} {s t : State} {x : Run α} {f : α → Run β}

theorem respects_pure (a : α) : (pure a : Run α).Respects R := fun _ _ h => ⟨rfl, h⟩

theorem respects_throw (e : Error) : (throw e : Run α).Respects R := fun _ _ h => ⟨rfl, h⟩

theorem respects_bind (hx : x.Respects R) (hf : ∀ a, (f a).Respects R) :
    (x >>= f).Respects R := by
  intro s t h
  obtain ⟨ho, ha⟩ := hx s t h
  rw [outcome_bind, outcome_bind, after_bind, after_bind, ho]
  cases x.outcome t with
  | ok a => exact hf a _ _ ha
  | error e => exact ⟨rfl, ha⟩

theorem respects_modify {f : State → State} (hf : ∀ s t, R s t → R (f s) (f t)) :
    (modify f : Run PUnit).Respects R :=
  fun s t h => ⟨rfl, hf s t h⟩

theorem respects_noting (hx : x.Respects R) (n : Note) : (x.noting n).Respects R := by
  intro s t h
  obtain ⟨ho, ha⟩ := hx s t h
  rw [noting, outcome_mapError, outcome_mapError, after_mapError, after_mapError, ho]
  exact ⟨rfl, ha⟩

theorem respects_parse (f : Substitutions) (source : String) : (parse f source).Respects R := by
  intro s t h
  unfold outcome after parse
  cases Script.parse f source <;> exact ⟨rfl, h⟩

section Likeness

variable (hR : State.Likeness cut R)
include hR

theorem respects_ask (f : Catalog → Except Cause α) : (ask f).Respects R := by
  intro s t h
  rw [after_ask, after_ask]
  unfold outcome ask
  rw [hR.catalog h]
  cases f t.catalog <;> exact ⟨rfl, h⟩

theorem respects_readVariable (name : String) : (readVariable name).Respects R := by
  intro s t h
  rw [after_readVariable, after_readVariable]
  unfold outcome readVariable
  rw [hR.get? h]
  cases t.get? name <;> exact ⟨rfl, h⟩

theorem respects_edit {f : Catalog → Edit α}
    (hf : ∀ c : Catalog, (∀ h ∈ c.natives, h.native.LetsOut cut) →
      ∀ h ∈ (f c).catalog.natives, h.native.LetsOut cut) : (edit f).Respects R := by
  intro s t h
  rw [outcome_edit, outcome_edit, after_edit, after_edit, ← hR.catalog h]
  refine ⟨rfl, ?_⟩
  have hfold (freed : List Hosted) (s t : State) (h : R s t) :
      R (freed.foldl State.letGo s) (freed.foldl State.letGo t) := by
    induction freed generalizing s t with
    | nil => exact h
    | cons n freed ih => exact ih _ _ (hR.letGo h n)
  exact hfold _ _ _ (hR.edited h _ (hf _ (hR.natives h)))

theorem respects_receive_bind {n : Native} {f : Hosted → Run α}
    (hf : ∀ serial, (f ⟨serial, n⟩).Respects R) : (receive n >>= f).Respects R := by
  intro s t h
  rw [after_receive_bind, after_receive_bind, ← hR.received h]
  have houtcome (s : State) : (receive n >>= f).outcome s =
      (f ⟨s.received, n⟩).outcome { s with received := s.received + 1 } := rfl
  rw [houtcome, houtcome, ← hR.received h]
  have hnext := hf s.received _ _ (hR.receive h)
  rw [← hR.received h] at hnext
  exact hnext

theorem respects_register (name : String) {n : Native} (hn : n.LetsOut cut) :
    (register name n).Respects R :=
  respects_receive_bind hR fun serial => respects_edit hR fun c hc =>
    (Catalog.forall_natives_iff _).2 <| (c.forall_natives_iff.1 hc).put
      (PartTable.closed_natives _) name fun h hm => by
        rw [List.mem_singleton.1 hm]
        exact hn

theorem respects_addPart (path name : String) (usage : Option String) {n : Native}
    (hn : n.LetsOut cut) : (addPart path name usage n).Respects R :=
  respects_receive_bind hR fun serial => respects_noting (respects_edit hR fun c hc =>
    (Catalog.forall_natives_iff _).2 <| (c.forall_natives_iff.1 hc).addNative
      (PartTable.closed_natives _) path name usage fun h hm => by
        rw [List.mem_singleton.1 hm]
        exact hn) _

theorem respects_inquire (q : Inquiry) : (inquire q).Respects R := fun _ _ h =>
  ⟨congrArg Except.ok (hR.answer h q).1, (hR.answer h q).2⟩

theorem respects_delete (name : String) : (delete name).Respects R :=
  respects_edit hR fun c hc => (Catalog.forall_natives_iff _).2 <|
    (c.forall_natives_iff.1 hc).delete (PartTable.closed_natives _) name

theorem respects_create (path : String) : (create path).Respects R :=
  respects_noting (respects_edit hR fun c hc => (Catalog.forall_natives_iff _).2 <|
    (c.forall_natives_iff.1 hc).create (PartTable.closed_natives _) nofun (fun _ => nofun) path) _

theorem respects_locate (current : Option EnsembleId) (name : String) :
    (locate current name).Respects R := by
  cases current with
  | none =>
    exact respects_edit hR fun c hc => (Catalog.forall_natives_iff _).2 <|
      (c.forall_natives_iff.1 hc).locateTop (PartTable.closed_natives _) nofun name
  | some parent =>
    exact respects_edit hR fun c hc => (Catalog.forall_natives_iff _).2 <|
      (c.forall_natives_iff.1 hc).locateNested (PartTable.closed_natives _) nofun (fun _ => nofun)
        parent name

/-- The declaration of a part depends on the catalogue only. -/
theorem respects_declarePart (id : EnsembleId) (keyword : String) (args : List String) :
    (declarePart id keyword args).Respects R := by
  match args with
  | [] | [_] | [_, _] | _ :: _ :: _ :: _ :: _ => exact respects_throw _
  | [name, spec, body] =>
    intro s t h
    cases hp : Signature.parse spec name with
    | error e =>
      have hd (s : State) : declarePart id keyword [name, spec, body] s =
          .error (.of (.badSignature e)) s := by
        unfold declarePart
        simp only [hp]
      rw [outcome, outcome, after, after, hd, hd]
      exact ⟨rfl, h⟩
    | ok signature =>
      have hc := hR.catalog h
      cases ha : s.catalog.addProcedure id name signature body with
      | error e =>
        have hd (u : State) (hu : u.catalog = s.catalog) :
            declarePart id keyword [name, spec, body] u = .error e u := by
          unfold declarePart
          simp only [hp, hu, ha]
        rw [outcome, outcome, after, after, hd s rfl, hd t hc.symm]
        exact ⟨rfl, h⟩
      | ok c =>
        have hd (u : State) (hu : u.catalog = s.catalog) :
            declarePart id keyword [name, spec, body] u = .ok () { u with catalog := c } := by
          unfold declarePart
          simp only [hp, hu, ha]
        rw [outcome, outcome, after, after, hd s rfl, hd t hc.symm]
        refine ⟨rfl, hR.edited h c ?_⟩
        exact c.forall_natives_iff.2 <| (s.catalog.forall_natives_iff.1 (hR.natives h)).addProcedure
          (PartTable.closed_natives _) ha fun _ _ hn => absurd hn List.not_mem_nil

theorem respects_declareLeaf (id : EnsembleId) (keyword : String) (args : List String) :
    (declareLeaf id keyword args).Respects R := by
  unfold declareLeaf
  split
  · exact respects_declarePart hR id keyword args
  · exact respects_throw _

/-- All builtin commands but `ensemble` do without the levels below. -/
theorem respects_builtin {b : Builtin} (hb : b ≠ .ensemble) (args : List String) :
    (builtin (perform 0) b args).Respects R := by
  unfold builtin
  split
  · exact respects_pure _
  · exact absurd rfl hb
  · exact respects_throw _
  · exact respects_throw _
  · exact respects_pure _
  · exact respects_bind (respects_modify fun _ _ h => hR.put h _) fun _ => respects_pure _
  · exact respects_throw _
  · exact respects_pure _
  · exact respects_pure _
  · exact respects_throw _
  · exact respects_bind (respects_readVariable hR _) fun _ => respects_pure _
  · exact respects_bind (respects_modify fun _ _ h => hR.set h _ _) fun _ => respects_pure _
  · exact respects_throw _

end Likeness

end Run

/-! ## The work of a level -/

namespace Work

variable {R : State → State → Prop} {cut : Error → Prop}

theorem respects_bind {w : Work α} {f : α → Work β} (hw : w.Respects R cut)
    (hf : ∀ a, (f a).Respects R cut) : (w >>= f).Respects R cut := by
  show (w.bind f).Respects R cut
  induction w with
  | done r =>
    cases r with
    | ok a => exact hf a
    | error e => trivial
  | step _ _ ih => exact fun s t h => ⟨(hw s t h).1, congrArg (·.bind f) (hw s t h).2.1,
      ih s (hw s t h).2.2⟩
  | locate _ _ _ ih => exact fun r => ih r (hw r)
  | call _ _ ih => exact ⟨fun r => ih r (hw.1 r), fun e he => (hw.2 e he).bind f⟩

theorem respects_pure (a : α) : (pure a : Work α).Respects R cut := trivial

theorem respects_fail (cause : Cause) : (fail cause : Work α).Respects R cut := trivial

theorem respects_map {w : Work α} (hw : w.Respects R cut) (f : α → β) :
    (f <$> w).Respects R cut := by
  rw [map_eq_pure_bind]
  exact respects_bind hw fun _ => respects_pure _

theorem respects_lift {x : Run α} (hx : x.Respects R) : (lift x).Respects R cut :=
  fun s t h => ⟨(hx s t h).2, congrArg done (hx s t h).1, trivial⟩

theorem respects_read {f : State → Work α}
    (hf : ∀ s t, R s t → f s = f t ∧ (f s).Respects R cut) : (read f).Respects R cut :=
  fun s t h => ⟨h, hf s t h⟩

theorem respects_task (t : Task) : (task t).Respects R cut :=
  ⟨fun _ => trivial, fun e he => ⟨e, rfl, he⟩⟩

theorem respects_mapError {w : Work α} (hw : w.Respects R cut) {f : State → Error → Error}
    (hf : ∀ s t, R s t → f s = f t) (hcut : ∀ s e, cut e → cut (f s e)) :
    (w.mapError f).Respects R cut := by
  induction w with
  | done r =>
    cases r with
    | ok a => trivial
    | error e => exact respects_read fun s t h => ⟨by rw [hf s t h], trivial⟩
  | step _ _ ih => exact fun s t h => ⟨(hw s t h).1, congrArg (·.mapError f) (hw s t h).2.1,
      ih s (hw s t h).2.2⟩
  | locate _ _ _ ih => exact fun r => ih r (hw r)
  | call _ _ ih => exact ⟨fun r => ih r (hw.1 r), fun e he => (hw.2 e he).mapError hcut⟩

theorem respects_followedBy {w : Work α} (hw : w.Respects R cut) {leave : State → State}
    (hl : ∀ s t, R s t → R (leave s) (leave t)) : (w.followedBy leave).Respects R cut := by
  induction w with
  | done r => exact fun s t h => ⟨hl s t h, rfl, trivial⟩
  | step _ _ ih => exact fun s t h => ⟨(hw s t h).1, congrArg (·.followedBy leave) (hw s t h).2.1,
      ih s (hw s t h).2.2⟩
  | locate _ _ _ ih => exact fun r => ih r (hw r)
  | call _ _ ih => exact ⟨fun r => ih r (hw.1 r), fun e he => (hw.2 e he).followedBy leave⟩

theorem respects_between {w : Work α} (hw : w.Respects R cut) {enter leave : State → State}
    (he : ∀ s t, R s t → R (enter s) (enter t)) (hl : ∀ s t, R s t → R (leave s) (leave t)) :
    (w.between enter leave).Respects R cut :=
  fun s t h => ⟨he s t h, rfl, respects_followedBy hw hl⟩

/-- Where an outcome is looked at, the errors that are let out have to be let out again. -/
theorem respects_attempt_bind {w : Work α} {f : Except Error α → Work β} (hw : w.Respects R cut)
    (hf : ∀ r, (f r).Respects R cut) (hcut : ∀ e, cut e → (f (.error e)).Fails cut) :
    (w.attempt >>= f).Respects R cut := by
  show (w.attempt.bind f).Respects R cut
  induction w with
  | done r => exact hf r
  | step _ _ ih => exact fun s t h => ⟨(hw s t h).1,
      congrArg (fun w => w.attempt.bind f) (hw s t h).2.1, ih s (hw s t h).2.2⟩
  | locate _ _ _ ih => exact fun r => ih r (hw r)
  | call _ _ ih => exact ⟨fun r => ih r (hw.1 r), fun e he => (hw.2 e he).attempt_bind hcut⟩

/-- No task is started by a single step, so it is no matter which errors come out of it. -/
theorem respects_attempt_lift_bind {x : Run α} {f : Except Error α → Work β} (hx : x.Respects R)
    (hf : ∀ r, (f r).Respects R cut) : ((lift x).attempt >>= f).Respects R cut :=
  fun s t h => ⟨(hx s t h).2, congrArg f (hx s t h).1, hf _⟩

theorem respects_mapM {f : γ → Work β} (hf : ∀ c, (f c).Respects R cut) (l : List γ) :
    (l.mapM f).Respects R cut := by
  induction l with
  | nil => exact respects_pure _
  | cons c l ih =>
    rw [List.mapM_cons]
    exact respects_bind (hf c) fun b => respects_bind ih fun bs => respects_pure _

theorem respects_forM {f : γ → Work PUnit} (hf : ∀ c, (f c).Respects R cut) (l : List γ) :
    (l.forM f).Respects R cut := by
  induction l with
  | nil => exact respects_pure _
  | cons c l ih => exact respects_bind (hf c) fun _ => ih

theorem respects_eval (source : String) : (eval source).Respects R cut :=
  respects_bind (respects_lift (Run.respects_parse _ _)) fun _ => respects_task _

theorem respects_declareBody (id : EnsembleId) (body : String) :
    (declareBody id body).Respects R cut :=
  respects_bind (respects_lift (Run.respects_parse _ _)) fun _ => respects_map (respects_task _) _

theorem respects_ensemble (current : Option EnsembleId) (name : String) :
    (ensemble current name).Respects R cut :=
  fun _ => trivial

end Work

section Likeness

variable {R : State → State → Prop} {cut : Error → Prop} (hR : State.Likeness cut R)
include hR

theorem State.Likeness.traced {e : Error} (he : cut e) (command : String) :
    cut (e.traced command) := hR.note _ he

namespace Work

theorem respects_expandPiece (p : Piece) : (expandPiece p).Respects R cut := by
  cases p with
  | text s => exact respects_pure s
  | var name => exact respects_lift (Run.respects_readVariable hR name)
  | script source => exact respects_bind (respects_eval source) fun _ => respects_pure _

theorem respects_expand (w : Word) : (expand w).Respects R cut :=
  respects_bind (respects_mapM (respects_expandPiece hR) _) fun _ => respects_pure _

theorem respects_declareEnsemble (current : Option EnsembleId) (args : List String) :
    (declareEnsemble current args).Respects R cut := by
  fun_induction declareEnsemble current args with
  | case1 => exact respects_fail _
  | case2 current name => exact respects_map (respects_ensemble current name) _
  | case3 current name body =>
    exact respects_bind (respects_ensemble current name) fun id => respects_declareBody id body
  | case4 current name keyword args _ ih =>
    refine respects_bind (respects_ensemble current name) fun id => ?_
    split
    · exact ih id
    · exact respects_lift (Run.respects_declareLeaf hR id keyword args)

theorem respects_declare (id : EnsembleId) (words : List String) :
    (declare id words).Respects R cut := by
  unfold declare
  split
  · exact respects_pure _
  · split
    · exact respects_declareEnsemble hR _ _
    · exact respects_lift (Run.respects_declareLeaf hR _ _ _)

theorem respects_declareAll (id : EnsembleId) (commands : List Command) :
    (declareAll id commands).Respects R cut :=
  respects_forM (fun _ => respects_mapError (respects_declare hR id _) (fun _ _ _ => rfl)
    fun _ _ he => hR.note _ (hR.traced he _)) commands

end Work

theorem Program.respects_work {p : Program} (hp : p.LetsOut cut) : p.work.Respects R cut := by
  induction p with
  | done result => trivial
  | eval script next ih =>
    exact Work.respects_attempt_bind (Work.respects_eval script) (fun r => ih _ (hp.1 _))
      fun e he => (hp.2 e he).work
  | invoke argv next ih =>
    exact Work.respects_attempt_bind (Work.respects_task _) (fun r => ih _ (hp.1 _))
      fun e he => (hp.2 e he).work
  | delete name next ih =>
    exact Work.respects_bind (Work.respects_lift (Run.respects_delete hR name)) fun r => ih _ (hp r)
  | create path next ih =>
    exact Work.respects_attempt_lift_bind (Run.respects_create hR path) fun r => ih _ (hp r)
  | ask q next ih =>
    exact Work.respects_bind (Work.respects_lift (Run.respects_inquire hR q)) fun r => ih _ (hp r)
  | addPart path name summary tag body next _ ih =>
    exact Work.respects_attempt_lift_bind (Run.respects_addPart hR path name summary hp.1)
      fun r => ih _ (hp.2 r)
  | register name tag body next _ ih =>
    exact Work.respects_bind (Work.respects_lift (Run.respects_register hR name hp.1))
      fun r => ih _ (hp.2 r)

theorem Hosted.respects_work {h : Hosted} (hh : h.native.LetsOut cut) (argv : List String) :
    (h.work argv).Respects R cut :=
  Work.respects_between (Program.respects_work hR (hh argv)) (fun _ _ hst => hR.beginCall hst h)
    fun _ _ hst => hR.endCall hst h

namespace Work

theorem respects_callPart (id : EnsembleId) (part : String) {handler : Handler}
    (hh : ∀ h, handler = .native h → h.native.LetsOut cut) (args : List String) :
    (callPart id part handler args).Respects R cut := by
  cases handler with
  | native h => exact Hosted.respects_work hR (hh h rfl) _
  | ensemble command => exact respects_bind (respects_task _) fun _ => respects_pure _
  | procedure p =>
    unfold callPart
    simp only
    cases p.signature.bind args with
    | none => exact respects_lift (Run.respects_ask hR _)
    | some bindings =>
      exact respects_bind (respects_lift (Run.respects_parse _ _)) fun _ =>
        respects_bind (respects_task _) fun _ => respects_pure _

theorem respects_callNotedPart (id : EnsembleId) (part : String) {handler : Handler}
    (hh : ∀ h, handler = .native h → h.native.LetsOut cut) (args : List String) :
    (callNotedPart id part handler args).Respects R cut :=
  respects_mapError (respects_callPart hR id part hh args)
    (fun s t h => by rw [hR.catalog h]) fun _ _ he => hR.note _ he

theorem respects_select {c : Catalog} (hc : ∀ h ∈ c.natives, h.native.LetsOut cut) {e : Ensemble}
    (he : e ∈ c.registry.ensembles) (word : String) (args : List String) :
    (select e word args).Respects R cut := by
  unfold select
  split
  · rename_i p hp
    have hm := PartTable.mem_of_resolve hp
    exact respects_callNotedPart hR _ _ (fun h hh => hc h (Run.mem_natives_of_part he hm hh)) _
  · split
    · rename_i p hp
      have hm := (PartTable.find?_mem hp).1
      exact respects_callNotedPart hR _ _ (fun h hh => hc h (Run.mem_natives_of_part he hm hh)) _
    · exact respects_lift (Run.respects_ask hR _)

theorem respects_dispatch (command : Handle) (argv : List String) :
    (dispatch command argv).Respects R cut := by
  refine respects_read fun s t h => ⟨by rw [hR.catalog h], ?_⟩
  split
  · exact respects_fail _
  · rename_i hb
    exact respects_select hR (hR.natives h) (Registry.mem_of_bound? hb) _ _
  · exact respects_fail _

theorem respects_builtin (b : Builtin) (args : List String) : (builtin b args).Respects R cut := by
  unfold builtin
  split
  · exact respects_bind (respects_declareEnsemble hR none _) fun _ => respects_pure _
  · rename_i hb
    exact respects_lift (Run.respects_builtin hR hb args)

theorem respects_invoke (argv : List String) : (invoke argv).Respects R cut := by
  cases argv with
  | nil => exact respects_pure _
  | cons name args =>
    refine respects_read fun s t h => ⟨by rw [hR.catalog h], ?_⟩
    split
    · exact respects_fail _
    · exact respects_builtin hR _ _
    · rename_i hf
      have hm := Run.mem_natives_of_command (CommandTable.mem_of_find? hf) rfl
      exact respects_map (Hosted.respects_work hR (hR.natives h _ hm) _) _
    · exact respects_map (respects_dispatch hR _ _) _

theorem respects_evalCommand (c : Command) : (evalCommand c).Respects R cut :=
  respects_bind (respects_mapM (respects_expand hR) _) fun _ => respects_invoke hR _

theorem respects_evalCommands (blame : Command → Error → Error)
    (hb : ∀ c e, cut e → cut (blame c e)) (last : Completion) (commands : List Command) :
    (evalCommands blame last commands).Respects R cut := by
  induction commands generalizing last with
  | nil => exact respects_pure last
  | cons c commands ih =>
    refine respects_bind (respects_mapError (respects_evalCommand hR c) (fun _ _ _ => rfl)
      fun _ _ he => hb c _ (hR.traced he _)) fun done => ?_
    cases done with
    | normal value => exact ih _
    | returned value => exact respects_pure _

end Work

end Likeness

/-! ## Runs -/

section Runs

variable {R : State → State → Prop} {cut : Error → Prop} {deeper deeper' : Deeper}

/-- The runs of work that respects a relation match if those of the tasks below do. -/
theorem Work.Respects.matches_run (hR : State.Likeness cut R) {w : Work α} (hw : w.Respects R cut)
    (hd : ∀ t, (deeper t).Matches R cut (deeper' t)) :
    (w.run deeper).Matches R cut (w.run deeper') := by
  intro s t h
  induction w generalizing s t with
  | done r =>
    right
    simp only [run, Run.outcome_conclude, Run.after_conclude]
    exact ⟨trivial, h⟩
  | step change next ih =>
    obtain ⟨hc, hn, hw⟩ := hw s t h
    have hs := ih s hw (change s) (change t) hc
    rw [hn] at hs
    show (∃ e, ((next s).run deeper).outcome (change s) = .error e ∧ cut e) ∨
      ((next s).run deeper).outcome (change s) = ((next t).run deeper').outcome (change t) ∧
        R (((next s).run deeper).after (change s)) (((next t).run deeper').after (change t))
    rwa [hn]
  | locate current name next ih =>
    obtain ⟨ho, ha⟩ := Run.respects_locate hR current name s t h
    simp only [run, Run.outcome_attempt_bind, Run.after_attempt_bind, ho]
    exact ih _ (hw _) _ _ ha
  | call task next ih =>
    simp only [run, Run.outcome_attempt_bind, Run.after_attempt_bind]
    obtain ⟨e, he, hcut⟩ | ⟨ho, ha⟩ := hd task s t h
    · rw [he]
      exact .inl ((hw.2 e hcut).run _)
    · rw [ho]
      exact ih _ (hw.1 _) _ _ ha

theorem Interpreter.evalEachOf_cons (onResult : String → State → State) (c : Command)
    (cs : List Command) (s : State) :
    evalEachOf deeper onResult (c :: cs) s =
      let x := Run.evalCommands deeper (fun _ e => e) (.normal "") [c]
      match x.outcome s with
      | .error e => (⟨[], some e⟩, x.after s)
      | .ok done =>
        let (t, s') := evalEachOf deeper onResult cs (onResult done.value (x.after s))
        ({ t with results := done.value :: t.results }, s') := by
  unfold Run.outcome Run.after
  rw [evalEachOf]
  split <;> rename_i h <;> simp only [h]

/-- Runs command by command match if what is told the results keeps to the relation. -/
theorem Interpreter.evalEachOf_matches (hR : State.Likeness cut R)
    (hd : ∀ t, (deeper t).Matches R cut (deeper' t)) {onResult : String → State → State}
    (hr : ∀ result s t, R s t → R (onResult result s) (onResult result t)) (commands : List Command)
    {s t : State} (h : R s t) :
    let x := evalEachOf deeper onResult commands s
    let y := evalEachOf deeper' onResult commands t
    (∃ e, x.1.error = some e ∧ cut e) ∨ x.1 = y.1 ∧ R x.2 y.2 := by
  induction commands generalizing s t with
  | nil => exact .inr ⟨rfl, h⟩
  | cons c commands ih =>
    have hc := (Work.respects_evalCommands hR (fun _ e => e) (fun _ _ => id) (.normal "")
      [c]).matches_run hR hd s t h
    rw [Work.run_evalCommands, Work.run_evalCommands] at hc
    rw [evalEachOf_cons, evalEachOf_cons]
    obtain ⟨e, he, hcut⟩ | ⟨ho, ha⟩ := hc
    · simp only [he]
      exact .inl ⟨e, rfl, hcut⟩
    · simp only [ho]
      cases hd : (Run.evalCommands deeper' (fun _ e => e) (.normal "") [c]).outcome t with
      | error e => exact .inr ⟨rfl, ha⟩
      | ok done =>
        obtain ⟨e, he, hcut⟩ | ⟨ht, hs⟩ := ih (hr done.value _ _ ha)
        · exact .inl ⟨e, he, hcut⟩
        · simp only [ht]
          exact .inr ⟨trivial, hs⟩

end Runs

section Frames

variable {ι : Type} {R : ι → State → State → Prop} {cut : Error → Prop} {deeper deeper' : Deeper}
  {levels levels' : Nat}

/-- The runs of a task match if those of the tasks below do. -/
theorem Task.matches_run (hR : State.Nesting cut R)
    (hd : ∀ i t, (deeper t).Matches (R i) cut (deeper' t)) (i : ι) (t : Task) :
    (t.run deeper).Matches (R i) cut (t.run deeper') := by
  rw [← Task.run_work, ← Task.run_work]
  have hwork {w : Work Completion} (hw : w.Respects (R i) cut) :
      (w.run deeper).Matches (R i) cut (w.run deeper') :=
    hw.matches_run (hR.like i) (hd i)
  cases t with
  | script commands => exact hwork (Work.respects_evalCommands (hR.like i) _ (fun _ _ => id) _ _)
  | body id commands =>
    exact hwork (Work.respects_bind (Work.respects_declareAll (hR.like i) _ _) fun _ =>
      Work.respects_pure _)
  | dispatch command argv =>
    exact hwork (Work.respects_bind (Work.respects_dispatch (hR.like i) _ _) fun _ =>
      Work.respects_pure _)
  | invoke argv => exact hwork (Work.respects_invoke (hR.like i) argv)
  | procedure name bindings commands =>
    intro s u h
    obtain ⟨j, henter, hleave⟩ := hR.frame h
    have hbody := (Work.respects_evalCommands (hR.like j)
      (fun c e => e.note (.procedureLine name c.line)) (fun _ _ he => (hR.like j).note _ he)
      (.normal "") commands).matches_run (hR.like j) (hd j) _ _ (henter (.ofBindings bindings))
    simp only [work, ← map_eq_pure_bind, Work.run_map, Work.run_between, Run.outcome_map,
      Run.after_map, Run.outcome_between, Run.after_between]
    obtain ⟨e, he, hcut⟩ | ⟨ho, ha⟩ := hbody
    · rw [he]
      exact .inl ⟨e, rfl, hcut⟩
    · rw [ho]
      exact .inr ⟨rfl, hleave _ _ ha⟩

/-- Within as many levels runs match, and within more of them as well if the error of a task that
finds no level left is let out. -/
theorem matches_perform (hR : State.Nesting cut R)
    (hl : levels = levels' ∨ levels ≤ levels' ∧ cut (.of .nestedTooDeep)) (i : ι) (t : Task) :
    (perform levels t).Matches (R i) cut (perform levels' t) := by
  induction levels generalizing levels' i t with
  | zero =>
    intro s u h
    rcases hl with rfl | ⟨-, hcut⟩
    · exact .inr ⟨rfl, h⟩
    · exact .inl ⟨_, rfl, hcut⟩
  | succ levels ih =>
    cases levels' with
    | zero => omega
    | succ levels' =>
      have hl' : levels = levels' ∨ levels ≤ levels' ∧ cut (.of .nestedTooDeep) :=
        hl.imp Nat.succ.inj fun h => ⟨Nat.le_of_succ_le_succ h.1, h.2⟩
      exact Task.matches_run hR (fun i t => ih hl' i t) i t

end Frames

/-! ## One state on both sides -/

namespace State

variable {cut : Error → Prop}

theorem length_locals_set (s : State) (name value : String) :
    (s.set name value).locals.length = s.locals.length := by
  unfold set
  split
  · rename_i hl
    simp only [hl, List.length_cons]
  · rfl

/-- The two states are one, with the variables of `n` procedures, and the natives that it owns let
out the errors for which `cut` holds. -/
structure Same (cut : Error → Prop) (n : Nat) (s t : State) : Prop where
  eq : s = t
  length : s.locals.length = n
  natives : ∀ h ∈ s.catalog.natives, h.native.LetsOut cut

theorem Same.refl {s : State} (hs : ∀ h ∈ s.catalog.natives, h.native.LetsOut cut) :
    Same cut s.locals.length s s :=
  ⟨rfl, rfl, hs⟩

theorem nesting_same (hcut : ∀ e n, cut e → cut (e.note n)) : Nesting cut (Same cut) where
  like n := {
    note := hcut _
    catalog := fun h => congrArg _ h.eq
    received := fun h => congrArg _ h.eq
    get? := fun h name => congrArg (·.get? name) h.eq
    natives := fun h => h.natives
    set := by
      rintro s _ ⟨rfl, hn, hs⟩ name value
      refine ⟨rfl, (s.length_locals_set name value).trans hn, ?_⟩
      rwa [catalog_set]
    put := by
      rintro s _ ⟨rfl, hn, hs⟩ line
      exact ⟨rfl, hn, hs⟩
    receive := by
      rintro s _ ⟨rfl, hn, hs⟩
      exact ⟨rfl, hn, hs⟩
    edited := by
      rintro s _ ⟨rfl, hn, -⟩ c hc
      exact ⟨rfl, hn, hc⟩
    letGo := by
      rintro s _ ⟨rfl, hn, hs⟩ h
      obtain ⟨orphans, released, hl⟩ := s.letGo_eq h
      rw [hl]
      exact ⟨rfl, hn, hs⟩
    beginCall := by
      rintro s _ ⟨rfl, hn, hs⟩ h
      exact ⟨rfl, hn, hs⟩
    endCall := by
      rintro s _ ⟨rfl, hn, hs⟩ h
      obtain ⟨calling, orphans, released, he⟩ := s.endCall_eq h
      rw [he]
      exact ⟨rfl, hn, hs⟩
    answer := by
      rintro s _ ⟨rfl, hn, hs⟩ q
      obtain ⟨_, _, _, _, ha⟩ := s.answer_eq q
      rw [ha]
      exact ⟨rfl, rfl, hn, hs⟩ }
  frame {n s _} h := by
    obtain ⟨rfl, rfl, hs⟩ := h
    refine ⟨s.locals.length + 1, fun scope => ⟨rfl, rfl, hs⟩, ?_⟩
    rintro s' _ ⟨rfl, hn, hs'⟩
    refine ⟨rfl, ?_, hs'⟩
    rw [leave, List.length_tail, hn, Nat.add_sub_cancel]

/-- Nothing has to be known of natives if no errors are let out. -/
theorem same_never (s : State) : Same Error.Never s.locals.length s s :=
  .refl fun h _ => h.native.letsOut_never

theorem nesting_never : Nesting Error.Never (Same Error.Never) := nesting_same fun _ _ => id

end State

/-- What respects the number of procedures does not change it. -/
theorem Run.Respects.length_locals {x : Run α} {s : State}
    (hx : x.Respects (State.Same Error.Never s.locals.length)) :
    (x.after s).locals.length = s.locals.length :=
  (hx s s s.same_never).2.length

end Ensembles
