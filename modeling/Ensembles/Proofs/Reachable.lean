import Ensembles.Proofs.CatalogGrowth
import Ensembles.Proofs.Runs

/-!
# Reachable interpreters

An interpreter is reachable if a host gets to it from a new one by the operations it has, or
if a native that is called on the way finds it. `Interpreter.Reachable.induct` is how facts
about reachable interpreters are shown: from the steps of `State.Reaches`. For facts about
catalogues it is enough that the operations on catalogues preserve them
(`Catalog.Preserved`, `Interpreter.Reachable.catalog`). In particular the catalogue of a
reachable interpreter is well formed (`Interpreter.Reachable.wf`).
-/

namespace Ensembles

/-- The states that a run comes through on its way, those inside procedures and calls of
natives included. -/
inductive State.Passes : State → State → Prop where
  | reaches {s t : State} : s.Reaches t → Passes s t
  | enter {s t u : State} (scope : Scope) : s.Reaches t → Passes (t.enter scope) u → Passes s u
  | call {s t u : State} {h : Hosted} :
    s.Reaches t → h ∈ t.atHand → Passes (t.beginCall h) u → Passes s u

namespace Interpreter

/-- The interpreters that a host or a native can have before it; private names lie under
`root`. -/
inductive Reachable (root : String) : Interpreter → Prop where
  | new (limit : Nat) : Reachable root (new root limit)
  | eval {i : Interpreter} (script : String) : Reachable root i → Reachable root (i.eval script).2
  /-- What is told a result has no way to the interpreter. -/
  | evalEach {i : Interpreter} {onResult : String → State → State} (script : String) :
    (∀ (result : String) (s : State), s.Alone (onResult result s)) →
      Reachable root i → Reachable root (i.evalEach onResult script).2
  | invoke {i : Interpreter} (argv : List String) :
    Reachable root i → Reachable root (i.invoke argv).2
  | register {i : Interpreter} (name : String) (n : Native) :
    Reachable root i → Reachable root (i.register name n).2
  | delete {i : Interpreter} (name : String) : Reachable root i → Reachable root (i.delete name).2
  | create {i : Interpreter} (path : String) : Reachable root i → Reachable root (i.create path).2
  | addPart {i : Interpreter} (path name : String) (summary : Option String) (n : Native) :
    Reachable root i → Reachable root (i.addPart path name summary n).2
  | ask {i : Interpreter} (q : Inquiry) : Reachable root i → Reachable root (i.ask q).2
  | callKept {i : Interpreter} (serial : Nat) (argv : List String) :
    Reachable root i → Reachable root (i.callKept serial argv).2
  | callPart {i : Interpreter} (path word : String) (argv : List String) :
    Reachable root i → Reachable root (i.callPart path word argv).2
  /-- In the middle of a run, with some of the levels taken up. -/
  | amid {i : Interpreter} {levels : Nat} {s : State} :
    Reachable root i → levels ≤ i.limit → i.state.Passes s → Reachable root ⟨levels, s⟩

variable {i : Interpreter} {α : Type}

/-! ## Operations of the host -/

theorem state_run (i : Interpreter) (x : Run α) : (i.run x).2.state = x.after i.state := by
  unfold run Run.after
  cases x i.state <;> rfl

theorem reaches_run {x : Run α} (hx : x.Steps) : i.state.Reaches (i.run x).2.state :=
  (state_run i x).symm ▸ hx i.state

theorem reaches_eval (script : String) : i.state.Reaches (i.eval script).2.state :=
  reaches_run (Run.steps_bind (Run.steps_eval (Run.steps_perform i.limit) script) fun _ =>
    Run.steps_pure _)

theorem reaches_invoke (argv : List String) : i.state.Reaches (i.invoke argv).2.state :=
  reaches_run (Run.steps_bind (Run.steps_perform i.limit _) fun _ => Run.steps_pure _)

theorem reaches_evalEachOf {deeper : Deeper} (hd : ∀ t, (deeper t).Steps)
    {onResult : String → State → State}
    (hr : ∀ (result : String) (s : State), s.Alone (onResult result s))
    (commands : List Command) (s : State) :
    s.Reaches (evalEachOf deeper onResult commands s).2 := by
  induction commands generalizing s with
  | nil => exact .refl s
  | cons c commands ih =>
    have hc := Run.steps_evalCommands hd (fun _ e => e) (.normal "") [c] s
    unfold Run.after at hc
    rw [evalEachOf]
    cases h : Run.evalCommands deeper (fun _ e => e) (.normal "") [c] s with
    | error e t =>
      rw [h] at hc
      exact hc
    | ok done t =>
      rw [h] at hc
      exact (hc.trans (hr done.value t).reaches).trans (ih _)

theorem reaches_evalEach {onResult : String → State → State}
    (hr : ∀ (result : String) (s : State), s.Alone (onResult result s)) (script : String) :
    i.state.Reaches (i.evalEach onResult script).2.state := by
  unfold evalEach
  split
  · exact .refl _
  · exact reaches_evalEachOf (Run.steps_perform i.limit) hr _ _

theorem reaches_ask (q : Inquiry) : i.state.Reaches (i.ask q).2.state := .ask i.state q

theorem reaches_callKept (serial : Nat) (argv : List String) :
    i.state.Reaches (i.callKept serial argv).2.state := by
  unfold callKept
  cases hk : i.state.kept? serial with
  | none => exact .refl _
  | some h =>
    rw [state_run]
    have hm := State.mem_atHand_of_kept? hk
    exact Run.reaches_map (Run.reaches_call (Run.steps_perform i.limit) hm argv)

theorem reaches_callPart (path word : String) (argv : List String) :
    i.state.Reaches (i.callPart path word argv).2.state := by
  have hask := i.reaches_ask (.part path word)
  unfold callPart
  split
  · rename_i hp
    rwa [hp] at hask
  · rename_i serial j hp
    rw [hp] at hask
    exact (hask.trans (j.reaches_callKept serial argv)).trans (reaches_ask (.drop serial))
  · rename_i hp
    rwa [hp] at hask

namespace Reachable

variable {root : String}

/-- What holds of a new interpreter, and is preserved by the steps of runs and on the way
into procedures and natives, holds of every reachable interpreter. -/
theorem induct {P : State → Prop} (hnew : P (.initial root))
    (hreaches : ∀ s t : State, s.Reaches t → P s → P t)
    (henter : ∀ (s : State) (scope : Scope), P s → P (s.enter scope))
    (hcall : ∀ (s : State) (h : Hosted), h ∈ s.atHand → P s → P (s.beginCall h))
    (hi : Reachable root i) : P i.state := by
  have hpasses {s t : State} (hst : s.Passes t) (hs : P s) : P t := by
    induction hst with
    | reaches hr => exact hreaches _ _ hr hs
    | enter scope hr _ ih => exact ih (henter _ scope (hreaches _ _ hr hs))
    | call hr hm _ ih => exact ih (hcall _ _ hm (hreaches _ _ hr hs))
  induction hi with
  | new limit => exact hnew
  | eval script _ ih => exact hreaches _ _ (reaches_eval script) ih
  | evalEach script hr _ ih => exact hreaches _ _ (reaches_evalEach hr script) ih
  | invoke argv _ ih => exact hreaches _ _ (reaches_invoke argv) ih
  | register name n _ ih => exact hreaches _ _ (reaches_run fun s => .register s name n) ih
  | delete name _ ih => exact hreaches _ _ (reaches_run fun s => .delete s name) ih
  | create path _ ih => exact hreaches _ _ (reaches_run fun s => .create s path) ih
  | addPart path name summary n _ ih =>
    exact hreaches _ _ (reaches_run fun s => .addPart s path name summary n) ih
  | ask q _ ih => exact hreaches _ _ (reaches_ask q) ih
  | callKept serial argv _ ih => exact hreaches _ _ (reaches_callKept serial argv) ih
  | callPart path word argv _ ih => exact hreaches _ _ (reaches_callPart path word argv) ih
  | amid _ _ hp ih => exact hpasses hp ih

end Reachable

end Interpreter

/-! ## Steps on catalogues -/

namespace State

theorem letGo_eq (s : State) (h : Hosted) :
    ∃ orphans released, s.letGo h = { s with orphans, released } := by
  unfold letGo
  split <;> exact ⟨_, _, rfl⟩

theorem settle_of_inUse {s : State} {serial : Nat} (h : s.InUse serial) : s.settle serial = s :=
  if_pos h

theorem settle_of_not_inUse {s : State} {serial : Nat} (h : ¬ s.InUse serial) :
    s.settle serial = { s with
      orphans := s.orphans.filter (·.serial ≠ serial)
      released := s.released ++ s.orphans.filter (·.serial = serial) } := by
  rw [settle, if_neg h]
  simp only [List.partition_eq_filter_filter, decide_not]
  rfl

theorem settle_eq (s : State) (serial : Nat) :
    ∃ orphans released, s.settle serial = { s with orphans, released } := by
  unfold settle
  split <;> exact ⟨_, _, rfl⟩

theorem endCall_eq (s : State) (h : Hosted) :
    ∃ calling orphans released, s.endCall h = { s with calling, orphans, released } :=
  have ⟨_, _, he⟩ := settle_eq { s with calling := s.calling.erase h.serial } h.serial
  ⟨_, _, _, he⟩

/-- An answer changes nothing of the state but what is kept and remembered. -/
theorem answer_eq (s : State) (q : Inquiry) : ∃ kept orphans released memory,
    (s.answer q).2 = { s with kept, orphans, released, memory } := by
  cases q with
  | part path word =>
    simp only [answer]
    cases s.catalog.part path word with
    | error cause => exact ⟨_, _, _, _, rfl⟩
    | ok handler => cases handler <;> exact ⟨_, _, _, _, rfl⟩
  | copy serial =>
    simp only [answer]
    cases s.kept? serial <;> exact ⟨_, _, _, _, rfl⟩
  | drop serial =>
    obtain ⟨_, _, hd⟩ := settle_eq { s with kept := s.kept.eraseP (·.serial = serial) } serial
    exact ⟨_, _, _, _, hd⟩
  | _ => exact ⟨_, _, _, _, rfl⟩

/-- Natives that are let go wait until they are not in use any more, or are released. -/
theorem foldl_letGo (freed : List Hosted) (s : State) :
    ∃ orphans released, freed.foldl letGo s = { s with orphans, released } := by
  induction freed generalizing s with
  | nil => exact ⟨_, _, rfl⟩
  | cons h freed ih =>
    obtain ⟨orphans, released, hf⟩ := ih (s.letGo h)
    obtain ⟨_, _, hl⟩ := s.letGo_eq h
    refine ⟨orphans, released, ?_⟩
    rw [List.foldl_cons, hf, hl]

theorem catalog_set (s : State) (name value : String) : (s.set name value).catalog = s.catalog := by
  unfold set
  split <;> rfl

theorem catalog_endCall (s : State) (h : Hosted) : (s.endCall h).catalog = s.catalog := by
  obtain ⟨_, _, _, he⟩ := s.endCall_eq h
  rw [he]

/-- Without the interpreter nothing is changed but what is written, kept and remembered. -/
theorem Alone.eq {s t : State} (h : s.Alone t) : ∃ output kept orphans released memory,
    t = { s with output, kept, orphans, released, memory } := by
  induction h with
  | refl s | write s output | remember s memory => exact ⟨_, _, _, _, _, rfl⟩
  | trans _ _ ih₁ ih₂ =>
    obtain ⟨_, _, _, _, _, rfl⟩ := ih₁
    obtain ⟨_, _, _, _, _, rfl⟩ := ih₂
    exact ⟨_, _, _, _, _, rfl⟩
  | copy s serial =>
    obtain ⟨_, _, _, _, ha⟩ := s.answer_eq (.copy serial)
    exact ⟨_, _, _, _, _, ha⟩
  | drop s serial =>
    obtain ⟨_, _, _, _, ha⟩ := s.answer_eq (.drop serial)
    exact ⟨_, _, _, _, _, ha⟩

theorem catalog_answer (s : State) (q : Inquiry) : (s.answer q).2.catalog = s.catalog := by
  obtain ⟨_, _, _, _, ha⟩ := s.answer_eq q
  rw [ha]

end State

theorem Run.after_edit {α : Type} (f : Catalog → Edit α) (s : State) :
    (edit f).after s =
      (f s.catalog).freed.foldl State.letGo { s with catalog := (f s.catalog).catalog } := by
  unfold after edit
  simp only
  cases (f s.catalog).outcome <;> rfl

theorem Run.catalog_edit {α : Type} (f : Catalog → Edit α) (s : State) :
    ((edit f).after s).catalog = (f s.catalog).catalog := by
  obtain ⟨orphans, released, hf⟩ :=
    State.foldl_letGo (f s.catalog).freed { s with catalog := (f s.catalog).catalog }
  rw [after_edit, hf]

namespace Run

variable (s : State)

/-- A native given along is received before anything else happens. -/
theorem after_receive_bind {α : Type} (n : Native) (f : Hosted → Run α) :
    (receive n >>= f).after s = (f ⟨s.received, n⟩).after { s with received := s.received + 1 } :=
  rfl

theorem after_register (name : String) (n : Native) :
    (register name n).after s =
      (edit (·.put name (.native ⟨s.received, n⟩))).after
        { s with received := s.received + 1 } := by
  rw [register, after_receive_bind]

theorem after_addPart (path name : String) (usage : Option String) (n : Native) :
    (addPart path name usage n).after s =
      (edit (·.addNative path name usage ⟨s.received, n⟩)).after
        { s with received := s.received + 1 } := by
  rw [addPart, after_receive_bind, noting, after_mapError]

/-- The declaration of a part adds a procedure or leaves the state alone. -/
theorem after_declarePart (id : EnsembleId) (keyword : String) (args : List String) :
    (declarePart id keyword args).after s = s ∨
      ∃ name signature body c, s.catalog.addProcedure id name signature body = .ok c ∧
        (declarePart id keyword args).after s = { s with catalog := c } := by
  match args with
  | [name, spec, body] =>
    cases hp : Signature.parse spec name with
    | error e =>
      have hd : declarePart id keyword [name, spec, body] s =
          .error (.of (.badSignature e)) s := by
        unfold declarePart
        simp only [hp]
      exact .inl (after_of_error hd)
    | ok signature =>
      cases ha : s.catalog.addProcedure id name signature body with
      | error e =>
        have hd : declarePart id keyword [name, spec, body] s = .error e s := by
          unfold declarePart
          simp only [hp, ha]
        exact .inl (after_of_error hd)
      | ok c =>
        have hd : declarePart id keyword [name, spec, body] s = .ok () { s with catalog := c } := by
          unfold declarePart
          simp only [hp, ha]
        exact .inr ⟨name, signature, body, c, ha, after_of_ok hd⟩
  | [] | [_] | [_, _] | _ :: _ :: _ :: _ :: _ => exact .inl rfl

end Run

/-! ## Invariants of catalogues -/

/-- What holds of a catalogue still does after any change that a run or a host makes. -/
structure Catalog.Preserved (P : Catalog → Prop) : Prop where
  put {c : Catalog} (name : String) (h : Hosted) : P c → P (c.put name (.native h)).catalog
  delete {c : Catalog} (name : String) : P c → P (c.delete name).catalog
  locateTop {c : Catalog} (name : String) : P c → P (c.locateTop name).catalog
  locateNested {c : Catalog} (parent : EnsembleId) (name : String) :
    P c → P (c.locateNested parent name).catalog
  addNative {c : Catalog} (path name : String) (usage : Option String) (h : Hosted) :
    P c → P (c.addNative path name usage h).catalog
  addProcedure {c c' : Catalog} {id : EnsembleId} {name body : String} {signature : Signature} :
    c.addProcedure id name signature body = .ok c' → P c → P c'

section Preserved

variable {P : Catalog → Prop}

theorem Catalog.Preserved.create (hP : Preserved P) {c : Catalog} (text : String) (hc : P c) :
    P (c.create text).catalog := by
  unfold Catalog.create
  split
  · exact hc
  · exact hc
  · exact hP.locateTop _ hc
  · split
    · exact hc
    · exact hP.locateNested _ _ hc

theorem State.Reaches.catalog (hP : Catalog.Preserved P) {s t : State} (h : s.Reaches t)
    (hs : P s.catalog) : P t.catalog := by
  induction h with
  | refl s => exact hs
  | trans _ _ ih₁ ih₂ => exact ih₂ (ih₁ hs)
  | set s name value =>
    rw [State.catalog_set]
    exact hs
  | write s output => exact hs
  | register s name n =>
    rw [Run.after_register, Run.catalog_edit]
    exact hP.put name _ hs
  | delete s name =>
    rw [Run.delete, Run.catalog_edit]
    exact hP.delete name hs
  | create s path =>
    rw [Run.create, Run.noting, Run.after_mapError, Run.catalog_edit]
    exact hP.create path hs
  | addPart s path name usage n =>
    rw [Run.after_addPart, Run.catalog_edit]
    exact hP.addNative path name usage _ hs
  | locate s current name =>
    cases current with
    | none =>
      rw [Run.locate, Run.catalog_edit]
      exact hP.locateTop name hs
    | some parent =>
      rw [Run.locate, Run.catalog_edit]
      exact hP.locateNested parent name hs
  | declarePart s id keyword args =>
    obtain ht | ⟨name, signature, body, c, hc, ht⟩ := Run.after_declarePart s id keyword args
    · rw [ht]
      exact hs
    · rw [ht]
      exact hP.addProcedure hc hs
  | ask s q =>
    rw [State.catalog_answer]
    exact hs
  | frame _ ih => exact ih hs
  | call _ _ ih =>
    rw [State.catalog_endCall]
    exact ih hs

/-- What holds of the first catalogue, and is preserved, holds in every reachable
interpreter. -/
theorem Interpreter.Reachable.catalog {root : String} {i : Interpreter} (hP : Catalog.Preserved P)
    (hnew : P (.initial root)) (hi : Reachable root i) : P i.state.catalog :=
  hi.induct (P := fun s => P s.catalog) hnew (fun _ _ h => h.catalog hP) (fun _ _ => id)
    fun _ _ _ => id

end Preserved

theorem Catalog.preserved_wf (root : String) : Catalog.Preserved (Catalog.Wf root) where
  put name _ hw := hw.put name nofun
  delete name hw := hw.delete name
  locateTop name hw := hw.locateTop name
  locateNested parent name hw := hw.locateNested parent name
  addNative path name usage h hw := hw.addNative path name usage h
  addProcedure hc hw := hw.addProcedure hc

/-- In a reachable interpreter commands and ensembles go together. -/
theorem Interpreter.Reachable.wf {root : String} {i : Interpreter} (hi : Reachable root i) :
    i.state.catalog.Wf root :=
  hi.catalog (Catalog.preserved_wf root) (Catalog.wf_initial root)

end Ensembles
