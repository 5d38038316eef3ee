import Ensembles.Proofs.Along
import Ensembles.Proofs.Depth
import Ensembles.Proofs.OwnedNatives
import Ensembles.Proofs.WrittenCommand

/-!
# The limit and the depth of ensembles

The body of an ensemble takes up a level of nesting, so bodies in bodies go only as deep as
the levels do. A single declaration in the place of a body takes up none, and the command of a
nested ensemble is found at the top level under its private name. `Watch.bodies` rules these
two out: nested ensembles are declared in bodies of those that they hang in. Then all
ensembles that scripts declare lie less deep than there are levels
(`Interpreter.lt_limit_of_trail`).
-/

namespace Ensembles

/-- The ensemble whose body the task goes through. -/
def Task.declaring : Task → Option EnsembleId
  | .body id _ => some id
  | _ => none

/-- The command of the name `name` is not that of a nested ensemble. -/
def Catalog.TopLevel (c : Catalog) (name : String) : Prop :=
  ∀ a e, c.commands.find? name = some a → c.registry.bound? a.handle = some e → e.parent = none

/-- Ensembles are declared in a body of the one that they hang in, or at the top level. -/
def Watch.bodies : Watch where
  limit := True
  locate t current name s :=
    current = t.declaring ∧ (current = none → s.catalog.TopLevel name)

namespace State

variable {root name : String} {limit levels : Nat} {id : EnsembleId} {s t : State}
  {current : Option EnsembleId}

/-- No native is owned, and all ensembles lie less than `limit` part names deep. -/
structure Shallow (root : String) (limit : Nat) (s : State) : Prop where
  wf : s.catalog.Wf root
  natives : s.catalog.natives = []
  lt : ∀ id d, s.catalog.registry.Lies id d → d < limit

/-- Below the ensemble, if it is still there, there is room for `levels` more part names. -/
structure Room (limit : Nat) (id : EnsembleId) (levels : Nat) (s : State) : Prop where
  issued : id.number ≤ s.catalog.registry.issued
  lt : ∀ d, s.catalog.registry.Lies id d → d + levels < limit

theorem Shallow.of_catalog (h : s.Shallow root limit) (hc : t.catalog = s.catalog) :
    t.Shallow root limit := by
  refine ⟨?_, ?_, ?_⟩ <;> rw [hc]
  · exact h.wf
  · exact h.natives
  · exact h.lt

/-- A change of the catalogue that makes ensembles where there is room. -/
theorem Shallow.edit {α : Type} {f : Catalog → Edit α} {links : Option ParentLink → Prop}
    (h : s.Shallow root limit) (hw : (f s.catalog).catalog.Wf root)
    (hn : (f s.catalog).Conserves [] s.catalog)
    (hg : s.catalog.registry.GrowsBy links (f s.catalog).catalog.registry)
    (htop : links none → 0 < limit)
    (hpart : ∀ link n, links (some link) → (f s.catalog).catalog.registry.Lies link.ensemble n →
      n + 1 < limit) :
    ((Run.edit f).after s).Shallow root limit := by
  refine ⟨?_, ?_, ?_⟩ <;> rw [Run.catalog_edit]
  · exact hw
  · unfold Edit.Conserves at hn
    rw [List.nil_append, h.natives] at hn
    exact (List.append_eq_nil_iff.1 hn.symm.eq_nil).2
  · intro id d hd
    obtain hd | ⟨hl, rfl⟩ | ⟨link, n, hl, hn, rfl⟩ := hg.lies_cases h.wf.registry hw.registry hd
    · exact h.lt id d hd
    · exact htop hl
    · exact hpart link n hl hn

theorem Shallow.locateTop (h : s.Shallow root limit) (hl : 0 < limit) (name : String) :
    ((Run.locate none name).after s).Shallow root limit :=
  h.edit (f := (·.locateTop name)) (h.wf.locateTop name) (Catalog.conserves_locateTop h.wf name)
    (h.wf.grows_locateTop name) (fun _ => hl) nofun

theorem Shallow.locateNested (h : s.Shallow root limit) (hr : s.Room limit id (levels + 1))
    (name : String) : ((Run.locate (some id) name).after s).Shallow root limit := by
  have hg := h.wf.grows_locateNested id name
  refine h.edit (f := (·.locateNested id name)) (h.wf.locateNested id name)
    (Catalog.conserves_locateNested h.wf id name) hg nofun ?_
  rintro _ n ⟨⟩ hn
  have := hr.lt n (hg.lies_of_le (h.wf.locateNested id name).registry hn hr.issued)
  omega

theorem Room.reaches (hr : s.Room limit id levels) (hw : s.catalog.Wf root) (hst : s.Reaches t) :
    t.Room limit id levels where
  issued := Nat.le_trans hr.issued (hst.grows hw).issued
  lt d hd := by
    have hwt := hst.catalog (Catalog.preserved_wf root) hw
    exact hr.lt d ((hst.grows hw).lies_of_le hwt.registry hd hr.issued)

end State

/-! ## Ensembles found or made -/

namespace Catalog

variable {root name : String} {c : Catalog} {id parent : EnsembleId}

theorem Wf.exists_of_locateTop (hw : c.Wf root) (ht : c.TopLevel name)
    (ho : (c.locateTop name).outcome = .ok id) :
    ∃ e ∈ (c.locateTop name).catalog.registry.ensembles, e.id = id ∧ e.parent = none := by
  unfold Catalog.locateTop at ho ⊢
  cases hf : c.commands.find? name with
  | none =>
    simp only [hw.commands.handleOf?_of_absent hf] at ho ⊢
    unfold Catalog.createTop at ho ⊢
    by_cases hne : name = ""
    · rw [if_pos hne] at ho
      cases ho
    · rw [if_neg hne] at ho ⊢
      exact ⟨_, List.mem_cons_self .., Except.ok.inj ho, rfl⟩
  | some a =>
    simp only [CommandTable.handleOf?_of_find? hf, hw.registry.idOf?_eq] at ho ⊢
    cases hb : c.registry.bound? a.handle with
    | none =>
      rw [hb] at ho
      cases ho
    | some e =>
      rw [hb] at ho
      exact ⟨e, ((Registry.bound?_eq_some_iff hw.registry).1 hb).1, Except.ok.inj ho, ht a e hf hb⟩

theorem Wf.exists_of_locateNested (hw : c.Wf root)
    (ho : (c.locateNested parent name).outcome = .ok id) :
    ∃ e ∈ (c.locateNested parent name).catalog.registry.ensembles,
      e.id = id ∧ e.parent = some ⟨parent, name⟩ := by
  unfold Catalog.locateNested at ho ⊢
  cases hf : (c.registry.get? parent).bind (·.parts.find? name) with
  | none =>
    simp only [hf] at ho ⊢
    have hd := hw.delete (c.registry.privateName parent name)
    obtain ⟨-, cause, h⟩ | ⟨p, -, -, -, h, -⟩ | ⟨p, q, parts, -, -, hq, -, ho', hc⟩ :=
      createNested_cases hw parent name
    · rw [h] at ho
      cases ho
    · rw [h] at ho
      cases ho
    · rw [ho'] at ho
      obtain ⟨hqm, rfl⟩ := (Registry.get?_eq_some_iff hd.registry).1 hq
      rw [hc, Registry.modifyParts_add hd.registry hqm]
      exact ⟨_, List.mem_cons_self .., Except.ok.inj ho, rfl⟩
  | some p =>
    obtain ⟨x, hx, hp⟩ := Option.bind_eq_some_iff.1 hf
    obtain ⟨hxm, rfl⟩ := (Registry.get?_eq_some_iff hw.registry).1 hx
    obtain ⟨hpm, rfl⟩ := PartTable.find?_mem hp
    simp only [hf] at ho ⊢
    obtain ⟨n, m, u, handler⟩ := p
    cases handler with
    | native h => cases ho
    | procedure q => cases ho
    | ensemble h =>
      simp only [hw.registry.idOf?_eq] at ho ⊢
      cases hb : c.registry.bound? h with
      | none =>
        rw [hb] at ho
        cases ho
      | some e =>
        rw [hb] at ho
        obtain ⟨hem, rfl⟩ := (Registry.bound?_eq_some_iff hw.registry).1 hb
        exact ⟨e, hem, Except.ok.inj ho,
          hw.registry.parent_of_holds hxm hem (x.holds_of_part hpm rfl)⟩

end Catalog

theorem Run.outcome_edit_eq_ok_iff {α : Type} {f : Catalog → Edit α} {s : State} {a : α} :
    (edit f).outcome s = .ok a ↔ (f s.catalog).outcome = .ok a := by
  unfold outcome edit
  simp only
  cases (f s.catalog).outcome <;> simp

namespace State

variable {root name : String} {limit levels : Nat} {id new : EnsembleId} {s : State}

theorem Shallow.room_locateTop (h : s.Shallow root limit) (hl : levels < limit)
    (ht : s.catalog.TopLevel name) (ho : (Run.locate none name).outcome s = .ok new) :
    ((Run.locate none name).after s).Room limit new levels := by
  have hs := h.locateTop (Nat.lt_of_le_of_lt (Nat.zero_le _) hl) name
  obtain ⟨e, he, rfl, hp⟩ :=
    h.wf.exists_of_locateTop ht ((Run.outcome_edit_eq_ok_iff (f := (·.locateTop name))).1 ho)
  rw [← Run.catalog_edit (·.locateTop name)] at he
  refine ⟨hs.wf.registry.issued e he, fun d hd => ?_⟩
  have hzero := (hs.wf.registry.lies_iff he).1 hd
  rw [hp] at hzero
  omega

/-- The new ensemble has a level less below it than the one that it hangs in, and is another
one. -/
theorem Shallow.room_locateNested (h : s.Shallow root limit) (hr : s.Room limit id (levels + 1))
    (ho : (Run.locate (some id) name).outcome s = .ok new) :
    ((Run.locate (some id) name).after s).Room limit new levels ∧ new ≠ id := by
  have hs := h.locateNested hr name
  have hg := h.wf.grows_locateNested id name
  obtain ⟨e, he, rfl, hp⟩ :=
    h.wf.exists_of_locateNested ((Run.outcome_edit_eq_ok_iff (f := (·.locateNested id name))).1 ho)
  rw [← Run.catalog_edit (·.locateNested id name)] at he hg
  refine ⟨⟨hs.wf.registry.issued e he, fun d hd => ?_⟩, fun hne => ?_⟩
  · have hsucc := (hs.wf.registry.lies_iff he).1 hd
    rw [hp] at hsucc
    obtain ⟨n, hn, rfl⟩ := hsucc
    have := hr.lt n (hg.lies_of_le hs.wf.registry hn hr.issued)
    omega
  · obtain ⟨p, -, hid, hlt, -⟩ := hs.wf.registry.hangs e he _ hp
    rw [hid, hne] at hlt
    exact Nat.lt_irrefl _ hlt

theorem Shallow.declareLeaf (h : s.Shallow root limit) (id : EnsembleId) (keyword : String)
    (args : List String) : ((Run.declareLeaf id keyword args).after s).Shallow root limit := by
  unfold Run.declareLeaf
  split
  · obtain ht | ⟨name, signature, body, c, hc, ht⟩ := Run.after_declarePart s id keyword args
    · rwa [ht]
    · rw [ht]
      refine ⟨h.wf.addProcedure hc, ?_, fun id d hd => ?_⟩
      · have hn := h.wf.natives_addProcedure hc
        rw [h.natives] at hn
        exact hn.symm.eq_nil
      · have hg : s.catalog.registry.GrowsBy (fun _ => False) c.registry :=
          Catalog.grows_addProcedure hc
        obtain hd | ⟨hf, -⟩ | ⟨_, _, hf, -⟩ :=
          hg.lies_cases h.wf.registry (h.wf.addProcedure hc).registry hd
        · exact h.lt id d hd
        · exact hf.elim
        · exact hf.elim
  · exact h

end State

/-! ## Runs -/

/-- The task starts where `levels` levels suffice for what it may declare. -/
def Task.Ready (root : String) (limit levels : Nat) (t : Task) (s : State) : Prop :=
  s.Shallow root limit ∧
    match t.declaring with
    | none => levels ≤ limit
    | some id => s.Room limit id levels

section Runs

variable {root : String} {limit levels : Nat} {α : Type}

/-- On a level whose tasks declare in `current`, the work leaves a shallow state shallow. -/
abbrev Work.StaysShallow (root : String) (limit levels : Nat) (current : Option EnsembleId)
    (w : Work α) : Prop :=
  w.Maintains (perform levels) (Task.Keeps Watch.bodies levels)
    (fun c name s => c = current ∧ (c = none → s.catalog.TopLevel name))
    (State.Shallow root limit)

namespace Work

variable {current : Option EnsembleId} {s : State}
  (hd : ∀ t s, t.Ready root limit levels s → t.Keeps Watch.bodies levels s →
    ((perform levels t).after s).Shallow root limit)
include hd

theorem staysShallow_task (hl : levels ≤ limit) {t : Task} (ht : t.declaring = none) :
    (task t).StaysShallow root limit levels current := by
  intro s hs ha
  rw [run_task]
  refine hd t s ⟨hs, ?_⟩ ha.1
  rw [ht]
  exact hl

theorem shallow_declareBody {id : EnsembleId} {body : String}
    {locates : Option EnsembleId → String → State → Prop} (hs : s.Shallow root limit)
    (hr : s.Room limit id levels)
    (ha : (declareBody id body).Along (perform levels) (Task.Keeps Watch.bodies levels) locates s) :
    (((declareBody id body).run (perform levels)).after s).Shallow root limit := by
  obtain ⟨-, htask⟩ := along_bind.1 ha
  rw [declareBody, run_bind, Run.after_bind, run_lift, Run.after_parse]
  rw [run_lift, Run.after_parse] at htask
  cases ho : (Run.parse .escapes body).outcome s with
  | error e => exact hs
  | ok commands =>
    simp only [run_discard, run_task]
    rw [Run.after_discard]
    exact hd (.body id commands) s ⟨hs, hr⟩ (htask commands ho).1

omit hd in
/-- A declaration in another ensemble than the one of the level starts by finding or making
that. -/
theorem not_along_declareEnsemble {c : Option EnsembleId} {args : List String}
    {deeper : Deeper} {calls : Task → State → Prop} (hargs : args ≠ []) (hc : c ≠ current) :
    ¬ (declareEnsemble c args).Along deeper calls
      (fun c name s => c = current ∧ (c = none → s.catalog.TopLevel name)) s := by
  intro ha
  match args with
  | [] => exact hargs rfl
  | [_] | [_, _] | _ :: _ :: _ :: _ => exact hc ha.1.1

/-- A declaration where there is room for the ensembles that it finds or makes. -/
theorem shallow_declareEnsemble {args : List String} (hs : s.Shallow root limit)
    (hloc : ∀ name, (current = none → s.catalog.TopLevel name) →
      ((Run.locate current name).after s).Shallow root limit ∧
      ∀ id, (Run.locate current name).outcome s = .ok id →
        ((Run.locate current name).after s).Room limit id levels ∧ some id ≠ current)
    (ha : (declareEnsemble current args).Along (perform levels) (Task.Keeps Watch.bodies levels)
      (fun c name s => c = current ∧ (c = none → s.catalog.TopLevel name)) s) :
    (((declareEnsemble current args).run (perform levels)).after s).Shallow root limit := by
  match args with
  | [] => exact hs
  | [name] =>
    rw [declareEnsemble, run_discard, run_ensemble, Run.after_discard]
    exact (hloc name ha.1.2).1
  | [name, body] =>
    obtain ⟨hname, hbody⟩ := along_bind.1 ha
    rw [run_ensemble] at hbody
    rw [declareEnsemble, run_bind, run_ensemble, Run.after_bind]
    have hlocated := hloc name hname.1.2
    cases ho : (Run.locate current name).outcome s with
    | error e => exact hlocated.1
    | ok id => exact shallow_declareBody hd hlocated.1 (hlocated.2 id ho).1 (hbody id ho)
  | name :: keyword :: arg :: args =>
    have hdecl : declareEnsemble current (name :: keyword :: arg :: args) =
        ensemble current name >>= fun id =>
          if keyword = "ensemble" then declareEnsemble (some id) (arg :: args)
          else lift (Run.declareLeaf id keyword (arg :: args)) := rfl
    rw [hdecl] at ha ⊢
    obtain ⟨hname, hrest⟩ := along_bind.1 ha
    rw [run_ensemble] at hrest
    rw [run_bind, run_ensemble, Run.after_bind]
    have hlocated := hloc name hname.1.2
    cases ho : (Run.locate current name).outcome s with
    | error e => exact hlocated.1
    | ok id =>
      have hrest := hrest id ho
      simp only at hrest ⊢
      split at hrest
      · exact absurd hrest (not_along_declareEnsemble nofun (hlocated.2 id ho).2)
      · rename_i hk
        rw [if_neg hk, run_lift]
        exact hlocated.1.declareLeaf id keyword _

/-! Scripts, procedures and calls declare at the top level. -/

section Scripts

variable (hl : levels < limit)
include hl

theorem staysShallow_declareEnsemble (args : List String) :
    (declareEnsemble none args).StaysShallow root limit levels none := by
  intro s hs ha
  refine shallow_declareEnsemble hd hs (fun name ht => ⟨?_, fun id ho => ⟨?_, nofun⟩⟩) ha
  · exact hs.locateTop (Nat.lt_of_le_of_lt (Nat.zero_le _) hl) name
  · exact hs.room_locateTop hl (ht rfl) ho

omit hd hl in
theorem staysShallow_parse (f : Substitutions) (source : String) :
    (lift (Run.parse f source)).StaysShallow root limit levels current :=
  maintains_lift fun s hs => (Run.after_parse f source s).symm ▸ hs

theorem staysShallow_eval (source : String) :
    (eval source).StaysShallow root limit levels none :=
  maintains_bind (staysShallow_parse _ _) fun _ => staysShallow_task hd (Nat.le_of_lt hl) rfl

omit hd hl in
theorem staysShallow_readVariable (name : String) :
    (lift (Run.readVariable name)).StaysShallow root limit levels current :=
  maintains_lift fun s hs => (Run.after_readVariable name s).symm ▸ hs

theorem staysShallow_expandPiece (p : Piece) :
    (expandPiece p).StaysShallow root limit levels none := by
  cases p with
  | text s => exact maintains_done _
  | var name => exact staysShallow_readVariable name
  | script source =>
    exact maintains_bind (staysShallow_eval hd hl source) fun _ => maintains_done _

theorem staysShallow_expand (w : Word) : (expand w).StaysShallow root limit levels none :=
  maintains_bind (maintains_mapM (staysShallow_expandPiece hd hl) _) fun _ => maintains_done _

theorem staysShallow_callNotedPart (id : EnsembleId) (part : String) {handler : Handler}
    (hn : ∀ h, handler ≠ .native h) (args : List String) :
    (callNotedPart id part handler args).StaysShallow root limit levels none := by
  refine maintains_mapError ?_
  have htask {t : Task} (ht : t.declaring = none) :
      (task t).StaysShallow root limit levels none :=
    staysShallow_task hd (Nat.le_of_lt hl) ht
  cases handler with
  | native h => exact absurd rfl (hn h)
  | ensemble command => exact maintains_bind (htask rfl) fun _ => maintains_done _
  | procedure p =>
    unfold callPart
    simp only
    cases p.signature.bind args with
    | none => exact maintains_lift fun s hs => (Run.after_ask _ s).symm ▸ hs
    | some bindings =>
      exact maintains_bind (staysShallow_parse _ _) fun _ =>
        maintains_bind (htask rfl) fun _ => maintains_done _

theorem staysShallow_select {e : Ensemble}
    (hn : ∀ p ∈ e.parts.toList, ∀ h, p.handler ≠ .native h) (word : String) (args : List String) :
    (select e word args).StaysShallow root limit levels none := by
  unfold select
  split
  · rename_i p hp
    exact staysShallow_callNotedPart hd hl _ _ (hn p (PartTable.mem_of_resolve hp)) _
  · split
    · rename_i p hp
      exact staysShallow_callNotedPart hd hl _ _ (hn p (PartTable.find?_mem hp).1) _
    · exact maintains_lift fun s hs => (Run.after_ask _ s).symm ▸ hs

/-- Of natives there is none to be called. -/
theorem staysShallow_dispatch (command : Handle) (argv : List String) :
    (dispatch command argv).StaysShallow root limit levels none := by
  refine maintains_read fun s hs => ?_
  cases hb : s.catalog.registry.bound? command with
  | none => exact maintains_done _
  | some e =>
    match argv with
    | [] | [_] => exact maintains_done _
    | _ :: word :: args =>
      refine staysShallow_select hd hl (fun p hp h hh => ?_) word args
      have hm := Run.mem_natives_of_part (Registry.mem_of_bound? hb) hp hh
      rw [hs.natives] at hm
      cases hm

theorem staysShallow_builtin (b : Builtin) (args : List String) :
    (builtin b args).StaysShallow root limit levels none := by
  cases b with
  | ensemble =>
    exact maintains_bind (staysShallow_declareEnsemble hd hl args) fun _ => maintains_done _
  | concat | list => exact maintains_lift fun s hs => hs
  | error | ret =>
    match args with
    | [] | [_] | _ :: _ :: _ => exact maintains_lift fun s hs => hs
  | puts =>
    match args with
    | [] | _ :: _ :: _ => exact maintains_lift fun s hs => hs
    | [line] => exact maintains_lift fun s hs => ⟨hs.wf, hs.natives, hs.lt⟩
  | set =>
    match args with
    | [] | _ :: _ :: _ :: _ => exact maintains_lift fun s hs => hs
    | [name] =>
      refine maintains_lift fun s hs => ?_
      rw [Run.builtin, Run.after_bind, Run.after_readVariable]
      cases (Run.readVariable name).outcome s <;> exact hs
    | [name, value] =>
      exact maintains_lift fun s hs => hs.of_catalog (s.catalog_set name value)

theorem staysShallow_invoke (argv : List String) :
    (invoke argv).StaysShallow root limit levels none := by
  cases argv with
  | nil => exact maintains_done _
  | cons name args =>
    refine maintains_read fun s hs => ?_
    cases hf : s.catalog.commands.find? name with
    | none => exact maintains_done _
    | some a =>
      obtain ⟨handle, _, target⟩ := a
      cases target with
      | builtin b => exact staysShallow_builtin hd hl b args
      | ensemble => exact maintains_map (staysShallow_dispatch hd hl handle _)
      | native h =>
        have hm := Run.mem_natives_of_command (CommandTable.mem_of_find? hf) rfl
        rw [hs.natives] at hm
        cases hm

theorem staysShallow_evalCommands (blame : Command → Error → Error) (last : Completion)
    (commands : List Command) :
    (evalCommands blame last commands).StaysShallow root limit levels none := by
  induction commands generalizing last with
  | nil => exact maintains_done _
  | cons c commands ih =>
    have hc : (evalCommand c).StaysShallow root limit levels none :=
      maintains_bind (maintains_mapM (staysShallow_expand hd hl) _) fun _ =>
        staysShallow_invoke hd hl _
    refine maintains_bind (maintains_mapError hc) fun done => ?_
    cases done with
    | normal value => exact ih _
    | returned value => exact maintains_done _

end Scripts

/-! The body of an ensemble declares in that. -/

theorem shallow_declare {id : EnsembleId} {words : List String}
    (hs : s.Shallow root limit) (hr : s.Room limit id (levels + 1))
    (ha : (declare id words).Along (perform levels) (Task.Keeps Watch.bodies levels)
      (fun c name s => c = some id ∧ (c = none → s.catalog.TopLevel name)) s) :
    (((declare id words).run (perform levels)).after s).Shallow root limit := by
  cases words with
  | nil => exact hs
  | cons keyword args =>
    unfold declare at ha ⊢
    simp only at ha ⊢
    by_cases hk : keyword = "ensemble"
    · rw [if_pos hk] at ha ⊢
      refine shallow_declareEnsemble hd hs (fun name _ => ⟨?_, fun new ho => ?_⟩) ha
      · exact hs.locateNested hr name
      · obtain ⟨hroom, hne⟩ := hs.room_locateNested hr ho
        exact ⟨hroom, fun he => hne (Option.some.inj he)⟩
    · rw [if_neg hk, run_lift]
      exact hs.declareLeaf id keyword args

theorem shallow_declareAll {id : EnsembleId} {commands : List Command}
    (hs : s.Shallow root limit) (hr : s.Room limit id (levels + 1))
    (ha : (declareAll id commands).Along (perform levels) (Task.Keeps Watch.bodies levels)
      (fun c name s => c = some id ∧ (c = none → s.catalog.TopLevel name)) s) :
    (((declareAll id commands).run (perform levels)).after s).Shallow root limit := by
  -- The room stays while the declarations are gone through, since no run moves an ensemble.
  have hall : (declareAll id commands).Maintains (perform levels)
      (Task.Keeps Watch.bodies levels)
      (fun c name s => c = some id ∧ (c = none → s.catalog.TopLevel name))
      (fun s => s.Shallow root limit ∧ s.Room limit id (levels + 1)) := by
    refine maintains_forM (fun c => maintains_mapError fun s hs ha => ?_) commands
    refine ⟨shallow_declare hd hs.1 hs.2 ha, ?_⟩
    rw [run_declare]
    exact hs.2.reaches hs.1.wf (Run.steps_declare (Run.steps_perform levels) id _ s)
  exact (hall s ⟨hs, hr⟩ ha).1

end Work

/-- Within the levels that it needs, a task leaves all ensembles less than `limit` deep. -/
theorem Task.shallow_perform {t : Task} {s : State} (ht : t.Ready root limit levels s)
    (hk : t.Keeps Watch.bodies levels s) :
    ((perform levels t).after s).Shallow root limit := by
  induction levels generalizing t s with
  | zero => exact ht.1
  | succ levels ih =>
    obtain ⟨hs, hready⟩ := ht
    have hd (t : Task) (s : State) (ht : t.Ready root limit levels s)
      (hk : t.Keeps Watch.bodies levels s) := ih ht hk
    rw [show perform (levels + 1) t = t.run (perform levels) from rfl, ← Task.run_work]
    cases t with
    | script commands => exact Work.staysShallow_evalCommands hd hready _ _ _ s hs hk
    | procedure name bindings commands =>
      refine Work.maintains_bind (Work.maintains_between ?_ ?_
        (Work.staysShallow_evalCommands hd hready _ _ commands))
        (fun _ => Work.maintains_done _) s hs hk
      · exact fun s hs => ⟨hs.wf, hs.natives, hs.lt⟩
      · exact fun s hs => ⟨hs.wf, hs.natives, hs.lt⟩
    | dispatch command argv =>
      exact Work.maintains_bind (Work.staysShallow_dispatch hd hready command argv)
        (fun _ => Work.maintains_done _) s hs hk
    | invoke argv => exact Work.staysShallow_invoke hd hready argv s hs hk
    | body id commands =>
      obtain ⟨ha, -⟩ := Work.along_bind.1 hk
      rw [Task.work, Work.run_bind, Run.after_bind]
      have hdone := Work.shallow_declareAll hd hs hready ha
      cases ((Work.declareAll id commands).run (perform levels)).outcome s <;> exact hdone

end Runs

namespace Interpreter

variable {root : String} {i : Interpreter} {scripts : List String}

/-- The interpreter after one script after the other. -/
def evalAll (i : Interpreter) (scripts : List String) : Interpreter :=
  scripts.foldl (fun i script => (i.eval script).2) i

/-- The scripts, evaluated one after the other, declare nested ensembles in bodies only. -/
def DeclaresInBodies : Interpreter → List String → Prop
  | _, [] => True
  | i, script :: scripts =>
    (∀ commands, Script.parse .all script = .ok commands →
      Task.Keeps Watch.bodies i.limit (.script commands) i.state) ∧
    DeclaresInBodies (i.eval script).2 scripts

theorem shallow_eval {script : String} (hs : i.state.Shallow root i.limit)
    (hk : ∀ commands, Script.parse .all script = .ok commands →
      Task.Keeps Watch.bodies i.limit (.script commands) i.state) :
    (i.eval script).2.state.Shallow root i.limit := by
  rw [eval_eq]
  show ((Run.eval (perform i.limit) script).after i.state).Shallow root i.limit
  cases hp : Script.parse .all script with
  | error e =>
    have hfail : Run.eval (perform i.limit) script i.state =
        .error (.of (.malformed e)) i.state := by
      simp only [Run.eval, Run.parse, bind, EStateM.bind, hp]
    rw [Run.after_of_error hfail]
    exact hs
  | ok commands =>
    rw [Run.eval_of_parse _ hp]
    exact Task.shallow_perform ⟨hs, Nat.le_refl _⟩ (hk commands hp)

theorem shallow_evalAll (hs : i.state.Shallow root i.limit) (hb : i.DeclaresInBodies scripts) :
    (i.evalAll scripts).state.Shallow root i.limit := by
  induction scripts generalizing i with
  | nil => exact hs
  | cons script scripts ih =>
    obtain ⟨hscript, hrest⟩ := hb
    have hlimit : (i.eval script).2.limit = i.limit := by rw [eval_eq]
    have hnext := shallow_eval hs hscript
    rw [← hlimit] at hnext ⊢
    exact ih hnext hrest

theorem shallow_new (root : String) (limit : Nat) : (new root limit).state.Shallow root limit where
  wf := Catalog.wf_initial root
  natives := Catalog.natives_initial root
  lt id d hd := by
    obtain ⟨e, he, -⟩ := hd.exists_mem
    cases he

/-- If nested ensembles are declared in bodies only, each lies less deep than there are
levels. -/
theorem lt_limit_of_trail {limit : Nat} {id : EnsembleId} {top : Ensemble} {names : List String}
    (hb : (new root limit).DeclaresInBodies scripts)
    (ht : ((new root limit).evalAll scripts).state.catalog.registry.trail id = some (top, names)) :
    names.length < limit := by
  have hend := shallow_evalAll (shallow_new root limit) hb
  exact hend.lt id _ (hend.wf.registry.lies_of_trail ht)

end Interpreter

end Ensembles
