import Ensembles.Native.Stock
import Ensembles.Proofs.OwnedNatives
import Ensembles.Proofs.Reachable

/-!
# The release of natives

A native that an interpreter is given is owned by a command or a part. The host or another
native may look it up there and keep it. When it has lost its owner it is released, at once or
when the last call of it is over and it is kept no more. `State.Custody` says that each native
given is in one of these places, and once: with an owner, in use without one, or released.
`State.Reaches.moves` reduces runs to the few things they do to natives, and these preserve
that (`State.Moves.custody`), however natives and scripts call each other and whatever they
delete, replace, keep or drop meanwhile.

`Interpreter.released_once` draws the conclusion for the sessions of a host: at any time a
native has been released once if it has no owner and is not in use, and not at all otherwise;
when the interpreter is dropped each has been released once but those that are kept, which are
when they are dropped. A native that is kept may so outlive its part and the interpreter
(`Interpreter.kept_native_outlives_its_part`).
-/

namespace Ensembles

/-- A command or part owns the native of the number `n`. -/
def Catalog.Owns (c : Catalog) (n : Nat) : Prop := ∃ h ∈ c.natives, h.serial = n

instance (c : Catalog) (n : Nat) : Decidable (c.Owns n) :=
  inferInstanceAs (Decidable (∃ h ∈ c.natives, h.serial = n))

theorem Catalog.mem_natives_of_lookup {c : Catalog} {path word : String} {h : Hosted}
    (hp : c.part path word = .ok (.native h)) : h ∈ c.natives := by
  unfold Catalog.part at hp
  cases hr : c.resolveText path with
  | error cause =>
    rw [hr] at hp
    cases hp
  | ok id =>
    rw [hr] at hp
    simp only [bind, Except.bind] at hp
    split at hp
    · cases hp
    · rename_i e he
      split at hp
      · rename_i p hf
        exact Run.mem_natives_of_part (List.mem_of_find?_eq_some he) (PartTable.mem_of_resolve hf)
          (Except.ok.inj hp)
      · cases hp
      · cases hp

/-- The natives that have an owner, are in use without one, or have been released. -/
def State.held (s : State) : List Hosted := s.catalog.natives ++ s.orphans ++ s.released

/-- How often the native of the number `n` is among those given. -/
def times (n : Nat) (hs : List Hosted) : Nat := (hs.map (·.serial)).count n

theorem times_append (n : Nat) (hs hs' : List Hosted) :
    times n (hs ++ hs') = times n hs + times n hs' := by
  rw [times, List.map_append, List.count_append]
  rfl

theorem times_pos_iff {n : Nat} {hs : List Hosted} :
    0 < times n hs ↔ ∃ h ∈ hs, h.serial = n := by
  rw [times, List.count_pos_iff, List.mem_map]

theorem times_perm {hs hs' : List Hosted} (h : hs.Perm hs') (n : Nat) : times n hs = times n hs' :=
  (h.map _).count_eq n

namespace State

variable {root : String} {told given : List Hosted} {s t : State} {h : Hosted}

/-- Each native given has one place. A native waits for its release only while it is in use, and
is not released then; `told` are those whose release lies further back than the state tells. -/
structure Custody (told : List Hosted) (s : State) : Prop where
  once : ∀ n, times n (told ++ s.held) = if n < s.received then 1 else 0
  orphans : ∀ h ∈ s.orphans, s.InUse h.serial
  ended : ∀ h ∈ told ++ s.released, ¬ s.InUse h.serial

theorem inUse_beginCall {n : Nat} : (s.beginCall h).InUse n ↔ n = h.serial ∨ s.InUse n := by
  show n ∈ h.serial :: s.calling ∨ s.Keeps n ↔ _
  rw [List.mem_cons, or_assoc]
  rfl

theorem inUse_keep {n : Nat} : (s.keep h).InUse n ↔ n = h.serial ∨ s.InUse n := by
  show n ∈ s.calling ∨ n ∈ h.serial :: s.kept.map (·.serial) ↔ _
  rw [List.mem_cons, or_left_comm]
  rfl

/-! ## Letting go -/

/-- Of the natives that are let go those wait that are in use. -/
theorem foldl_letGo_eq (freed : List Hosted) (s : State) :
    freed.foldl letGo s = { s with
      orphans := s.orphans ++ freed.filter (s.InUse ·.serial)
      released := s.released ++ freed.filter (¬ s.InUse ·.serial) } := by
  induction freed generalizing s with
  | nil => simp
  | cons h freed ih =>
    have huse (orphans released : List Hosted) (n : Nat) :
        { s with orphans, released }.InUse n ↔ s.InUse n := Iff.rfl
    rw [List.foldl_cons, ih, letGo]
    split
    · rename_i hc
      simp [hc, huse]
    · rename_i hc
      simp [hc, huse]

theorem mem_held_foldl_letGo {freed : List Hosted} {x : Hosted} :
    x ∈ (freed.foldl letGo s).held ↔ x ∈ freed ∨ x ∈ s.held := by
  rw [foldl_letGo_eq]
  simp only [held, List.mem_append, List.mem_filter, decide_eq_true_eq]
  by_cases hc : s.InUse x.serial
  · simp only [hc, not_true, and_true, and_false, or_false]
    tauto
  · simp only [hc, not_false_iff, and_true, and_false, or_false]
    tauto

theorem times_held_foldl_letGo (n : Nat) (freed : List Hosted) (s : State) :
    times n (freed.foldl letGo s).held = times n freed + times n s.held := by
  have hsplit := times_perm
    (List.filter_append_perm (fun h : Hosted => decide (s.InUse h.serial)) freed) n
  simp only [← decide_not] at hsplit
  rw [foldl_letGo_eq, held, held]
  simp only [times_append] at hsplit ⊢
  omega

/-! ## Steps -/

/-- What comes with a change of the catalogue gets the next numbers. -/
theorem times_given (hg : given.map (·.serial) = List.range' s.received given.length) (n : Nat) :
    times n given + (if n < s.received then 1 else 0) =
      if n < s.received + given.length then 1 else 0 := by
  have hcount : times n given =
      if s.received ≤ n ∧ n < s.received + given.length then 1 else 0 := by
    rw [times, hg, (List.nodup_range' 1).count]
    simp only [List.mem_range'_1]
  rw [hcount]
  split <;> split <;> split <;> omega

/-- After a change of the catalogue what it was given and all that was held is held. -/
theorem Custody.edited {α : Type} {edit : Edit α} (hc : s.Custody told)
    (he : edit.Conserves given s.catalog)
    (hg : given.map (·.serial) = List.range' s.received given.length) :
    (edit.freed.foldl letGo
      { s with catalog := edit.catalog, received := s.received + given.length }).Custody told := by
  constructor
  · intro n
    have honce := hc.once n
    have hn := times_perm he n
    have hr := times_given hg n
    simp only [held, times_append] at honce hn
    rw [times_append, times_held_foldl_letGo, foldl_letGo_eq]
    simp only [held, times_append]
    omega
  · intro h hh
    rw [foldl_letGo_eq] at hh ⊢
    rw [List.mem_append, List.mem_filter, decide_eq_true_iff] at hh
    exact hh.elim (hc.orphans h) And.right
  · intro h hh
    rw [foldl_letGo_eq] at hh ⊢
    rw [← List.append_assoc, List.mem_append, List.mem_filter, decide_eq_true_iff] at hh
    exact hh.elim (hc.ended h) And.right

/-- A native that has an owner or is kept has not been released. -/
theorem Custody.serial_ne (hc : s.Custody told) (hm : h ∈ s.atHand) {x : Hosted}
    (hx : x ∈ told ++ s.released) : x.serial ≠ h.serial := by
  intro hxh
  obtain hm | hm := List.mem_append.1 hm
  · have hgone : 0 < times h.serial (told ++ s.released) := times_pos_iff.2 ⟨x, hx, hxh⟩
    have howned : 0 < times h.serial s.catalog.natives := times_pos_iff.2 ⟨h, hm, rfl⟩
    have honce := hc.once h.serial
    simp only [held, times_append] at hgone honce
    split at honce <;> omega
  · exact hc.ended x hx (.inr (hxh ▸ List.mem_map_of_mem hm))

theorem Custody.beginCall (hc : s.Custody told) (hm : h ∈ s.atHand) :
    (s.beginCall h).Custody told where
  once := hc.once
  orphans x hx := inUse_beginCall.2 (.inr (hc.orphans x hx))
  ended x hx hu := (inUse_beginCall.1 hu).elim (hc.serial_ne hm hx) (hc.ended x hx)

theorem Custody.keep (hc : s.Custody told) (hm : h ∈ s.atHand) : (s.keep h).Custody told where
  once := hc.once
  orphans x hx := inUse_keep.2 (.inr (hc.orphans x hx))
  ended x hx hu := (inUse_keep.1 hu).elim (hc.serial_ne hm hx) (hc.ended x hx)

/-- When the native of the number `n` is used once less, it is settled whether that was the last
use of it. -/
theorem Custody.settle (hc : s.Custody told) {n : Nat} {calling : List Nat} {kept : List Hosted}
    (hless : ∀ m, { s with calling, kept }.InUse m → s.InUse m)
    (hmost : ∀ m, m ≠ n → s.InUse m → { s with calling, kept }.InUse m) :
    ({ s with calling, kept }.settle n).Custody told := by
  by_cases hu : { s with calling, kept }.InUse n
  · rw [settle_of_inUse hu]
    refine ⟨hc.once, fun x hx => ?_, fun x hx hxu => hc.ended x hx (hless _ hxu)⟩
    by_cases hxn : x.serial = n
    · rwa [hxn]
    · exact hmost _ hxn (hc.orphans x hx)
  · rw [settle_of_not_inUse hu]
    constructor
    · intro m
      have hsplit := times_perm
        (List.filter_append_perm (fun x : Hosted => decide (x.serial = n)) s.orphans) m
      have honce := hc.once m
      simp only [held, times_append, decide_not] at hsplit honce ⊢
      omega
    · intro x hx
      rw [List.mem_filter, decide_eq_true_iff] at hx
      exact hmost _ hx.2 (hc.orphans x hx.1)
    · intro x hx hxu
      rw [← List.append_assoc, List.mem_append, List.mem_filter, decide_eq_true_iff] at hx
      obtain hx | ⟨-, hxn⟩ := hx
      · exact hc.ended x hx (hless _ hxu)
      · exact hu (hxn ▸ hxu)

theorem Custody.endCall (hc : s.Custody told) : (s.endCall h).Custody told :=
  hc.settle (fun _ => Or.imp_left List.mem_of_mem_erase) fun _ hm =>
    Or.imp_left (List.mem_erase_of_ne hm).2

theorem Custody.drop (hc : s.Custody told) (n : Nat) : (s.drop n).Custody told := by
  refine hc.settle (fun m => Or.imp_right fun hm => ?_) fun m hmn => Or.imp_right fun hm => ?_
  · obtain ⟨x, hx, rfl⟩ := List.mem_map.1 hm
    exact List.mem_map_of_mem (List.mem_of_mem_eraseP hx)
  · obtain ⟨x, hx, rfl⟩ := List.mem_map.1 hm
    exact List.mem_map_of_mem ((List.mem_eraseP_of_neg (by simpa using hmn)).2 hx)

/-! ## Runs -/

/-- What runs do to natives. -/
inductive Moves : State → State → Prop where
  | refl (s : State) : Moves s s
  | trans {s t u : State} : Moves s t → Moves t u → Moves s u
  /-- A change that no native takes part in. -/
  | aside (s : State) (globals : Scope) (locals : List Scope) (output memory : String) :
    Moves s { s with globals, locals, output, memory }
  /-- A change of the catalogue, and the natives that are given along with it. -/
  | edit {α : Type} {s : State} {given : List Hosted} {edit : Edit α} :
    edit.Conserves given s.catalog →
      given.map (·.serial) = List.range' s.received given.length →
      Moves s (edit.freed.foldl letGo
        { s with catalog := edit.catalog, received := s.received + given.length })
  | keep {s : State} {h : Hosted} : h ∈ s.atHand → Moves s (s.keep h)
  | drop (s : State) (serial : Nat) : Moves s (s.drop serial)
  | call {s t : State} {h : Hosted} :
    h ∈ s.atHand → Moves (s.beginCall h) t → Moves s (t.endCall h)

end State

namespace Run

variable {α : Type} {root : String} {s : State} {f : Catalog → Edit α}

theorem moves_edit (hf : (f s.catalog).Conserves [] s.catalog) : s.Moves ((edit f).after s) := by
  rw [after_edit]
  exact .edit hf rfl

/-- The native that comes with a change gets the next number. -/
theorem moves_edit_received {n : Native}
    (hf : (f s.catalog).Conserves [⟨s.received, n⟩] s.catalog) :
    s.Moves ((edit f).after { s with received := s.received + 1 }) := by
  rw [after_edit]
  exact .edit hf rfl

/-- What is given along with a change is held after it. -/
theorem mem_held_of_given {given : List Hosted} {h : Hosted} {received : Nat} (hg : h ∈ given)
    (hf : (f s.catalog).Conserves given s.catalog) :
    h ∈ ((edit f).after { s with received }).held := by
  rw [after_edit, State.mem_held_foldl_letGo]
  have hm := hf.mem_iff.1 (List.mem_append_left _ hg)
  exact (List.mem_append.1 hm).imp id fun ho => List.mem_append_left _ (List.mem_append_left _ ho)

/-- A native that the interpreter is given is held under the next number, also when the part
it was given for is not made. -/
theorem mem_held_received (hw : s.catalog.Wf root) (n : Native) :
    (∀ name, ⟨s.received, n⟩ ∈ ((register name n).after s).held) ∧
      ∀ path name usage, ⟨s.received, n⟩ ∈ ((addPart path name usage n).after s).held := by
  refine ⟨fun name => ?_, fun path name usage => ?_⟩
  · rw [after_register]
    exact mem_held_of_given (List.mem_singleton_self _)
      (Catalog.conserves_put hw name (.native ⟨s.received, n⟩))
  · rw [after_addPart]
    exact mem_held_of_given (List.mem_singleton_self _)
      (Catalog.conserves_addNative hw path name usage _)

end Run

namespace State

variable {root : String} {told : List Hosted} {s t : State} {h : Hosted}

/-- What is looked up is owned, and what is copied is kept. -/
theorem moves_answer (s : State) (q : Inquiry) : s.Moves (s.answer q).2 := by
  cases q with
  | part path word =>
    simp only [answer]
    cases hp : s.catalog.part path word with
    | error cause => exact .refl s
    | ok handler =>
      cases handler with
      | native h => exact .keep (List.mem_append_left _ (Catalog.mem_natives_of_lookup hp))
      | procedure p => exact .refl s
      | ensemble command => exact .refl s
  | copy serial =>
    simp only [answer]
    cases hk : s.kept? serial with
    | none => exact .refl s
    | some h => exact .keep (mem_atHand_of_kept? hk)
  | drop serial => exact .drop s serial
  | remember text => exact .aside s s.globals s.locals s.output text
  | _ => exact .refl s

theorem Alone.moves (ha : s.Alone t) : s.Moves t := by
  induction ha with
  | refl s => exact .refl s
  | trans _ _ ih₁ ih₂ => exact ih₁.trans ih₂
  | write s output => exact .aside s s.globals s.locals output s.memory
  | remember s memory => exact .aside s s.globals s.locals s.output memory
  | copy s serial => exact moves_answer s (.copy serial)
  | drop s serial => exact .drop s serial

/-- With an interpreter its commands and ensembles go. -/
theorem moves_close (s : State) : s.Moves s.close := by
  have he : (⟨.ok (), ⟨.empty, .empty s.catalog.registry.root⟩, s.catalog.natives⟩ :
      Edit Unit).Conserves [] s.catalog := by
    exact .of_eq (List.append_nil _).symm
  exact .edit he rfl

theorem Reaches.moves (hw : s.catalog.Wf root) (hr : s.Reaches t) : s.Moves t := by
  induction hr with
  | refl s => exact .refl s
  | trans hst _ ih₁ ih₂ => exact (ih₁ hw).trans (ih₂ (hst.catalog (Catalog.preserved_wf root) hw))
  | set s name value =>
    unfold State.set
    split
    · exact .aside s s.globals _ s.output s.memory
    · exact .aside s _ s.locals s.output s.memory
  | write s output => exact .aside s s.globals s.locals output s.memory
  | register s name n =>
    rw [Run.after_register]
    exact Run.moves_edit_received (Catalog.conserves_put hw name (.native ⟨s.received, n⟩))
  | delete s name => exact Run.moves_edit (Catalog.conserves_delete hw name)
  | create s path =>
    rw [Run.create, Run.noting, Run.after_mapError]
    exact Run.moves_edit (Catalog.conserves_create hw path)
  | addPart s path name usage n =>
    rw [Run.after_addPart]
    exact Run.moves_edit_received (Catalog.conserves_addNative hw path name usage _)
  | locate s current name =>
    cases current with
    | none => exact Run.moves_edit (f := (·.locateTop name)) (Catalog.conserves_locateTop hw name)
    | some parent =>
      exact Run.moves_edit (f := (·.locateNested parent name))
        (Catalog.conserves_locateNested hw parent name)
  | declarePart s id keyword args =>
    obtain ht | ⟨name, signature, body, c, hc, ht⟩ := Run.after_declarePart s id keyword args
    · rw [ht]
      exact .refl s
    · rw [ht]
      have he : (⟨.ok (), c, []⟩ : Edit Unit).Conserves [] s.catalog := hw.natives_addProcedure hc
      exact .edit he rfl
  | ask s q => exact moves_answer s q
  | @frame s t scope _ ih =>
    exact .trans (.aside s s.globals (scope :: s.locals) s.output s.memory)
      (.trans (ih hw) (.aside t t.globals t.locals.tail t.output t.memory))
  | call hm _ ih => exact .call hm (ih hw)

/-- Each native has its one place at the end of a run if it has at the start. -/
theorem Moves.custody (hm : s.Moves t) (hc : s.Custody told) : t.Custody told := by
  induction hm with
  | refl s => exact hc
  | trans _ _ ih₁ ih₂ => exact ih₂ (ih₁ hc)
  | aside s globals locals output memory => exact ⟨hc.once, hc.orphans, hc.ended⟩
  | edit he hg => exact hc.edited he hg
  | keep hm => exact hc.keep hm
  | drop s serial => exact hc.drop serial
  | call ho _ ih => exact (ih (hc.beginCall ho)).endCall

/-- After a run the same calls are active as before it. -/
theorem Moves.calling (hm : s.Moves t) : t.calling = s.calling := by
  induction hm with
  | refl s => rfl
  | trans _ _ ih₁ ih₂ => rw [ih₂, ih₁]
  | aside s globals locals output memory => rfl
  | edit he hg => rw [foldl_letGo_eq]
  | keep hm => rfl
  | drop s serial =>
    obtain ⟨_, _, hd⟩ := settle_eq { s with kept := s.kept.eraseP (·.serial = serial) } serial
    rw [State.drop, hd]
  | @call s t h ho _ ih =>
    obtain ⟨_, _, he⟩ := settle_eq { t with calling := t.calling.erase h.serial } h.serial
    rw [endCall, he, ih]
    exact List.erase_cons_head h.serial s.calling

theorem mem_held_settle {n : Nat} {x : Hosted} : x ∈ (s.settle n).held ↔ x ∈ s.held := by
  by_cases hu : s.InUse n
  · rw [settle_of_inUse hu]
  · rw [settle_of_not_inUse hu]
    simp only [State.held, List.mem_append, List.mem_filter, decide_eq_true_eq]
    tauto

/-- No native is lost or becomes another one. -/
theorem Moves.held (hm : s.Moves t) {x : Hosted} (hx : x ∈ s.held) : x ∈ t.held := by
  induction hm with
  | refl s => exact hx
  | trans _ _ ih₁ ih₂ => exact ih₂ (ih₁ hx)
  | aside s globals locals output memory => exact hx
  | @edit _ s given edit he hg =>
    rw [mem_held_foldl_letGo]
    simp only [State.held, List.mem_append] at hx ⊢
    have hmem := he.mem_iff (a := x)
    simp only [List.mem_append] at hmem
    tauto
  | keep hm => exact hx
  | drop s serial => exact mem_held_settle.2 hx
  | call ho _ ih => exact mem_held_settle.2 (ih hx)

theorem Passes.custody (hw : s.catalog.Wf root) (hp : s.Passes t) (hc : s.Custody told) :
    t.Custody told := by
  induction hp with
  | reaches hr => exact (hr.moves hw).custody hc
  | enter scope hr _ ih =>
    have ht := (hr.moves hw).custody hc
    exact ih (hr.catalog (Catalog.preserved_wf root) hw) ⟨ht.once, ht.orphans, ht.ended⟩
  | call hr ho _ ih =>
    exact ih (hr.catalog (Catalog.preserved_wf root) hw) (((hr.moves hw).custody hc).beginCall ho)

theorem Passes.wf (hw : s.catalog.Wf root) (hp : s.Passes t) : t.catalog.Wf root := by
  induction hp with
  | reaches hr => exact hr.catalog (Catalog.preserved_wf root) hw
  | enter scope hr _ ih => exact ih (hr.catalog (Catalog.preserved_wf root) hw)
  | call hr ho _ ih => exact ih (hr.catalog (Catalog.preserved_wf root) hw)

theorem custody_initial (root : String) : (initial root).Custody [] := by
  have hnone : (initial root).held = [] := by
    rw [held]
    show (Catalog.initial root).natives ++ [] ++ [] = []
    rw [Catalog.natives_initial]
    rfl
  exact ⟨fun n => by rw [hnone]; rfl, nofun, nofun⟩

/-- A native has been released when it has no owner and is not in use. -/
theorem Custody.times_released (hc : s.Custody told) (n : Nat) :
    times n (told ++ s.released) =
      if n < s.received ∧ ¬ s.catalog.Owns n ∧ ¬ s.InUse n then 1 else 0 := by
  have honce := hc.once n
  have howned : s.catalog.Owns n ↔ 0 < times n s.catalog.natives := times_pos_iff.symm
  have horphan : 0 < times n s.orphans → s.InUse n := fun h => by
    obtain ⟨x, hx, rfl⟩ := times_pos_iff.1 h
    exact hc.orphans x hx
  have hover : 0 < times n (told ++ s.released) → ¬ s.InUse n := fun h => by
    obtain ⟨x, hx, rfl⟩ := times_pos_iff.1 h
    exact hc.ended x hx
  simp only [held, times_append] at honce hover
  simp only [times_append, howned]
  by_cases huse : s.InUse n
  · have : ¬ 0 < times n told + times n s.released := fun h => hover h huse
    simp only [huse, not_true, and_false, if_false]
    omega
  · have : ¬ 0 < times n s.orphans := fun h => huse (horphan h)
    simp only [huse, not_false_iff, and_true]
    split <;> split at honce <;> omega

end State

namespace Interpreter

/-! ## Sessions -/

/-- One operation of a host on an interpreter. -/
inductive Operates (i : Interpreter) : Interpreter → Prop where
  | eval (script : String) : Operates i (i.eval script).2
  /-- What is told a result has no way to the interpreter. -/
  | evalEach {onResult : String → State → State} (script : String) :
    (∀ (result : String) (s : State), s.Alone (onResult result s)) →
      Operates i (i.evalEach onResult script).2
  | invoke (argv : List String) : Operates i (i.invoke argv).2
  | register (name : String) (n : Native) : Operates i (i.register name n).2
  | delete (name : String) : Operates i (i.delete name).2
  | create (path : String) : Operates i (i.create path).2
  | addPart (path name : String) (summary : Option String) (n : Native) :
    Operates i (i.addPart path name summary n).2
  /-- A question, or what the host does with the natives it keeps. -/
  | ask (q : Inquiry) : Operates i (i.ask q).2
  | callKept (serial : Nat) (argv : List String) : Operates i (i.callKept serial argv).2
  | callPart (path word : String) (argv : List String) : Operates i (i.callPart path word argv).2
  /-- Anything that natives do which the host has called. They may evaluate command by command
  as well, and call what is kept. -/
  | natives {s : State} : i.state.Reaches s → Operates i ⟨i.limit, s⟩

/-- What a host can do with an interpreter from the start on; `told` are the natives whose
release it has been told of. -/
inductive Session (root : String) : (told : List Hosted) → Interpreter → Prop where
  | new (limit : Nat) : Session root [] (new root limit)
  | operate {told : List Hosted} {i j : Interpreter} :
    Session root told i → i.Operates j → Session root told j
  | drain {told : List Hosted} {i : Interpreter} :
    Session root told i → Session root (told ++ i.state.released) i.drain.2

variable {root : String} {told : List Hosted} {i j : Interpreter}

theorem Operates.reaches (ho : i.Operates j) : i.state.Reaches j.state := by
  cases ho with
  | eval script => exact reaches_eval script
  | evalEach script hr => exact reaches_evalEach hr script
  | invoke argv => exact reaches_invoke argv
  | register name n => exact reaches_run fun s => .register s name n
  | delete name => exact reaches_run fun s => .delete s name
  | create path => exact reaches_run fun s => .create s path
  | addPart path name summary n => exact reaches_run fun s => .addPart s path name summary n
  | ask q => exact reaches_ask q
  | callKept serial argv => exact reaches_callKept serial argv
  | callPart path word argv => exact reaches_callPart path word argv
  | natives hr => exact hr

namespace Session

theorem wf (hs : Session root told i) : i.state.catalog.Wf root := by
  induction hs with
  | new limit => exact Catalog.wf_initial root
  | operate _ ho ih => exact ho.reaches.catalog (Catalog.preserved_wf root) ih
  | drain _ ih => exact ih

theorem custody (hs : Session root told i) : i.state.Custody told := by
  induction hs with
  | new limit => exact State.custody_initial root
  | operate hs ho ih => exact (ho.reaches.moves hs.wf).custody ih
  | @drain told i _ ih =>
    have hall (x : Hosted) : x ∈ told ++ i.state.released ++ [] → x ∈ told ++ i.state.released := by
      rw [List.append_nil]
      exact id
    refine ⟨fun n => ?_, ih.orphans, fun x hx => ih.ended x (hall x hx)⟩
    have honce := ih.once n
    show times n (told ++ i.state.released ++ (i.state.catalog.natives ++ i.state.orphans ++ [])) =
      if n < i.state.received then 1 else 0
    simp only [State.held, times_append, List.append_nil] at honce ⊢
    omega

/-- Between the operations of the host no native is called. -/
theorem calling (hs : Session root told i) : i.state.calling = [] := by
  induction hs with
  | new limit => rfl
  | operate hs ho ih => exact (ho.reaches.moves hs.wf).calling.trans ih
  | drain _ ih => exact ih

/-- When the interpreter is dropped, every native goes that has not gone before and is not kept;
those that are kept go when they are dropped. -/
theorem times_close (hs : Session root told i) {s : State} (ha : i.close.state.Alone s) (n : Nat) :
    times n (told ++ s.released) = if n < i.state.received ∧ ¬ s.Keeps n then 1 else 0 := by
  obtain ⟨_, _, hclosed⟩ := State.foldl_letGo i.state.catalog.natives
    { i.state with catalog := ⟨.empty, .empty i.state.catalog.registry.root⟩ }
  obtain ⟨_, _, _, _, _, hs'⟩ := ha.eq
  have hclose : i.close.state = i.state.close := rfl
  rw [hclose, State.close, hclosed] at hs'
  have hmoves : i.state.Moves s := (State.moves_close i.state).trans ha.moves
  have hnone : ¬ s.catalog.Owns n := by
    rw [hs']
    exact nofun
  have hcalling : n ∉ s.calling := by
    rw [hmoves.calling, hs.calling]
    exact List.not_mem_nil
  have hreceived : s.received = i.state.received := by rw [hs']
  rw [(hmoves.custody hs.custody).times_released, hreceived]
  simp only [State.InUse, hnone, hcalling, not_false_iff, true_and, false_or]

end Session

/-- Natives are released exactly once. At any time in a session a native given has been
released once if no command or part owns it, no call of it is active and it is not kept, and
not at all otherwise. The drop of the interpreter releases all that are left but those that are
kept, whatever is made of these then; they are released when they are kept no more. The numbers
stand for the same natives all along: what is given is held under the next number, and nothing
held is lost. -/
theorem released_once (hs : Session root told i) :
    (∀ s, i.state.Passes s → ∀ n, times n (told ++ s.released) =
      if n < s.received ∧ ¬ s.catalog.Owns n ∧ ¬ (n ∈ s.calling ∨ s.Keeps n) then 1 else 0) ∧
    (∀ s, i.close.state.Alone s → ∀ n, times n (told ++ s.released) =
      if n < i.state.received ∧ ¬ s.Keeps n then 1 else 0) ∧
    ∀ s, i.state.Passes s →
      (∀ n name, ⟨s.received, n⟩ ∈ ((Run.register name n).after s).held) ∧
      (∀ n path name usage, ⟨s.received, n⟩ ∈ ((Run.addPart path name usage n).after s).held) ∧
      ∀ t, s.Reaches t → ∀ h ∈ s.held, h ∈ t.held := by
  refine ⟨fun s hp n => (hp.custody hs.wf hs.custody).times_released n,
    fun s ha n => hs.times_close ha n, fun s hp => ?_⟩
  have hw := hp.wf hs.wf
  exact ⟨fun n => (Run.mem_held_received hw n).1, fun n => (Run.mem_held_received hw n).2,
    fun t ht h hh => (ht.moves hw).held hh⟩

/-- A native that deletes the ensemble it is a part of while it runs, and registers another
native in the place of the ensemble. -/
def usurper : Native where
  tag := some "usurper"
  run _ := .delete "a" fun _ => .register "a" (some "heir") Program.echo fun _ => .done (.ok "")

/-- It has been released once after the call, and the other one has not. -/
theorem released_once_usurper :
    let i := ((((new "::r" 4).create "a").2.addPart "a" "p" none usurper).2.eval "a p").2
    times 0 ([] ++ i.state.released) = 1 ∧ times 1 ([] ++ i.state.released) = 0 ∧
      times 1 ([] ++ i.close.state.released) = 1 := by
  intro i
  have hs : Session "::r" [] i :=
    .operate (.operate (.operate (.new 4) (.create _)) (.addPart ..)) (.eval _)
  obtain ⟨hnow, hdrop, -⟩ := released_once hs
  have h := hnow i.state (.reaches (.refl _))
  refine ⟨(h 0).trans ?_, (h 1).trans ?_, (hdrop _ (.refl _) 1).trans ?_⟩ <;> decide +kernel

/-- The host looks up a part and keeps its native while the ensemble is deleted. No command or
part owns the native any more and no call of it is active, but it has not been released and can
be called; nor is it released with the interpreter, but when the host drops it. -/
theorem kept_native_outlives_its_part :
    let made := ((new "::r" 4).create "tool").2.addPart "tool" "run" none ⟨some "run", .echo⟩
    let i := ((made.2.ask (.part "tool" "run")).2.delete "tool").2
    Session "::r" [] i ∧ 0 < i.state.received ∧ ¬ i.state.catalog.Owns 0 ∧ 0 ∉ i.state.calling ∧
      times 0 ([] ++ i.state.released) = 0 ∧ times 0 ([] ++ i.close.state.released) = 0 ∧
      (i.callKept 0 ["x"]).1 = .ok (some "x") ∧
      times 0 ([] ++ (i.close.state.drop 0).released) = 1 := by
  intro made i
  have hs : Session "::r" [] i :=
    .operate (.operate (.operate (.operate (.new 4) (.create _)) (.addPart ..)) (.ask _))
      (.delete _)
  refine ⟨hs, ?_, ?_, ?_, ?_, ?_, ?_, ?_⟩ <;> decide +kernel

end Interpreter

end Ensembles
