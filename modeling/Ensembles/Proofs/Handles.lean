import Ensembles.Proofs.Depth
import Ensembles.Proofs.Release

/-!
# Handles and ids

Handles of commands and ids of ensembles are issued in turn, and a count of them never goes
back. So the commands of a later state are some of those there were and new ones with handles
not issued before (`CommandTable.GrowsTo`), as it is with ensembles (`Registry.GrowsBy`). A
state is later than another one (`State.Later`) if runs, in the middle or at their end, and
operations of the host lead from that one to it.

`Interpreter.handles_never_reused` says what this comes to: a handle denotes the command that
it was issued for as long as that is there, and nothing for ever after, whatever is made by the
same name; and so it is with ids.
-/

namespace Ensembles

/-! ## Growth of the commands -/

namespace CommandTable

variable {t t' t'' : CommandTable} {a : CommandEntry}

/-- The commands of `t'` are some of those of `t` and new ones with later handles. -/
structure GrowsTo (t t' : CommandTable) : Prop where
  issued : t.issued ≤ t'.issued
  entries : ∀ a ∈ t'.entries, a ∈ t.entries ∨ t.issued < a.handle.number

theorem GrowsTo.refl (t : CommandTable) : t.GrowsTo t :=
  ⟨Nat.le_refl _, fun _ => .inl⟩

theorem GrowsTo.trans (h : t.GrowsTo t') (h' : t'.GrowsTo t'') : t.GrowsTo t'' := by
  refine ⟨Nat.le_trans h.issued h'.issued, fun a ha => ?_⟩
  rcases h'.entries a ha with ha | hlt
  · exact h.entries a ha
  · exact .inr (Nat.lt_of_le_of_lt h.issued hlt)

theorem grows_erase (t : CommandTable) (hs : List Handle) : t.GrowsTo (t.erase hs) :=
  ⟨Nat.le_refl _, fun _ ha => .inl (mem_erase.1 ha).1⟩

theorem grows_install (t : CommandTable) (name : String) (target : Target) :
    t.GrowsTo (t.install name target) :=
  ⟨Nat.le_succ _, List.forall_mem_cons.2 ⟨.inr (Nat.lt_succ_self _), fun _ => .inl⟩⟩

/-- A handle that was issued denotes what it did, or nothing. -/
theorem GrowsTo.get?_of_le (hg : t.GrowsTo t') (hw : t.Wf) (hw' : t'.Wf) {h : Handle}
    (hle : h.number ≤ t.issued) (ha : t'.get? h = some a) : t.get? h = some a := by
  obtain ⟨ham, rfl⟩ := (get?_eq_some_iff hw').1 ha
  rcases hg.entries a ham with ham | hlt
  · exact (get?_eq_some_iff hw).2 ⟨ham, rfl⟩
  · exact absurd hlt (Nat.not_lt_of_le hle)

end CommandTable

namespace Catalog

variable {root : String} {c : Catalog}

theorem Wf.commands_grow_delete (hw : c.Wf root) (name : String) :
    c.commands.GrowsTo (c.delete name).catalog.commands := by
  obtain ⟨-, hd⟩ | ⟨a, -, -, hd⟩ | ⟨a, e, -, -, hd⟩ := delete_cases hw name <;> rw [hd]
  · exact .refl _
  · exact CommandTable.grows_erase ..
  · exact CommandTable.grows_erase ..

theorem Wf.commands_grow_put (hw : c.Wf root) (name : String) (target : Target) :
    c.commands.GrowsTo (c.put name target).catalog.commands := by
  rw [put_catalog hw]
  exact (hw.commands_grow_delete name).trans (CommandTable.grows_install ..)

theorem Wf.commands_grow_locateTop (hw : c.Wf root) (name : String) :
    c.commands.GrowsTo (c.locateTop name).catalog.commands := by
  unfold Catalog.locateTop
  split
  · unfold Catalog.createTop
    split
    · exact .refl _
    · exact hw.commands_grow_put name .ensemble
  · split <;> exact .refl _

theorem Wf.commands_grow_locateNested (hw : c.Wf root) (parent : EnsembleId) (name : String) :
    c.commands.GrowsTo (c.locateNested parent name).catalog.commands := by
  unfold Catalog.locateNested
  split
  · have hd := hw.commands_grow_delete (c.registry.privateName parent name)
    obtain ⟨-, cause, h⟩ | ⟨p, -, -, -, -, h⟩ | ⟨p, q, parts, -, -, -, -, -, h⟩ :=
      createNested_cases hw parent name <;> rw [h]
    · exact .refl _
    · exact hd.trans ⟨Nat.le_succ _, fun _ => .inl⟩
    · exact hd.trans (CommandTable.grows_install ..)
  · split <;> exact .refl _
  · exact .refl _

theorem commands_addPart {id : EnsembleId} {name : String} {usage : Option String}
    {handler : Handler} {c' : Catalog} (h : c.addPart id name usage handler = .ok c') :
    c'.commands = c.commands := by
  obtain ⟨e, parts, -, -, rfl⟩ := addPart_eq_ok h
  rfl

theorem commands_addNative (c : Catalog) (path name : String) (usage : Option String)
    (h : Hosted) : (c.addNative path name usage h).catalog.commands = c.commands := by
  obtain hc | ⟨id, hc⟩ := addNative_cases c path name usage h
  · rw [hc]
  · exact commands_addPart hc

theorem commands_addProcedure {id : EnsembleId} {name body : String} {signature : Signature}
    {c' : Catalog} (h : c.addProcedure id name signature body = .ok c') :
    c'.commands = c.commands := by
  obtain ⟨e, -, ha⟩ := addProcedure_eq_ok h
  exact commands_addPart ha

/-- All commands that grow from a table keep growing from it. -/
theorem preserved_commands_grow (root : String) (t : CommandTable) :
    Preserved fun c => c.Wf root ∧ t.GrowsTo c.commands where
  put name _ hc := ⟨hc.1.put name nofun, hc.2.trans (hc.1.commands_grow_put name _)⟩
  delete name hc := ⟨hc.1.delete name, hc.2.trans (hc.1.commands_grow_delete name)⟩
  locateTop name hc := ⟨hc.1.locateTop name, hc.2.trans (hc.1.commands_grow_locateTop name)⟩
  locateNested parent name hc :=
    ⟨hc.1.locateNested parent name, hc.2.trans (hc.1.commands_grow_locateNested parent name)⟩
  addNative path name usage h hc := by
    rw [commands_addNative]
    exact ⟨hc.1.addNative path name usage h, hc.2⟩
  addProcedure h hc := by
    rw [commands_addProcedure h]
    exact ⟨hc.1.addProcedure h, hc.2⟩

end Catalog

/-! ## Later states -/

/-- The states that come after another one: at the end of runs and in the middle of them,
inside procedures and calls of natives, and between the operations of a host. -/
inductive State.Later : State → State → Prop where
  | trans {s t u : State} : Later s t → Later t u → Later s u
  | reaches {s t : State} : s.Reaches t → Later s t
  | enter (s : State) (scope : Scope) : Later s (s.enter scope)
  | leave (s : State) : Later s s.leave
  | beginCall {s : State} {h : Hosted} : h ∈ s.atHand → Later s (s.beginCall h)
  | endCall (s : State) (h : Hosted) : Later s (s.endCall h)
  /-- The host takes out what was written and released. -/
  | drain (s : State) : Later s { s with output := "", released := [] }

namespace State

variable {s t u : State}

theorem Passes.later (hp : s.Passes t) : s.Later t := by
  induction hp with
  | reaches hr => exact .reaches hr
  | enter scope hr _ ih => exact .trans (.reaches hr) (.trans (.enter _ scope) ih)
  | call hr hm _ ih => exact .trans (.reaches hr) (.trans (.beginCall hm) ih)

/-- What holds of a catalogue, and is preserved, holds later. -/
theorem Later.catalog {P : Catalog → Prop} (hP : Catalog.Preserved P) (hl : s.Later t)
    (hs : P s.catalog) : P t.catalog := by
  induction hl with
  | trans _ _ ih₁ ih₂ => exact ih₂ (ih₁ hs)
  | reaches hr => exact hr.catalog hP hs
  | enter s scope => exact hs
  | leave s => exact hs
  | beginCall _ => exact hs
  | endCall s h =>
    rw [catalog_endCall]
    exact hs
  | drain s => exact hs

end State

theorem Interpreter.Operates.later {i j : Interpreter} (ho : i.Operates j) :
    i.state.Later j.state :=
  .reaches ho.reaches

namespace Catalog

variable {root : String} {c c' : Catalog} {a : CommandEntry} {e x : Ensemble} {h : Handle}
  {id : EnsembleId}

/-- The handle denotes no command and no ensemble. -/
structure Forgotten (c : Catalog) (h : Handle) : Prop where
  command : c.commands.get? h = none
  ensemble : c.isEnsemble h = false

/-- What is bound to an ensemble is a command. -/
theorem Wf.forgotten (hw : c.Wf root) (hn : c.commands.get? h = none) : c.Forgotten h := by
  refine ⟨hn, ?_⟩
  rw [isEnsemble, Option.isSome_eq_false_iff, Option.isNone_iff_eq_none]
  refine Option.eq_none_iff_forall_ne_some.2 fun id he => ?_
  obtain ⟨e, hem, rfl, -⟩ := hw.registry.idOf?_eq_some_iff.1 he
  obtain ⟨a, ha, hh, -⟩ := hw.owned e hem
  have hget := (CommandTable.get?_eq_some_iff hw.commands).2 ⟨ha, hh⟩
  rw [hn] at hget
  cases hget

/-- The target of a command tells whether it is bound to an ensemble. -/
theorem Wf.isEnsemble_iff_target (hw : c.Wf root) (ha : c.commands.get? h = some a) :
    c.isEnsemble h = true ↔ a.target = .ensemble := by
  obtain ⟨ham, rfl⟩ := (CommandTable.get?_eq_some_iff hw.commands).1 ha
  rw [isEnsemble, Option.isSome_iff_exists]
  constructor
  · rintro ⟨id, hid⟩
    obtain ⟨e, hem, hc, -⟩ := hw.registry.idOf?_eq_some_iff.1 hid
    exact (hw.owner hem ham hc).1
  · intro ht
    obtain ⟨e, hem, hc⟩ := hw.bound a ham ht
    exact ⟨e.id, hw.registry.idOf?_eq_some_iff.2 ⟨e, hem, hc, rfl⟩⟩

theorem Wf.le_issued_of_get? (hw : c.Wf root) (ha : c.commands.get? h = some a) :
    h.number ≤ c.commands.issued := by
  obtain ⟨ham, rfl⟩ := (CommandTable.get?_eq_some_iff hw.commands).1 ha
  exact hw.commands.issued a ham

/-- A command is found by its name as long as it is found by its handle. -/
theorem Wf.find?_iff_get? (hw : c.Wf root) :
    c.commands.find? a.name = some a ↔ c.commands.get? a.handle = some a := by
  rw [CommandTable.find?_eq_some_iff hw.commands, CommandTable.get?_eq_some_iff hw.commands,
    and_iff_left rfl, and_iff_left rfl]

/-- The catalogue `c'` is one that `c` can become. -/
structure Becomes (root : String) (c c' : Catalog) : Prop where
  before : c.Wf root
  after : c'.Wf root
  commands : c.commands.GrowsTo c'.commands
  registry : c.registry.GrowsBy (fun _ => True) c'.registry

namespace Becomes

variable (hb : Becomes root c c')

include hb

theorem get?_of_le (hle : h.number ≤ c.commands.issued) (ha : c'.commands.get? h = some a) :
    c.commands.get? h = some a :=
  hb.commands.get?_of_le hb.before.commands hb.after.commands hle ha

/-- A handle that denotes nothing any more never denotes anything again. -/
theorem forgotten (hle : h.number ≤ c.commands.issued) (hn : c.commands.get? h = none) :
    c'.Forgotten h := by
  refine hb.after.forgotten (Option.eq_none_iff_forall_ne_some.2 fun a ha => ?_)
  rw [hb.get?_of_le hle ha] at hn
  cases hn

/-- An id that was issued denotes the ensemble it did, or none. -/
theorem get?_of_id_le (hle : id.number ≤ c.registry.issued)
    (hx : c'.registry.get? id = some x) :
    ∃ e, c.registry.get? id = some e ∧ e.Stays x ∧ e.home = x.home := by
  obtain ⟨hxm, rfl⟩ := (Registry.get?_eq_some_iff hb.after.registry).1 hx
  obtain ⟨e, he, hs⟩ | ⟨hlt, -⟩ := hb.registry.ensembles x hxm
  · refine ⟨e, (Registry.get?_eq_some_iff hb.before.registry).2 ⟨he, hs.id⟩, hs, ?_⟩
    rw [hb.before.registry.home e he, hb.after.registry.home x hxm, hb.before.root, hb.after.root,
      hs.id]
  · exact absurd hlt (Nat.not_lt_of_le hle)

theorem get?_of_id_none (hle : id.number ≤ c.registry.issued) (hn : c.registry.get? id = none) :
    c'.registry.get? id = none := by
  refine Option.eq_none_iff_forall_ne_some.2 fun x hx => ?_
  obtain ⟨e, he, -⟩ := hb.get?_of_id_le hle hx
  rw [hn] at he
  cases he

/-- A command that is not found any more never is again, by its handle. -/
theorem forgotten_of_find? (ha : c.commands.get? h = some a)
    (hf : c'.commands.find? a.name ≠ some a) : c'.Forgotten h := by
  have hle := hb.before.le_issued_of_get? ha
  obtain ⟨-, rfl⟩ := (CommandTable.get?_eq_some_iff hb.before.commands).1 ha
  refine hb.after.forgotten (Option.eq_none_iff_forall_ne_some.2 fun b hget => ?_)
  have hba := hb.get?_of_le hle hget
  rw [ha, Option.some.injEq] at hba
  subst hba
  exact hf (hb.after.find?_iff_get?.2 hget)

end Becomes

end Catalog

theorem State.Later.becomes {root : String} {s t : State} (hl : s.Later t)
    (hw : s.catalog.Wf root) : Catalog.Becomes root s.catalog t.catalog where
  before := hw
  after := hl.catalog (Catalog.preserved_wf root) hw
  commands := (hl.catalog (Catalog.preserved_commands_grow root s.catalog.commands)
    ⟨hw, .refl _⟩).2
  registry := (hl.catalog (Catalog.preserved_grows root s.catalog.registry) ⟨hw, .refl _⟩).2

namespace Interpreter

/-- A handle denotes the command that it was issued for as long as that is there, and nothing
ever after: no later command gets the handle, whatever it is called. So it is with the ids of
ensembles. -/
theorem handles_never_reused {root : String} {i : Interpreter} (hi : Reachable root i)
    {t u : State} (ht : i.state.Later t) (hu : t.Later u) :
    let c := i.state.catalog
    let c' := t.catalog
    let c'' := u.catalog
    (∀ h a, c.commands.get? h = some a →
      (c'.commands.find? a.name = some a →
        c'.commands.get? h = some a ∧ c'.isEnsemble h = c.isEnsemble h) ∧
      (c'.commands.find? a.name ≠ some a → c'.Forgotten h ∧ c''.Forgotten h)) ∧
    (∀ h, h.number ≤ c.commands.issued → c.commands.get? h = none → c'.Forgotten h) ∧
    (∀ id e, c.registry.get? id = some e →
      (∀ x, c'.registry.get? id = some x → e.Stays x ∧ e.home = x.home) ∧
      (c'.registry.get? id = none → c''.registry.get? id = none)) ∧
    ∀ id, id.number ≤ c.registry.issued → c.registry.get? id = none →
      c'.registry.get? id = none := by
  intro c c' c''
  have hb : Catalog.Becomes root c c' := ht.becomes hi.wf
  have hb' : Catalog.Becomes root c' c'' := hu.becomes hb.after
  refine ⟨fun h a ha => ⟨fun hf => ?_, fun hf => ?_⟩, fun h => hb.forgotten,
    fun id e he => ⟨fun x hx => ?_, fun hn => ?_⟩, fun id => hb.get?_of_id_none⟩
  · obtain ⟨-, rfl⟩ := (CommandTable.get?_eq_some_iff hb.before.commands).1 ha
    have hget := hb.after.find?_iff_get?.1 hf
    refine ⟨hget, Bool.eq_iff_iff.2 ?_⟩
    rw [hb.after.isEnsemble_iff_target hget, hb.before.isEnsemble_iff_target ha]
  · have hgone := hb.forgotten_of_find? ha hf
    have hle := Nat.le_trans (hb.before.le_issued_of_get? ha) hb.commands.issued
    exact ⟨hgone, hb'.forgotten hle hgone.command⟩
  · obtain ⟨hem, rfl⟩ := (Registry.get?_eq_some_iff hb.before.registry).1 he
    obtain ⟨e', he', hs⟩ := hb.get?_of_id_le (hb.before.registry.issued e hem) hx
    rw [he, Option.some.injEq] at he'
    exact he' ▸ hs
  · obtain ⟨hem, rfl⟩ := (Registry.get?_eq_some_iff hb.before.registry).1 he
    have hle := Nat.le_trans (hb.before.registry.issued e hem) hb.registry.issued
    exact hb'.get?_of_id_none hle hn

/-- With a top-level ensemble the one in it goes. When both have been made again by the same
names, their handles and ids still denote nothing. -/
theorem handles_never_reused_made_again :
    let i := ((new "::r" 4).create "a").2.create "a b" |>.2
    let j := (i.delete "a").2
    let k := ((j.create "a").2.create "a b").2
    i.find? "a" = some ⟨8⟩ ∧ i.find? "::r::subensembles::1::b" = some ⟨9⟩ ∧
      k.find? "a" = some ⟨10⟩ ∧ k.find? "::r::subensembles::3::b" = some ⟨11⟩ ∧
      k.state.catalog.Forgotten ⟨8⟩ ∧ k.state.catalog.Forgotten ⟨9⟩ ∧
      k.state.catalog.registry.get? ⟨1⟩ = none ∧ k.state.catalog.registry.get? ⟨2⟩ = none := by
  intro i j k
  have hi : Reachable "::r" i := .create _ (.create _ (.new 4))
  have hj : i.state.Later j.state := (Operates.delete "a").later
  have hk : j.state.Later k.state :=
    .trans (Operates.create "a").later (Operates.create "a b").later
  obtain ⟨hcommands, -, hids, -⟩ := handles_never_reused hi hj hk
  have hcommand (h : Handle) (name : String)
      (hn : (i.state.catalog.commands.get? h).map (·.name) = some name)
      (hf : (j.find? name).isNone = true) : k.state.catalog.Forgotten h := by
    obtain ⟨a, ha, rfl⟩ := Option.map_eq_some_iff.1 hn
    have hgone := CommandTable.find?_of_unnamed (Option.isNone_iff_eq_none.1 hf)
    exact ((hcommands h a ha).2 (hgone ▸ nofun)).2
  have hid (id : EnsembleId) (hl : (i.state.catalog.registry.get? id).isSome = true)
      (hd : (j.state.catalog.registry.get? id).isNone = true) :
      k.state.catalog.registry.get? id = none := by
    obtain ⟨e, he⟩ := Option.isSome_iff_exists.1 hl
    exact (hids id e he).2 (Option.isNone_iff_eq_none.1 hd)
  refine ⟨by decide +kernel, by decide +kernel, by decide +kernel, by decide +kernel,
    hcommand ⟨8⟩ "a" ?_ ?_, hcommand ⟨9⟩ "::r::subensembles::1::b" ?_ ?_, hid ⟨1⟩ ?_ ?_,
    hid ⟨2⟩ ?_ ?_⟩ <;> decide +kernel

end Interpreter

end Ensembles
