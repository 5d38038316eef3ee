import Ensembles.Proofs.Reachable

/-!
# Failed changes

An operation that fails should leave things as they were. `Interpreter.failed_change_alike_iff`
says when the making of an ensemble and the adding of a part do so: always, unless the new
ensemble is to hang somewhere below a top-level ensemble that bears the very name which the
command of the new one gets (`Catalog.Displaces`). That one is destroyed first, with the
ensemble that was asked for.
-/

namespace Ensembles

namespace Catalog

variable {root : String} {c : Catalog} {e p : Ensemble} {parent : EnsembleId} {name text : String}

/-- The path that `text` writes asks for a new part of the ensemble `p`, and the private name
for it is that of the top-level ensemble above `p`. -/
def Displaces (c : Catalog) (text : String) : Prop :=
  ∃ names name p top below, ListText.split text = .ok (names ++ [name]) ∧ names ≠ [] ∧
    c.resolve names = .ok p.id ∧ c.registry.get? p.id = some p ∧ p.parts.find? name = none ∧
    c.registry.trail p.id = some (top, below) ∧
    (c.commands.find? (c.registry.privateName p.id name)).map (·.handle) = some top.command

/-! ## What a removal takes along -/

theorem Wf.get?_prune_eq_none_iff (hw : c.Wf root) (he : e ∈ c.registry.ensembles)
    (hp : c.registry.get? parent = some p) :
    (c.prune e).registry.get? parent = none ↔ Under c.registry.ensembles e.command p := by
  obtain ⟨hpm, hid⟩ := (Registry.get?_eq_some_iff hw.registry).1 hp
  have hwp := (hw.prune he).registry
  constructor
  · intro hn
    apply Classical.byContradiction
    intro hu
    have hm : p.without e ∈ (c.prune e).registry.ensembles :=
      (Registry.mem_prune_iff hw.registry).2 ⟨p, hpm, hu, rfl⟩
    have hs := (Registry.get?_eq_some_iff hwp).2 ⟨hm, (p.id_without e).trans hid⟩
    rw [hn] at hs
    cases hs
  · intro hu
    cases hq : (c.prune e).registry.get? parent with
    | none => rfl
    | some q =>
      obtain ⟨hqm, hqid⟩ := (Registry.get?_eq_some_iff hwp).1 hq
      obtain ⟨y, hy, huy, rfl⟩ := (Registry.mem_prune_iff hw.registry).1 hqm
      rw [Ensemble.id_without] at hqid
      rw [hw.registry.eq_of_id hy hpm (hqid.trans hid.symm)] at huy
      exact absurd hu huy

/-- To clear the private name of a part that there is not yet takes away the ensemble it would
hang in only if the name is that of the top-level ensemble above. -/
theorem Wf.get?_clear_eq_none_iff (hw : c.Wf root) (hp : c.registry.get? parent = some p)
    (hn : p.parts.find? name = none) :
    (c.delete (c.registry.privateName parent name)).catalog.registry.get? parent = none ↔
      ∃ top below, c.registry.trail parent = some (top, below) ∧
        (c.commands.find? (c.registry.privateName parent name)).map (·.handle) =
          some top.command := by
  obtain ⟨hpm, hid⟩ := (Registry.get?_eq_some_iff hw.registry).1 hp
  obtain ⟨top, below, ht, htop, hpath⟩ := Registry.trail_spec hw.registry hpm
  rw [hid] at ht
  have htm := (Registry.bound?_eq_some_iff hw.registry).2 ⟨hpath.top_mem, rfl⟩
  simp only [ht, Option.some.injEq, Prod.mk.injEq]
  constructor
  · intro hnone
    obtain ⟨-, hd⟩ | ⟨a, -, -, hd⟩ | ⟨a, e, hf, hb, hd⟩ := delete_cases hw
      (c.registry.privateName parent name) <;> rw [hd] at hnone
    · rw [hp] at hnone
      cases hnone
    · rw [hp] at hnone
      cases hnone
    · obtain ⟨hem, hec⟩ := (Registry.bound?_eq_some_iff hw.registry).1 hb
      have hu := (hw.get?_prune_eq_none_iff hem hp).1 hnone
      have hep : e.parent = none := by
        apply Option.eq_none_iff_forall_ne_some.2
        intro link hl
        -- Else it were the very part that there is not.
        obtain ⟨ham, han⟩ := (CommandTable.find?_eq_some_iff hw.commands).1 hf
        have hown := (hw.owner hem ham hec).2 link hl
        obtain ⟨hlid, hlname⟩ := Registry.privateName_inj (hown.symm.trans han)
        obtain ⟨q, hqm, hqid, -, usage, hq⟩ := hw.registry.hangs e hem link hl
        have hqp := hw.registry.eq_of_id hqm hpm (hqid.trans (hlid.trans hid.symm))
        rw [hqp] at hq
        exact (PartTable.find?_eq_none_iff (hw.registry.sorted p hpm)).1 hn _ hq hlname
      have hte := hw.registry.eq_top hem hep hu hpath htop
      refine ⟨top, below, ⟨rfl, rfl⟩, ?_⟩
      rw [hf, hte, hec]
      rfl
  · rintro ⟨_, _, ⟨rfl, rfl⟩, hf⟩
    obtain ⟨a, hf, hh⟩ := Option.map_eq_some_iff.1 hf
    rw [hw.delete_eq hf (hh ▸ htm)]
    exact (hw.get?_prune_eq_none_iff hpath.top_mem hp).2 hpath.under

/-! ## How an attempt can end -/

/-- The attempt gives the id of an ensemble of the catalogue that it leaves. -/
def Finds (edit : Edit EnsembleId) : Prop :=
  ∃ id e, edit.outcome = .ok id ∧ edit.catalog.registry.get? id = some e

theorem commandOf_of_finds {edit : Edit EnsembleId} (h : Finds edit) :
    ∃ handle, (create.commandOf edit).outcome = .ok handle := by
  obtain ⟨id, e, ho, hg⟩ := h
  refine ⟨e.command, ?_⟩
  simp only [create.commandOf, ho, Except.bind, hg]

theorem Wf.finds_keep (hw : c.Wf root) {h : Handle} {id : EnsembleId}
    (hb : c.registry.idOf? h = some id) : Finds (c.keep id) := by
  obtain ⟨e, he, -, rfl⟩ := hw.registry.idOf?_eq_some_iff.1 hb
  exact ⟨e.id, e, rfl, (Registry.get?_eq_some_iff hw.registry).2 ⟨he, rfl⟩⟩

theorem locateTop_cases (hw : c.Wf root) (name : String) :
    (∃ cause, c.locateTop name = c.refuse cause) ∨ Finds (c.locateTop name) := by
  unfold locateTop
  split
  · unfold createTop
    split
    · exact .inl ⟨_, rfl⟩
    · exact .inr ⟨_, _, rfl, List.find?_cons_of_pos (decide_eq_true rfl)⟩
  · split
    · exact .inl ⟨_, rfl⟩
    · rename_i hb
      exact .inr (hw.finds_keep hb)

/-- A nested ensemble fails to be made without a trace, or because what it was to hang in has
been destroyed for its name. -/
theorem locateNested_cases (hw : c.Wf root) (parent : EnsembleId) (name : String) :
    let cleared := (c.delete (c.registry.privateName parent name)).catalog
    let edit := c.locateNested parent name
    (∃ cause, edit = c.refuse cause) ∨ Finds edit ∨
      ∃ p, c.registry.get? parent = some p ∧ p.parts.find? name = none ∧
        cleared.registry.get? parent = none ∧ edit.outcome = .error (.invalidName name) ∧
        edit.catalog = cleared.skip := by
  intro cleared edit
  simp only [edit, locateNested]
  split
  · obtain ⟨-, h⟩ | h | ⟨p, q, parts, -, -, hq, -, ho, hc⟩ := createNested_cases hw parent name
    · exact .inl h
    · exact .inr (.inr h)
    · let new := cleared.registry.fresh c.commands.nextHandle (some ⟨parent, name⟩)
      refine .inr (.inl ⟨_, new, ho, ?_⟩)
      have hd := hw.delete (c.registry.privateName parent name)
      obtain ⟨hqm, rfl⟩ := (Registry.get?_eq_some_iff hd.registry).1 hq
      rw [hc, Registry.get?, Registry.modifyParts_add hd.registry hqm]
      exact List.find?_cons_of_pos (decide_eq_true rfl)
  · split
    · exact .inl ⟨_, rfl⟩
    · rename_i hb
      exact .inr (.inl (hw.finds_keep hb))
  · exact .inl ⟨_, rfl⟩

theorem locateNested_of_absent (hp : c.registry.get? parent = some p)
    (hn : p.parts.find? name = none) :
    c.locateNested parent name = c.createNested parent name := by
  unfold locateNested
  rw [hp, Option.bind_some, hn]

theorem create_of_nested {names : List String}
    (hs : ListText.split text = .ok (names ++ [name])) (hne : names ≠ []) :
    c.create text = match c.resolve names with
      | .error cause => c.refuse cause
      | .ok parent => create.commandOf (c.locateNested parent name) := by
  obtain ⟨first, rest, rfl⟩ := List.exists_cons_of_ne_nil hne
  unfold create
  rw [hs]
  cases hr : rest ++ [name] with
  | nil => simp at hr
  | cons second others =>
    have hl : first :: second :: others = (first :: rest) ++ [name] := by rw [List.cons_append, hr]
    simp only [List.cons_append, hr]
    rw [hl, List.dropLast_concat, List.getLast?_concat]
    rfl

/-- An attempt to make an ensemble that fails changes nothing, unless it displaces. -/
theorem create_of_not_displaces (hw : c.Wf root) (hd : ¬ c.Displaces text) {cause : Cause}
    (he : (c.create text).outcome = .error cause) : c.create text = c.refuse cause := by
  have hrefuse {cause' : Cause} (h : c.create text = c.refuse cause') :
      c.create text = c.refuse cause := by
    rw [h] at he
    rw [h, Except.error.inj he]
  have hfinds {edit : Edit EnsembleId} (h : c.create text = create.commandOf edit)
      (hf : Finds edit) : c.create text = c.refuse cause := by
    obtain ⟨handle, ho⟩ := commandOf_of_finds hf
    rw [h, ho] at he
    cases he
  cases hs : ListText.split text with
  | error e => exact hrefuse (by rw [create, hs])
  | ok words =>
    rcases List.eq_nil_or_concat words with rfl | ⟨names, name, rfl⟩
    · exact hrefuse (by rw [create, hs])
    rw [List.concat_eq_append] at hs
    by_cases hne : names = []
    · have hc : c.create text = create.commandOf (c.locateTop name) := by
        rw [create, hs, hne]
        rfl
      obtain ⟨cause', h⟩ | h := locateTop_cases hw name
      · exact hrefuse (hc.trans (congrArg create.commandOf h))
      · exact hfinds hc h
    · have hc := create_of_nested (c := c) hs hne
      cases hr : c.resolve names with
      | error cause' => exact hrefuse (by rw [hc, hr])
      | ok parent =>
        replace hc : c.create text = create.commandOf (c.locateNested parent name) := by
          rw [hc, hr]
        obtain ⟨cause', h⟩ | h | ⟨p, hp, hn, hclear, -⟩ := locateNested_cases hw parent name
        · exact hrefuse (hc.trans (congrArg create.commandOf h))
        · exact hfinds hc h
        · obtain ⟨top, below, ht, hf⟩ := (hw.get?_clear_eq_none_iff hp hn).1 hclear
          obtain ⟨-, rfl⟩ := (Registry.get?_eq_some_iff hw.registry).1 hp
          exact absurd ⟨names, name, p, top, below, hs, hne, hr, hp, hn, ht, hf⟩ hd

theorem create_of_displaces (hw : c.Wf root) (hd : c.Displaces text) :
    (∃ cause, (c.create text).outcome = .error cause) ∧
      ∃ p ∈ c.registry.ensembles, p ∉ (c.create text).catalog.registry.ensembles := by
  obtain ⟨names, name, p, top, below, hs, hne, hr, hp, hn, ht, hf⟩ := hd
  have hclear := (hw.get?_clear_eq_none_iff hp hn).2 ⟨top, below, ht, hf⟩
  have hcreate : c.create text = create.commandOf (c.createNested p.id name) := by
    rw [create_of_nested hs hne, hr, ← locateNested_of_absent hp hn]
  rw [hcreate]
  obtain ⟨h, -⟩ | ⟨-, -, -, -, ho, hc⟩ | ⟨-, q, -, -, -, hq, -⟩ := createNested_cases hw p.id name
  · exact absurd hn (h p hp)
  · refine ⟨⟨.invalidName name, ?_⟩, p, (Registry.get?_eq_some_iff hw.registry).1 hp |>.1, ?_⟩
    · simp only [create.commandOf, ho, Except.bind]
    · show p ∉ (c.createNested p.id name).catalog.registry.ensembles
      rw [hc]
      intro hm
      have := List.find?_eq_none.1 hclear p hm
      simp at this
  · rw [hclear] at hq
    cases hq

theorem addNative_of_error {path : String} {usage : Option String} {h : Hosted} {cause : Cause}
    (he : (c.addNative path name usage h).outcome = .error cause) :
    (c.addNative path name usage h).catalog = c := by
  unfold addNative at he ⊢
  split
  · rfl
  · rename_i hc
    rw [hc] at he
    cases he

end Catalog

/-- The commands, the ensembles with their parts, the maps that lead to them, and the variables
are the same. -/
structure State.Alike (s t : State) : Prop where
  names : s.catalog.commands.byName = t.catalog.commands.byName
  commands : s.catalog.commands.entries = t.catalog.commands.entries
  bound : s.catalog.registry.byCommand = t.catalog.registry.byCommand
  ensembles : s.catalog.registry.ensembles = t.catalog.registry.ensembles
  globals : s.globals = t.globals
  locals : s.locals = t.locals

/-- The state after a change of its catalogue. -/
def State.edited {α : Type} (s : State) (edit : Edit α) : State :=
  edit.freed.foldl letGo { s with catalog := edit.catalog }

/-- Natives that are let go leave no other trace. -/
theorem State.alike_edited {α : Type} (s : State) (edit : Edit α) :
    (s.edited edit).Alike { s with catalog := edit.catalog } := by
  obtain ⟨orphans, released, hf⟩ := foldl_letGo edit.freed { s with catalog := edit.catalog }
  rw [edited, hf]
  exact ⟨rfl, rfl, rfl, rfl, rfl, rfl⟩

namespace Interpreter

variable {i : Interpreter} {α : Type}

/-- What comes of a change of the catalogue by the host. -/
theorem run_noting_edit (n : Note) (f : Catalog → Edit α) :
    i.run (Run.noting n (Run.edit f)) =
      ((f i.state.catalog).outcome.mapError fun cause => (Error.of cause).note n,
        ⟨i.limit, i.state.edited (f i.state.catalog)⟩) := by
  unfold run Run.noting Run.mapError Run.edit State.edited
  simp only
  cases (f i.state.catalog).outcome <;> rfl

theorem addPart_eq (path name : String) (usage : Option String) (n : Native) :
    i.addPart path name usage n =
      run ⟨i.limit, { i.state with received := i.state.received + 1 }⟩
        (Run.noting (.addingTo path)
          (Run.edit (·.addNative path name usage ⟨i.state.received, n⟩))) := by
  rw [addPart, Run.addPart]
  rfl

theorem eq_error_of_mapError {ε ε' : Type} {x : Except ε α} {g : ε → ε'} {e : ε'}
    (h : x.mapError g = .error e) : ∃ cause, x = .error cause := by
  cases x with
  | error cause => exact ⟨cause, rfl⟩
  | ok a => cases h

/-- A failed operation on ensembles leaves all commands, ensembles and variables as they were,
except that the making of an ensemble may displace. It fails then, and does not. -/
theorem failed_change_alike_iff {root : String} (hi : Reachable root i) :
    (∀ text e, (i.create text).1 = .error e →
      ((i.create text).2.state.Alike i.state ↔ ¬ i.state.catalog.Displaces text)) ∧
    (∀ text, i.state.catalog.Displaces text → ∃ e, (i.create text).1 = .error e) ∧
    ∀ path name usage n e, (i.addPart path name usage n).1 = .error e →
      (i.addPart path name usage n).2.state.Alike i.state := by
  refine ⟨fun text e he => ?_, fun text hd => ?_, fun path name usage n e he => ?_⟩
  · rw [create, Run.create, run_noting_edit] at he ⊢
    obtain ⟨cause, hc⟩ := eq_error_of_mapError he
    refine ⟨fun ha hd => ?_, fun hd => ?_⟩
    · obtain ⟨-, p, hp, hgone⟩ := Catalog.create_of_displaces hi.wf hd
      have hens := (i.state.alike_edited (i.state.catalog.create text)).ensembles.symm.trans
        ha.ensembles
      exact hgone (hens ▸ hp)
    · rw [Catalog.create_of_not_displaces hi.wf hd hc]
      exact ⟨rfl, rfl, rfl, rfl, rfl, rfl⟩
  · obtain ⟨⟨cause, hc⟩, -⟩ := Catalog.create_of_displaces hi.wf hd
    rw [create, Run.create, run_noting_edit, hc]
    exact ⟨_, rfl⟩
  · rw [addPart_eq, run_noting_edit] at he ⊢
    obtain ⟨cause, hc⟩ := eq_error_of_mapError he
    have ha := State.alike_edited { i.state with received := i.state.received + 1 }
      (i.state.catalog.addNative path name usage ⟨i.state.received, n⟩)
    rw [Catalog.addNative_of_error hc] at ha
    exact ⟨ha.names, ha.commands, ha.bound, ha.ensembles, ha.globals, ha.locals⟩

/-- So it is for the ensemble that bears the name of its own part's command. -/
theorem failed_change_alike_iff_own_name :
    let i := ((new "R" 100).create "R::subensembles::1::x").2
    (i.create "R::subensembles::1::x x").2.state.Alike i.state ↔
      ¬ i.state.catalog.Displaces "R::subensembles::1::x x" :=
  (failed_change_alike_iff (.create _ (.new 100))).1 _
    ⟨.invalidName "x", [.creating "R::subensembles::1::x x"]⟩ (by decide +kernel)

/-- That ensemble is gone when the making of the part has failed. -/
theorem failed_create_destroys :
    let i := ((new "R" 100).create "R::subensembles::1::x").2
    Reachable "R" i ∧
      (i.create "R::subensembles::1::x x").1 =
        .error ⟨.invalidName "x", [.creating "R::subensembles::1::x x"]⟩ ∧
      ¬ (i.create "R::subensembles::1::x x").2.state.Alike i.state := by
  refine ⟨.create _ (.new 100), by decide +kernel, fun ha => ?_⟩
  have hl := congrArg List.length ha.ensembles
  revert hl
  decide +kernel

end Interpreter

end Ensembles
