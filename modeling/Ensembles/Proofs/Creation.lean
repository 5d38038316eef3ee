import Ensembles.Native.Stock
import Ensembles.Proofs.Atomicity
import Ensembles.Proofs.LastingPaths

/-!
# What is made is found

An ensemble is made by walking its path with `Catalog.locateTop` or `Catalog.locateNested`, and it
is looked up with `Catalog.resolve`. Both follow full names: where a path resolves, nothing is made
(`Catalog.Wf.create_of_resolveText`), and where an ensemble is made, the words of the path spell it
afterwards (`Catalog.Wf.exists_of_create`), whatever the command of the new ensemble has replaced.

`Interpreter.Locates` says what the making of an ensemble comes to, and
`Interpreter.created_ensembles_are_found` that it always does if it succeeds.
-/

namespace Ensembles

open ListText (split)

namespace Catalog

variable {root : String} {c : Catalog} {top p e : Ensemble} {parent id : EnsembleId}
  {name text : String} {words names : List String} {h : Handle}

/-! ## Ways to make an ensemble -/

theorem create_cases (c : Catalog) (text : String) :
    (∃ cause, c.create text = c.refuse cause) ∨
    (∃ name, split text = .ok [name] ∧ c.create text = create.commandOf (c.locateTop name)) ∨
    ∃ names name parent, split text = .ok (names ++ [name]) ∧ c.resolve names = .ok parent ∧
      c.create text = create.commandOf (c.locateNested parent name) := by
  cases hs : split text with
  | error e => exact .inl ⟨_, by rw [create, hs]⟩
  | ok words =>
    rcases List.eq_nil_or_concat words with rfl | ⟨names, name, rfl⟩
    · exact .inl ⟨_, by rw [create, hs]⟩
    rw [List.concat_eq_append] at hs ⊢
    by_cases hne : names = []
    · subst hne
      exact .inr (.inl ⟨name, rfl, by rw [create, hs]; rfl⟩)
    · have hc := create_of_nested (c := c) hs hne
      cases hr : c.resolve names with
      | error cause => exact .inl ⟨cause, by rw [hc, hr]⟩
      | ok parent => exact .inr (.inr ⟨names, name, parent, rfl, hr, by rw [hc, hr]⟩)

theorem resolveText_of_split (hs : split text = .ok words) :
    c.resolveText text = c.resolve words := by
  rw [resolveText, hs]

/-! ## What is there is kept -/

theorem commandOf_keep (he : c.registry.get? id = some e) :
    create.commandOf (c.keep id) = c.keep e.command := by
  simp only [create.commandOf, keep, Except.bind, he]

theorem locateTop_of_find?
    (hn : (c.commands.find? name).bind (c.registry.bound? ·.handle) = some top) :
    c.locateTop name = c.keep top.id := by
  obtain ⟨a, ha, hb⟩ := Option.bind_eq_some_iff.1 hn
  simp only [locateTop, CommandTable.handleOf?_of_find? ha, Registry.idOf?_of_bound? hb]

theorem Wf.locateNested_of_holds (hw : c.Wf root) (hp : p ∈ c.registry.ensembles)
    (he : e ∈ c.registry.ensembles) (hh : p.Holds name e.command) :
    c.locateNested p.id name = c.keep e.id := by
  obtain ⟨usage, hm⟩ := hh
  obtain ⟨q, hq, hc⟩ := PartTable.mem_contents.1 hm
  have hget := (Registry.get?_eq_some_iff hw.registry).2 ⟨hp, rfl⟩
  have hfind := (PartTable.find?_eq_some_iff (hw.registry.sorted p hp)).2
    ⟨hq, congrArg (·.1) hc⟩
  have hid := Registry.idOf?_of_bound? ((Registry.bound?_eq_some_iff hw.registry).2 ⟨he, rfl⟩)
  obtain ⟨_, _, _, handler⟩ := q
  obtain rfl : handler = .ensemble e.command := congrArg (·.2.2) hc
  simp only [Catalog.locateNested, hget, Option.bind_some, hfind, hid]

/-- Nothing is made where the words spell an ensemble. -/
theorem Wf.create_of_spells (hw : c.Wf root) (hs : split text = .ok words)
    (h : c.Spells top words e) : c.create text = c.keep e.command := by
  have hget := (Registry.get?_eq_some_iff hw.registry).2 ⟨h.mem, rfl⟩
  obtain ⟨a, ha, hh, names, rfl, hpath⟩ := h
  cases hpath with
  | self ht =>
    have hn : (c.commands.find? a.name).bind (c.registry.bound? ·.handle) = some top := by
      rw [(CommandTable.find?_eq_some_iff hw.commands).2 ⟨ha, rfl⟩, Option.bind_some]
      exact (Registry.bound?_eq_some_iff hw.registry).2 ⟨ht, hh.symm⟩
    rw [← commandOf_keep hget, ← locateTop_of_find? hn, create, hs]
  | @part names p e name hp hhold he =>
    have hne : a.name :: names ≠ [] := List.cons_ne_nil _ _
    have hparent := hw.resolve_eq_ok_iff.2 ⟨top, p, ⟨a, ha, hh, names, rfl, hp⟩, rfl⟩
    simp only [create_of_nested hs hne, hparent, hw.locateNested_of_holds hp.mem he hhold,
      commandOf_keep hget]

theorem Wf.create_of_resolveText (hw : c.Wf root) (hr : c.resolveText text = .ok e.id)
    (he : e ∈ c.registry.ensembles) : c.create text = c.keep e.command := by
  unfold resolveText at hr
  split at hr
  · cases hr
  · rename_i words hs
    obtain ⟨top, e', h, hid⟩ := hw.resolve_eq_ok_iff.1 hr
    obtain rfl := hw.registry.eq_of_id h.mem he hid
    exact hw.create_of_spells hs h

/-! ## What is made is there -/

theorem Wf.locateTop_of_absent (hw : c.Wf root) (hf : c.commands.find? name = none)
    (hn : name ≠ "") :
    c.locateTop name = ⟨.ok c.registry.nextId,
      ⟨c.commands.install name .ensemble, c.registry.add c.commands.nextHandle none⟩, []⟩ := by
  simp only [Catalog.locateTop, hw.commands.handleOf?_of_absent hf, Catalog.createTop, if_neg hn,
    hw.put_of_absent hf, Catalog.install]

theorem resolve_of_find?
    (hn : (c.commands.find? name).bind (c.registry.bound? ·.handle) = some top) :
    c.resolve [name] = .ok top.id := by
  obtain ⟨a, ha, hb⟩ := Option.bind_eq_some_iff.1 hn
  simp only [resolve, CommandTable.handleOf?_of_find? ha, Option.bind_some,
    Registry.idOf?_of_bound? hb, resolveFrom]

theorem Wf.resolve_locateTop (hw : c.Wf root) (ho : (c.locateTop name).outcome = .ok id) :
    (c.locateTop name).catalog.resolve [name] = .ok id := by
  cases hf : c.commands.find? name with
  | none =>
    by_cases hn : name = ""
    · simp only [Catalog.locateTop, hw.commands.handleOf?_of_absent hf, Catalog.createTop,
        if_pos hn] at ho
      cases ho
    rw [hw.locateTop_of_absent hf hn] at ho ⊢
    cases ho
    -- What is new stands first in both maps.
    have hhandle : (c.commands.install name .ensemble).handleOf? name =
        some c.commands.nextHandle :=
      List.lookup_cons_self
    have hid : (c.registry.add c.commands.nextHandle none).idOf? c.commands.nextHandle =
        some c.registry.nextId :=
      List.lookup_cons_self
    simp only [resolve, hhandle, Option.bind_some, hid, resolveFrom]
  | some a =>
    cases hb : c.registry.bound? a.handle with
    | none =>
      simp only [Catalog.locateTop, CommandTable.handleOf?_of_find? hf, hw.registry.idOf?_eq, hb,
        Option.map_none] at ho
      cases ho
    | some e =>
      have hn : (c.commands.find? name).bind (c.registry.bound? ·.handle) = some e := by
        rw [hf, Option.bind_some, hb]
      rw [locateTop_of_find? hn] at ho ⊢
      cases ho
      exact resolve_of_find? hn

theorem Wf.parent_of_createNested (hw : c.Wf root)
    (ho : (c.createNested parent name).outcome = .ok id) :
    ∃ e ∈ (c.createNested parent name).catalog.registry.ensembles, e.id = id ∧
      e.parent = some ⟨parent, name⟩ := by
  obtain ⟨-, cause, h⟩ | ⟨-, -, -, -, h, -⟩ | ⟨-, q, parts, -, -, hq, -, h, hc⟩ :=
    createNested_cases hw parent name <;> rw [h] at ho <;> cases ho
  have hd := hw.delete (c.registry.privateName parent name)
  obtain ⟨hqm, rfl⟩ := (Registry.get?_eq_some_iff hd.registry).1 hq
  rw [hc, Registry.modifyParts_add hd.registry hqm]
  exact ⟨_, List.mem_cons_self .., rfl, rfl⟩

/-- What is found as a part of an ensemble, or made as one, hangs in it. -/
theorem Wf.parent_of_locateNested (hw : c.Wf root)
    (ho : (c.locateNested parent name).outcome = .ok id) :
    ∃ e ∈ (c.locateNested parent name).catalog.registry.ensembles, e.id = id ∧
      e.parent = some ⟨parent, name⟩ := by
  unfold Catalog.locateNested at ho ⊢
  split at ho
  · exact hw.parent_of_createNested ho
  · rename_i h hn
    split at ho
    · cases ho
    rename_i hid
    cases ho
    obtain ⟨e, hem, rfl, rfl⟩ := hw.registry.idOf?_eq_some_iff.1 hid
    obtain ⟨p, hp, hf⟩ := Option.bind_eq_some_iff.1 hn
    obtain ⟨hpm, rfl⟩ := (Registry.get?_eq_some_iff hw.registry).1 hp
    obtain ⟨hq, rfl⟩ := (PartTable.find?_eq_some_iff (hw.registry.sorted p hpm)).1 hf
    exact ⟨e, hem, rfl, hw.registry.parent_of_holds hpm hem (p.holds_of_part hq rfl)⟩
  · cases ho

/-- The words that led to the ensemble above lead to the new one with its name, although the
ensemble above may have got or lost parts. -/
theorem Wf.resolve_locateNested (hw : c.Wf root) (hr : c.resolve names = .ok parent)
    (ho : (c.locateNested parent name).outcome = .ok id) :
    (c.locateNested parent name).catalog.resolve (names ++ [name]) = .ok id := by
  have hb : Becomes root c (c.locateNested parent name).catalog := {
    before := hw
    after := hw.locateNested parent name
    commands := hw.commands_grow_locateNested parent name
    registry := (hw.grows_locateNested parent name).mono fun _ _ => trivial }
  obtain ⟨e, he, rfl, hlink⟩ := hw.parent_of_locateNested ho
  obtain ⟨top, p, hs, rfl⟩ := hw.resolve_eq_ok_iff.1 hr
  obtain ⟨p', hp', hid, -, hh⟩ := hb.after.registry.hangs e he _ hlink
  obtain ⟨top', -, hs'⟩ := hb.spells hs hp' (hb.stays hs.mem hp' hid.symm)
  exact hb.after.resolve_eq_ok_iff.2 ⟨top', e, hs'.append (.part (.self hp') hh he), rfl⟩

/-- The command that the attempt gives is that of the ensemble that is found afterwards. -/
theorem exists_of_commandOf {edit : Edit EnsembleId} (hw : edit.catalog.Wf root)
    (hr : ∀ id, edit.outcome = .ok id → edit.catalog.resolveText text = .ok id)
    (ho : (create.commandOf edit).outcome = .ok h) :
    ∃ e, edit.catalog.resolveText text = .ok e.id ∧
      edit.catalog.registry.get? e.id = some e ∧ e.command = h := by
  simp only [create.commandOf] at ho
  cases hid : edit.outcome with
  | error cause =>
    rw [hid] at ho
    cases ho
  | ok id =>
    simp only [hid, Except.bind] at ho
    split at ho
    · cases ho
    · rename_i e he
      obtain ⟨-, rfl⟩ := (Registry.get?_eq_some_iff hw.registry).1 he
      exact ⟨e, hr _ hid, he, Except.ok.inj ho⟩

/-- What is made at a path is found there. -/
theorem Wf.exists_of_create (hw : c.Wf root) (ho : (c.create text).outcome = .ok h) :
    ∃ e, (c.create text).catalog.resolveText text = .ok e.id ∧
      (c.create text).catalog.registry.get? e.id = some e ∧ e.command = h := by
  obtain ⟨cause, hc⟩ | ⟨name, hs, hc⟩ | ⟨names, name, parent, hs, hr, hc⟩ := create_cases c text <;>
    rw [hc] at ho ⊢
  · cases ho
  · refine exists_of_commandOf (hw.locateTop name) (fun id hid => ?_) ho
    rw [resolveText_of_split hs]
    exact hw.resolve_locateTop hid
  · refine exists_of_commandOf (hw.locateNested parent name) (fun id hid => ?_) ho
    rw [resolveText_of_split hs]
    exact hw.resolve_locateNested hr hid

end Catalog

theorem State.catalog_edited {α : Type} (s : State) (edit : Edit α) :
    (s.edited edit).catalog = edit.catalog := by
  obtain ⟨orphans, released, hf⟩ := foldl_letGo edit.freed { s with catalog := edit.catalog }
  rw [edited, hf]

namespace Interpreter

/-- The ensemble of the command `h` is at the path `path`. -/
structure Locates (i : Interpreter) (path : String) (h : Handle) : Prop where
  command : ∃ a, i.state.catalog.commands.get? h = some a ∧ a.target = .ensemble
  ensemble : i.isEnsemble h = true
  resolves : ∃ e, i.state.catalog.resolveText path = .ok e.id ∧
    i.state.catalog.registry.get? e.id = some e ∧ e.command = h
  /-- To make it again, by this path or another one with the same words, changes nothing. -/
  again : ∀ path', split path' = split path → i.create path' = (.ok h, i)

variable {root : String} {i : Interpreter} {path : String} {h : Handle} {e : Ensemble}

theorem create_of_keep (hc : i.state.catalog.create path = i.state.catalog.keep h) :
    i.create path = (.ok h, i) := by
  rw [create, Run.create, run_noting_edit, hc]
  rfl

theorem locates_of_resolveText (hw : i.state.catalog.Wf root)
    (hr : i.state.catalog.resolveText path = .ok e.id)
    (he : e ∈ i.state.catalog.registry.ensembles) : i.Locates path e.command where
  command := by
    obtain ⟨a, ha, hh, ht, -⟩ := hw.owned e he
    exact ⟨a, (CommandTable.get?_eq_some_iff hw.commands).2 ⟨ha, hh⟩, ht⟩
  ensemble := by
    rw [isEnsemble, Catalog.isEnsemble, hw.registry.idOf?_eq_some_iff.2 ⟨e, he, rfl, rfl⟩]
    rfl
  resolves := ⟨e, hr, (Registry.get?_eq_some_iff hw.registry).2 ⟨he, rfl⟩, rfl⟩
  again path' hs := by
    refine create_of_keep (hw.create_of_resolveText ?_ he)
    rwa [Catalog.resolveText, hs]

/-- The ensemble that is made at a path is found there afterwards. If there was one before, nothing
has changed. -/
theorem created_ensembles_are_found (hi : Reachable root i) (hc : (i.create path).1 = .ok h) :
    (i.create path).2.Locates path h ∧
      ((∃ id, i.state.catalog.resolveText path = .ok id) → (i.create path).2 = i) := by
  constructor
  · have hw : (i.create path).2.state.catalog.Wf root := (Reachable.create path hi).wf
    rw [create, Run.create, run_noting_edit] at hc hw ⊢
    cases ho : (i.state.catalog.create path).outcome with
    | error cause =>
      rw [ho] at hc
      cases hc
    | ok h' =>
      rw [ho] at hc
      cases hc
      obtain ⟨e, hr, he, rfl⟩ := hi.wf.exists_of_create ho
      rw [← State.catalog_edited i.state] at hr he
      exact locates_of_resolveText hw hr ((Registry.get?_eq_some_iff hw.registry).1 he).1
  · rintro ⟨id, hr⟩
    obtain ⟨e, he⟩ := hi.wf.exists_of_resolveText hr
    obtain ⟨hem, rfl⟩ := (Registry.get?_eq_some_iff hi.wf.registry).1 he
    rw [create_of_keep (hi.wf.create_of_resolveText hr hem)]

/-- A plain command has the private name that the new ensemble gets, so it goes and the native that
it ran is released. The path can be written in another way. -/
theorem created_ensembles_are_found_in_place_of_command :
    let i := (((new "::r" 4).create "a").2.register "::r::subensembles::1::b c"
      ⟨some "old", Program.echo⟩).2
    let j := (i.create "a \x7bb c\x7d").2
    j.Locates "a \x7bb c\x7d" ⟨10⟩ ∧ j.create "a b\\ c" = (.ok ⟨10⟩, j) ∧
      j.drain.1.2 = ["old"] ∧ (j.create "a").2 = j := by
  intro i j
  have hi : Reachable "::r" i := .register _ _ (.create _ (.new 4))
  have hj : Reachable "::r" j := .create _ hi
  have hmade : j.Locates "a \x7bb c\x7d" ⟨10⟩ :=
    (created_ensembles_are_found hi (by decide +kernel)).1
  have hthere : (j.create "a").2 = j :=
    (created_ensembles_are_found (h := ⟨8⟩) hj (by decide +kernel)).2 ⟨⟨1⟩, by decide +kernel⟩
  exact ⟨hmade, hmade.again _ (by decide +kernel), by decide +kernel, hthere⟩

end Interpreter

end Ensembles
