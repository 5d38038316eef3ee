import Ensembles.Native.Stock
import Ensembles.Proofs.Additive
import Ensembles.Proofs.Atomicity
import Ensembles.Proofs.Release
import Ensembles.Proofs.Tables

/-!
# The destruction of ensembles

An ensemble is destroyed when its command is deleted, or when another command takes the place
of that: one that runs a native, or the command of a new nested ensemble whose private name it
has. `Catalog.Loses` says what that takes away: the ensemble with all below it, their commands,
and the part that the ensemble was; and that it changes nothing else. The natives of the parts
that go are let go part by part down the tables (`Registry.InOrder`).

`Interpreter.destruction_is_exact` states this for each of the ways in which an ensemble is
destroyed in a reachable interpreter. What takes the place of its command only adds to what is
left.
-/

namespace Ensembles

/-! ## What is taken away -/

/-- `hs` are the natives of the parts `ps` in table order, those of a part that is an ensemble
in the same order at its place. -/
inductive Registry.InOrder (r : Registry) : (ps : List (Part Handler)) → (hs : List Hosted) → Prop
  | nil : InOrder r [] []
  | native {p : Part Handler} {ps : List (Part Handler)} {h : Hosted} {hs : List Hosted} :
    p.handler = .native h → InOrder r ps hs → InOrder r (p :: ps) (h :: hs)
  | procedure {p : Part Handler} {ps : List (Part Handler)} {q : Procedure} {hs : List Hosted} :
    p.handler = .procedure q → InOrder r ps hs → InOrder r (p :: ps) hs
  | ensemble {p : Part Handler} {ps : List (Part Handler)} {e : Ensemble} {hs hs' : List Hosted} :
    p.handler = .ensemble e.command → e ∈ r.ensembles → InOrder r e.parts.toList hs →
      InOrder r ps hs' → InOrder r (p :: ps) (hs ++ hs')

/-- The table has the parts of the other one but those of the name `name`, and each is
abbreviated as far as the parts that are left allow. -/
structure PartTable.Lacks (t' t : PartTable Handler) (name : String) : Prop where
  contents : t'.contents = t.contents.filter (·.1 ≠ name)
  minChars : ∀ q ∈ t'.toList, q.minChars =
    min q.name.length (max 1 (1 + longestShared q.name (t'.toList.map Part.name)))

/-- `c'` is what the destruction of the ensemble `e` leaves of `c`. -/
structure Catalog.Loses (c : Catalog) (e : Ensemble) (c' : Catalog) : Prop where
  /-- The ensemble is gone, and so are all below it. -/
  gone : ∀ x, Under c.registry.ensembles e.command x → c'.registry.get? x.id = none
  /-- The ensemble that it was a part of, if it was one, has lost just that part. -/
  detached : ∀ link, e.parent = some link → ∃ p parts, c.registry.get? link.ensemble = some p ∧
    p.Holds link.part e.command ∧ parts.Lacks p.parts link.part ∧
      c'.registry.get? link.ensemble = some { p with parts }
  /-- All others are as they were. -/
  others : ∀ x ∈ c.registry.ensembles, ¬ Under c.registry.ensembles e.command x →
    (∀ link, e.parent = some link → link.ensemble ≠ x.id) → c'.registry.get? x.id = some x
  /-- There are no new ones. -/
  ensembles : ∀ x ∈ c'.registry.ensembles, ∃ y ∈ c.registry.ensembles, y.id = x.id
  /-- The commands are those there were, but for those of the ensembles that are gone. -/
  commands : ∀ a, a ∈ c'.commands.entries ↔ a ∈ c.commands.entries ∧
    ∀ x, Under c.registry.ensembles e.command x → x.command ≠ a.handle
  /-- No name leads to what is gone, and every other name leads where it did. -/
  names : ∀ name h, c'.commands.handleOf? name = some h ↔ c.commands.handleOf? name = some h ∧
    ∀ x, Under c.registry.ensembles e.command x → x.command ≠ h
  /-- No command is bound to what is gone, and every other one is bound to what it was. -/
  bound : ∀ h id, c'.registry.idOf? h = some id ↔ c.registry.idOf? h = some id ∧
    ∀ x, Under c.registry.ensembles e.command x → x.id ≠ id
  root : c'.registry.root = c.registry.root
  issuedHandles : c'.commands.issued = c.commands.issued
  issuedIds : c'.registry.issued = c.registry.issued

namespace Registry

variable {r : Registry} {e x p : Ensemble}

/-- The part that an ensemble is goes from the table it hangs in. -/
theorem Wf.without_of_holds (hw : r.Wf) (hp : p ∈ r.ensembles) (he : e ∈ r.ensembles)
    {name : String} (hh : p.Holds name e.command) :
    p.without e = { p with parts := p.parts.erase name } := by
  have hparent := hw.parent_of_holds hp he hh
  obtain ⟨usage, hm⟩ := hh
  obtain ⟨q, hq, hc⟩ := PartTable.mem_contents.1 hm
  have hf : p.parts.find? name = some q :=
    (PartTable.find?_eq_some_iff (hw.sorted p hp)).2 ⟨hq, congrArg (·.1) hc⟩
  obtain ⟨_, _, _, handler⟩ := q
  obtain rfl : handler = .ensemble e.command := congrArg (·.2.2) hc
  simp only [Ensemble.without, hparent, if_true, unhang, hf]

theorem without_of_ne (hx : ∀ link, e.parent = some link → link.ensemble ≠ x.id) :
    x.without e = x := by
  unfold Ensemble.without
  cases hp : e.parent with
  | none => rfl
  | some link => exact if_neg (hx link hp).symm

/-- The natives of the ensembles below are found in the order of the tables. -/
theorem Wf.inOrder_descendNatives (hw : r.Wf) {l : List Ensemble}
    (hl : l <:+ r.ensembles.reverse) (he : e ∈ l) :
    r.InOrder e.parts.toList (descendNatives l e.command) := by
  refine hw.descend_induct (P := fun l e => r.InOrder e.parts.toList
    (descendNatives l e.command)) ?_ ?_ hl he
  · intro x l _ hchild
    rw [descendNatives, if_pos rfl]
    -- Nothing but the parts matters from here on, so the induction is on the rest of the table.
    revert hchild
    generalize x.parts.toList = ps
    intro hchild
    induction ps with
    | nil => exact .nil
    | cons p ps ihp =>
      rw [List.forall_mem_cons] at hchild
      have hps := ihp hchild.2
      rw [List.flatMap_cons]
      cases hh : p.handler with
      | native n => exact .native hh hps
      | procedure q => exact .procedure hh hps
      | ensemble h =>
        obtain ⟨y, hy, rfl, -, horder⟩ := hchild.1 h hh
        exact .ensemble hh hy horder hps
  · intro x l y hc horder
    rwa [descendNatives, if_neg hc]

theorem Wf.inOrder_subtreeNatives (hw : r.Wf) (he : e ∈ r.ensembles) :
    r.InOrder e.parts.toList (r.subtreeNatives e.command) :=
  hw.inOrder_descendNatives (List.suffix_refl _) (List.mem_reverse.2 he)

end Registry

namespace PartTable

theorem Wf.lacks_erase {t : PartTable Handler} (hw : t.Wf) (name : String) :
    (t.erase name).Lacks t name where
  contents := erase_contents hw.sorted name
  minChars _ hq := (hw.erase name).minChars_eq hq

end PartTable

namespace Catalog

variable {root : String} {c : Catalog} {a : CommandEntry} {e p : Ensemble} {name : String}
  {parent : EnsembleId}

/-- To cut off an ensemble takes away what belongs to it. -/
theorem Wf.loses_prune (hw : c.Wf root) (ht : c.registry.Tabled) (he : e ∈ c.registry.ensembles) :
    c.Loses e (c.prune e) := by
  have hwr := hw.registry
  have hwp : (c.prune e).registry.Wf := (hw.prune he).registry
  have hstays {x : Ensemble} (hx : x ∈ c.registry.ensembles)
      (hu : ¬ Under c.registry.ensembles e.command x) :
      (c.prune e).registry.get? x.id = some (x.without e) :=
    (Registry.get?_eq_some_iff hwp).2
      ⟨(Registry.mem_prune_iff hwr).2 ⟨x, hx, hu, rfl⟩, x.id_without e⟩
  constructor
  case gone =>
    intro x hu
    exact (hw.get?_prune_eq_none_iff he
      ((Registry.get?_eq_some_iff hwr).2 ⟨hu.mem, rfl⟩)).2 hu
  case detached =>
    intro link hl
    -- What `e` hangs in is older, so it is not among what is cut off.
    obtain ⟨p, hp, hid, -, hh⟩ := hwr.hangs e he link hl
    refine ⟨p, p.parts.erase link.part, (Registry.get?_eq_some_iff hwr).2 ⟨hp, hid⟩, hh,
      (ht p hp).lacks_erase link.part, ?_⟩
    rw [← hwr.without_of_holds hp he hh, ← hid]
    exact hstays hp (hwr.not_under_of_holds hp he hh)
  case others =>
    intro x hx hu hne
    rw [hstays hx hu, Registry.without_of_ne hne]
  case ensembles =>
    intro x hx
    obtain ⟨y, hy, -, rfl⟩ := (Registry.mem_prune_iff hwr).1 hx
    exact ⟨y, hy, (y.id_without e).symm⟩
  case commands => exact fun a => hw.mem_prune
  case names =>
    intro name h
    rw [CommandTable.handleOf?_eq_some_iff (hw.prune he).commands,
      CommandTable.handleOf?_eq_some_iff hw.commands]
    constructor
    · rintro ⟨a, ha, hn, rfl⟩
      obtain ⟨ha, hu⟩ := hw.mem_prune.1 ha
      exact ⟨⟨a, ha, hn, rfl⟩, hu⟩
    · rintro ⟨⟨a, ha, hn, rfl⟩, hu⟩
      exact ⟨a, hw.mem_prune.2 ⟨ha, hu⟩, hn, rfl⟩
  case bound =>
    intro h id
    rw [hwp.idOf?_eq_some_iff, hwr.idOf?_eq_some_iff]
    constructor
    · rintro ⟨x, hx, rfl, rfl⟩
      obtain ⟨y, hy, hu, rfl⟩ := (Registry.mem_prune_iff hwr).1 hx
      rw [Ensemble.command_without, Ensemble.id_without]
      refine ⟨⟨y, hy, rfl, rfl⟩, fun z hz hid => hu ?_⟩
      rwa [← hwr.eq_of_id hz.mem hy hid]
    · rintro ⟨⟨y, hy, rfl, rfl⟩, hu⟩
      exact ⟨y.without e, (Registry.mem_prune_iff hwr).2 ⟨y, hy, fun huy => hu y huy rfl, rfl⟩,
        y.command_without e, y.id_without e⟩
  case root =>
    show (c.registry.prune e).root = _
    rw [Registry.prune_eq]
    rfl
  case issuedHandles => rfl
  case issuedIds =>
    show (c.registry.prune e).issued = _
    rw [Registry.prune_eq]
    rfl

/-! ## The ways in which an ensemble is destroyed -/

theorem extends_skip (c : Catalog) : c.Extends c.skip where
  root := rfl
  issuedHandles := Nat.le_succ _
  issuedIds := Nat.le_succ _
  names _ _ := id
  bound _ _ := id
  commands _ := id
  newCommands _ := .inl
  ensembles e he := ⟨e, he, .refl e⟩
  newEnsembles e he := .inl ⟨e, he, .refl e⟩

theorem extends_of_absent (hw : c.commands.Wf) (hn : c.commands.find? name = none)
    (target : Target) : c.Extends (c.install name target) where
  root := rfl
  issuedHandles := Nat.le_succ _
  issuedIds := Nat.le_refl _
  names := names_of_commands hw (hw.install ((CommandTable.find?_eq_none_iff hw).1 hn))
    fun _ ha => List.mem_cons_of_mem _ ha
  bound _ _ := id
  commands _ ha := List.mem_cons_of_mem _ ha
  newCommands := List.forall_mem_cons.2
    ⟨.inr ⟨Nat.lt_succ_self _, (CommandTable.find?_eq_none_iff hw).1 hn⟩, fun _ => .inl⟩
  ensembles e he := ⟨e, he, .refl e⟩
  newEnsembles e he := .inl ⟨e, he, .refl e⟩

/-- A new nested ensemble is made as if the command of its private name had been deleted before,
if what it is to hang in is still there then. If not, nothing is made. -/
theorem Wf.createNested_cleared (hw : c.Wf root) (hp : c.registry.get? parent = some p)
    (hn : p.parts.find? name = none) :
    let cleared := (c.delete (c.registry.privateName parent name)).catalog
    let c' := (c.createNested parent name).catalog
    cleared.Extends c' ∧ (cleared.registry.get? parent = none → c' = cleared.skip) ∧
      (cleared.registry.get? parent ≠ none → c' = (cleared.createNested parent name).catalog) := by
  intro cleared c'
  have hd : cleared.Wf root := hw.delete _
  have hfree : cleared.commands.find? (c.registry.privateName parent name) = none :=
    hw.find?_delete
  obtain ⟨hrefused, -⟩ | ⟨-, -, -, hgone, -, hc⟩ | ⟨-, q, parts, -, -, hq, hi, -, hc⟩ :=
    createNested_cases hw parent name
  · exact absurd hn (hrefused p hp)
  · have hskip : c' = cleared.skip := hc
    exact ⟨hskip ▸ extends_skip cleared, fun _ => hskip, fun hne => absurd hgone hne⟩
  · have hpath : cleared.registry.privateName parent name = c.registry.privateName parent name :=
      Registry.privateName_congr (hd.root.trans hw.root.symm) parent name
    have hqn := hw.find?_delete_parts hp hq hn
    -- The removal issues no handle and no id, and it leaves no command of the private name behind:
    -- the same is made in what it leaves, and there it replaces nothing.
    have hsame : c' = (cleared.createNested parent name).catalog := by
      obtain ⟨parts', hi', hc'⟩ := hd.createNested_of_free hq hqn (hpath ▸ hfree)
      rw [nextHandle_delete hw, hi, Option.some.injEq] at hi'
      rw [nextHandle_delete hw, hpath, ← hi'] at hc'
      exact hc.trans hc'.symm
    refine ⟨hsame ▸ hd.extends_createNested hq hqn (hpath ▸ hfree), fun hgone => ?_,
      fun _ => hsame⟩
    rw [hq] at hgone
    cases hgone

end Catalog

/-- The state with another catalogue, after natives have been let go: those that are being
called or kept wait for the end of that, and the others are released, in the order given. -/
def State.lettingGo (s : State) (catalog : Catalog) (freed : List Hosted) : State :=
  { s with
    catalog
    orphans := s.orphans ++ freed.filter (s.InUse ·.serial)
    released := s.released ++ freed.filter (¬ s.InUse ·.serial) }

theorem State.edited_eq {α : Type} (s : State) (edit : Edit α) :
    s.edited edit = s.lettingGo edit.catalog edit.freed := by
  rw [edited, foldl_letGo_eq]
  rfl

theorem Run.after_locateNested (parent : EnsembleId) (name : String) (s : State) :
    (locate (some parent) name).after s = s.lettingGo (s.catalog.locateNested parent name).catalog
      (s.catalog.locateNested parent name).freed := by
  rw [locate, after_edit, ← State.edited, State.edited_eq]

namespace Interpreter

variable {α : Type}

/-- What comes of a change of the catalogue. -/
theorem run_edit (i : Interpreter) (f : Catalog → Edit α) :
    i.run (Run.edit f) = ((f i.state.catalog).outcome.mapError .of,
      ⟨i.limit, i.state.lettingGo (f i.state.catalog).catalog (f i.state.catalog).freed⟩) := by
  rw [← State.edited_eq]
  unfold run Run.edit State.edited
  simp only
  cases (f i.state.catalog).outcome <;> rfl

theorem register_eq (i : Interpreter) (name : String) (n : Native) :
    i.register name n = run ⟨i.limit, { i.state with received := i.state.received + 1 }⟩
      (Run.edit (·.put name (.native ⟨i.state.received, n⟩))) := by
  rw [register, Run.register]
  rfl

/-- To make a nested ensemble at a path is to make it in what the path leads to. -/
theorem create_of_nested {i : Interpreter} {text name : String} {names : List String}
    {parent : EnsembleId} (hs : ListText.split text = .ok (names ++ [name])) (hne : names ≠ [])
    (hr : i.state.catalog.resolve names = .ok parent) :
    (i.create text).2 = ⟨i.limit,
      i.state.lettingGo (i.state.catalog.locateNested parent name).catalog
        (i.state.catalog.locateNested parent name).freed⟩ := by
  rw [create, Run.create, run_noting_edit, Catalog.create_of_nested hs hne, hr, State.edited_eq]
  rfl

/-- In a reachable interpreter the deletion or replacement of the command of an ensemble takes
away that ensemble, all below it, their commands and the part that it was, and nothing else. It
lets go of the natives that go with them, in the order of the tables. What comes in the place of
the command, a native or a nested ensemble, only adds to what is left. -/
theorem destruction_is_exact {root : String} {i : Interpreter} (hi : Reachable root i)
    {name : String} {a : CommandEntry} {e : Ensemble}
    (hf : i.state.catalog.commands.find? name = some a)
    (hb : i.state.catalog.registry.bound? a.handle = some e) :
    let s := i.state
    ∃ cleared freed, s.catalog.Loses e cleared ∧
      s.catalog.registry.InOrder e.parts.toList freed ∧
      (s.catalog.destroy a.handle).catalog = cleared ∧
      (s.catalog.destroy a.handle).freed = freed ∧
      i.delete name = (.ok true, ⟨i.limit, s.lettingGo cleared freed⟩) ∧
      (∀ n, ∃ c', c' = cleared.install name (.native ⟨s.received, n⟩) ∧ cleared.Extends c' ∧
        i.register name n = (.ok s.catalog.commands.nextHandle,
          ⟨i.limit, { s.lettingGo c' freed with received := s.received + 1 }⟩)) ∧
      ∀ parent p part, s.catalog.registry.get? parent = some p → p.parts.find? part = none →
        s.catalog.registry.privateName parent part = name →
          ∃ c', cleared.Extends c' ∧
            (cleared.registry.get? parent = none → c' = cleared.skip) ∧
            (cleared.registry.get? parent ≠ none →
              c' = (cleared.createNested parent part).catalog) ∧
            (Run.locate (some parent) part).after s = s.lettingGo c' freed ∧
            ∀ text names, names ≠ [] → ListText.split text = .ok (names ++ [part]) →
              s.catalog.resolve names = .ok parent →
                (i.create text).2 = ⟨i.limit, s.lettingGo c' freed⟩ := by
  intro s
  have hw : s.catalog.Wf root := hi.wf
  have he := ((Registry.bound?_eq_some_iff hw.registry).1 hb).1
  have hdelete := hw.delete_eq hf hb
  have hcleared : (s.catalog.delete name).catalog = s.catalog.prune e := by rw [hdelete]
  have hdestroy : (s.catalog.destroy a.handle).result =
      (s.catalog.prune e, s.catalog.registry.subtreeNatives e.command) :=
    hw.result_destroy hw.commands (fun _ => .inl) hb
  refine ⟨s.catalog.prune e, s.catalog.registry.subtreeNatives e.command,
    hw.loses_prune hi.tables he, hw.registry.inOrder_subtreeNatives he,
    Catalog.Remains.catalog_eq hdestroy, Catalog.Remains.freed_eq hdestroy, ?_, fun n => ?_, ?_⟩
  · rw [delete, Run.delete, run_edit, hdelete]
    rfl
  · have hput := hw.put_of_bound hf hb (.native ⟨s.received, n⟩)
    refine ⟨_, rfl, Catalog.extends_of_absent (hw.prune he).commands
      (hcleared ▸ hw.find?_delete) _, ?_⟩
    rw [register_eq, run_edit]
    simp only [s] at hput ⊢
    rw [hput]
    rfl
  · intro parent p part hp hn hname
    subst hname
    have hfreed := (Catalog.freed_createNested hp hn).trans
      (congrArg Edit.freed (hw.put_of_bound hf hb .ensemble))
    obtain ⟨hext, hgone, hthere⟩ := hw.createNested_cleared hp hn
    rw [hcleared] at hext hgone hthere
    have hlocate := Catalog.locateNested_of_absent hp hn
    refine ⟨_, hext, hgone, hthere, ?_, fun text names hne hs hr => ?_⟩
    · rw [Run.after_locateNested, hlocate, hfreed]
    · rw [create_of_nested hs hne hr, hlocate, hfreed]

/-- So it is for a top-level ensemble with one in it, and for that one alone. The names of the
parts tell the order in which the three natives go, not the time at which they came. -/
theorem destruction_is_exact_nested :
    let i := ((((((new "::r" 4).create "a").2.addPart "a" "m" none ⟨none, Program.echo⟩).2.create
      "a b").2.addPart "a b" "y" none ⟨none, Program.echo⟩).2.addPart "a" "z" none
        ⟨none, Program.echo⟩).2
    let s := i.state
    let released (name : String) := (i.delete name).2.state.released.map (·.serial)
    (∃ e cleared freed, e.id = ⟨1⟩ ∧ s.catalog.Loses e cleared ∧
      s.catalog.registry.InOrder e.parts.toList freed ∧
        i.delete "a" = (.ok true, ⟨i.limit, s.lettingGo cleared freed⟩)) ∧
    released "a" = [1, 0, 2] ∧
    (∃ e cleared freed, e.id = ⟨2⟩ ∧ s.catalog.Loses e cleared ∧
      s.catalog.registry.InOrder e.parts.toList freed ∧
        i.delete "::r::subensembles::1::b" = (.ok true, ⟨i.limit, s.lettingGo cleared freed⟩)) ∧
    released "::r::subensembles::1::b" = [1] := by
  intro i s released
  have hi : Reachable "::r" i :=
    .addPart _ _ _ _ (.addPart _ _ _ _ (.create _ (.addPart _ _ _ _ (.create _ (.new 4)))))
  have hgoes (name : String) (id : EnsembleId)
      (hid : (s.catalog.commands.find? name).bind (fun a =>
        (s.catalog.registry.bound? a.handle).map (·.id)) = some id) :
      ∃ e cleared freed, e.id = id ∧ s.catalog.Loses e cleared ∧
        s.catalog.registry.InOrder e.parts.toList freed ∧
          i.delete name = (.ok true, ⟨i.limit, s.lettingGo cleared freed⟩) := by
    obtain ⟨a, hf, hb⟩ := Option.bind_eq_some_iff.1 hid
    obtain ⟨e, hb, hid⟩ := Option.map_eq_some_iff.1 hb
    obtain ⟨cleared, freed, hloses, horder, -, -, hdelete, -⟩ := destruction_is_exact hi hf hb
    exact ⟨e, cleared, freed, hid, hloses, horder, hdelete⟩
  exact ⟨hgoes "a" ⟨1⟩ (by decide +kernel), by decide +kernel,
    hgoes "::r::subensembles::1::b" ⟨2⟩ (by decide +kernel), by decide +kernel⟩

end Interpreter

end Ensembles
