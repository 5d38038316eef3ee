import Ensembles.Proofs.Handles
import Ensembles.Proofs.Lookups
import Ensembles.Proofs.ShownPaths

/-!
# Paths that last

An ensemble is spelled by the name of a command and the names of the parts that lead down to it
from the ensemble of that command (`Catalog.Spells`). `Catalog.resolve` finds the ensemble that its
words spell (`Catalog.Wf.resolve_eq_ok_iff`), and `Catalog.path` writes the words that spell an
ensemble from a top-level one (`Catalog.Wf.path_of_spells`).

No ensemble moves, no command changes its name, and what an ensemble hangs in is there as long as
the ensemble is. So an ensemble that is still there later is spelled by the same words
(`Catalog.Becomes.spells`) and shown with the same path (`Catalog.Becomes.path_eq`).
-/

namespace Ensembles

open ListText (merge)

/-! ## Paths down -/

namespace Path

variable {l : List Ensemble} {top p e x : Ensemble} {name : String} {names names' : List String}

theorem mem (hp : Path l top names e) : e ∈ l := hp.under.mem

/-- A path can be continued at its upper end. -/
theorem cons (hp : p ∈ l) (hh : p.Holds name e.command) (hpath : Path l e names x) :
    Path l p (name :: names) x := by
  induction hpath with
  | self hm => exact .part (.self hp) hh hm
  | part _ hx hm ih => exact .part ih hx hm

theorem append (hp : Path l top names e) (hp' : Path l e names' x) :
    Path l top (names ++ names') x := by
  induction hp' with
  | self =>
    rw [List.append_nil]
    exact hp
  | part _ hx hm ih =>
    rw [← List.append_assoc]
    exact .part ih hx hm

end Path

namespace Registry

variable {r : Registry} {top e : Ensemble} {names names' : List String}

/-- Only one path leads from a top-level ensemble down to an ensemble. -/
theorem Wf.names_eq (hw : r.Wf) (ht : top.parent = none) (hp : Path r.ensembles top names e)
    (hp' : Path r.ensembles top names' e) : names = names' := by
  have htop {q : Ensemble} {name : String} (hq : q ∈ r.ensembles) (hm : top ∈ r.ensembles) :
      ¬ q.Holds name top.command := by
    intro hh
    rw [hw.parent_of_holds hq hm hh] at ht
    cases ht
  induction hp generalizing names' with
  | self hm =>
    cases hp' with
    | self => rfl
    | part hq hh _ => exact absurd hh (htop hq.mem hm)
  | part hq hh hm ih =>
    cases hp' with
    | self => exact absurd hh (htop hq.mem hm)
    | part hq' hh' _ =>
      have hlink := (hw.parent_of_holds hq.mem hm hh).symm.trans (hw.parent_of_holds hq'.mem hm hh')
      rw [Option.some.injEq, ParentLink.mk.injEq] at hlink
      obtain ⟨hid, rfl⟩ := hlink
      obtain rfl := hw.eq_of_id hq.mem hq'.mem hid
      rw [ih hq']

theorem Wf.trail_of_path (hw : r.Wf) (hp : Path r.ensembles top names e) (ht : top.parent = none) :
    r.trail e.id = some (top, names) := by
  obtain ⟨top', names', htrail, ht', hp'⟩ := trail_spec hw hp.mem
  obtain rfl := hw.eq_top hp.top_mem ht hp.under hp' ht'
  rw [htrail, hw.names_eq ht hp hp']

end Registry

/-! ## Words that spell ensembles -/

namespace Catalog

/-- The words are the name of the command of `top` and the names of the parts that lead from `top`
down to `e`. -/
def Spells (c : Catalog) (top : Ensemble) (words : List String) (e : Ensemble) : Prop :=
  ∃ a ∈ c.commands.entries, a.handle = top.command ∧
    ∃ names, words = a.name :: names ∧ Path c.registry.ensembles top names e

variable {root : String} {c c' : Catalog} {top p e x : Ensemble} {name : String}
  {words names : List String} {id : EnsembleId}

theorem Spells.mem (hs : c.Spells top words e) : e ∈ c.registry.ensembles := by
  obtain ⟨a, -, -, names, -, hp⟩ := hs
  exact hp.mem

theorem Spells.ne_nil (hs : c.Spells top words e) : words ≠ [] := by
  obtain ⟨a, -, -, names, rfl, -⟩ := hs
  exact List.cons_ne_nil _ _

theorem Spells.append (hs : c.Spells top words p) (hp : Path c.registry.ensembles p names e) :
    c.Spells top (words ++ names) e := by
  obtain ⟨a, ha, hh, names', rfl, hp'⟩ := hs
  exact ⟨a, ha, hh, names' ++ names, rfl, hp'.append hp⟩

theorem Wf.spells_of_find? (hw : c.Wf root)
    (hn : (c.commands.find? name).bind (c.registry.bound? ·.handle) = some top) :
    c.Spells top [name] top := by
  obtain ⟨a, ha, hb⟩ := Option.bind_eq_some_iff.1 hn
  obtain ⟨ham, rfl⟩ := (CommandTable.find?_eq_some_iff hw.commands).1 ha
  obtain ⟨ht, hh⟩ := (Registry.bound?_eq_some_iff hw.registry).1 hb
  exact ⟨a, ham, hh.symm, [], rfl, .self ht⟩

/-- The parts that the words name lead down to what is found. -/
theorem Wf.resolveFrom_eq_ok_iff (hw : c.Wf root) (hp : p ∈ c.registry.ensembles)
    {walked : List String} : c.resolveFrom walked p.id names = .ok id ↔
      ∃ e, Path c.registry.ensembles p names e ∧ e.id = id := by
  constructor
  · intro hr
    induction names generalizing walked p with
    | nil =>
      cases hr
      exact ⟨p, .self hp, rfl⟩
    | cons name names ih =>
      have hget := (Registry.get?_eq_some_iff hw.registry).2 ⟨hp, rfl⟩
      obtain ⟨q, h, below, hf, hh, hb, hr⟩ := hw.below_of_resolveFrom hget hr
      obtain ⟨hbelow, rfl⟩ := (Registry.bound?_eq_some_iff hw.registry).1 hb
      obtain ⟨e, hpath, he⟩ := ih hbelow hr
      obtain ⟨hq, rfl⟩ := (PartTable.find?_eq_some_iff (hw.registry.sorted p hp)).1 hf
      exact ⟨e, .cons hp (p.holds_of_part hq hh) hpath, he⟩
  · rintro ⟨e, hpath, rfl⟩
    obtain ⟨walked', hr⟩ := hw.resolveFrom_of_path hpath walked []
    rwa [List.append_nil] at hr

/-- What words resolve to is what they spell. -/
theorem Wf.resolve_eq_ok_iff (hw : c.Wf root) :
    c.resolve words = .ok id ↔ ∃ top e, c.Spells top words e ∧ e.id = id := by
  constructor
  · intro hr
    obtain ⟨name, names, top, rfl, hn, hr⟩ := hw.top_of_resolve hr
    have hs := hw.spells_of_find? hn
    obtain ⟨e, hpath, he⟩ := (hw.resolveFrom_eq_ok_iff hs.mem).1 hr
    exact ⟨top, e, hs.append hpath, he⟩
  · rintro ⟨top, e, ⟨a, ha, hh, names, rfl, hpath⟩, rfl⟩
    have hhandle : c.commands.handleOf? a.name = some a.handle :=
      (CommandTable.handleOf?_eq_some_iff hw.commands).2 ⟨a, ha, rfl, rfl⟩
    have hid : c.registry.idOf? a.handle = some top.id :=
      hw.registry.idOf?_eq_some_iff.2 ⟨top, hpath.top_mem, hh.symm, rfl⟩
    simp only [resolve, hhandle, Option.bind_some, hid]
    exact (hw.resolveFrom_eq_ok_iff hpath.top_mem).2 ⟨e, hpath, rfl⟩

theorem Wf.exists_spells (hw : c.Wf root) (he : e ∈ c.registry.ensembles) :
    ∃ top words, top.parent = none ∧ c.Spells top words e := by
  obtain ⟨top, names, -, ht, hpath⟩ := Registry.trail_spec hw.registry he
  obtain ⟨a, ha, hh, -⟩ := hw.owned top hpath.top_mem
  exact ⟨top, a.name :: names, ht, a, ha, hh, names, rfl, hpath⟩

/-- The ensemble of a command is spelled from a top-level one; if it is one itself, by the name of
the command. -/
theorem Wf.exists_spells_of_find? (hw : c.Wf root)
    (hn : (c.commands.find? name).bind (c.registry.bound? ·.handle) = some e) :
    ∃ top words, top.parent = none ∧ c.Spells top words e ∧
      (e.parent = none → words = [name]) := by
  have he := hw.spells_of_find? hn
  by_cases ht : e.parent = none
  · exact ⟨e, [name], ht, he, fun _ => rfl⟩
  · obtain ⟨top, words, htop, hs⟩ := hw.exists_spells he.mem
    exact ⟨top, words, htop, hs, fun h => absurd h ht⟩

/-- The path of an ensemble writes the words that spell it from a top-level one. -/
theorem Wf.path_of_spells (hw : c.Wf root) (hs : c.Spells top words e) (ht : top.parent = none) :
    c.path e.id = merge words := by
  obtain ⟨a, ha, hh, names, rfl, hpath⟩ := hs
  have hget := (CommandTable.get?_eq_some_iff hw.commands).2 ⟨ha, hh⟩
  simp only [path, hw.registry.trail_of_path hpath ht, hget, Option.elim_some]

/-! ## Later catalogues -/

namespace Becomes

variable (hb : Becomes root c c')

include hb

theorem stays (he : e ∈ c.registry.ensembles) (hx : x ∈ c'.registry.ensembles)
    (hid : e.id = x.id) : e.Stays x := by
  have hget := (Registry.get?_eq_some_iff hb.after.registry).2 ⟨hx, hid.symm⟩
  obtain ⟨e', he', hs, -⟩ := hb.get?_of_id_le (hb.before.registry.issued e he) hget
  obtain ⟨hem, hid'⟩ := (Registry.get?_eq_some_iff hb.before.registry).1 he'
  rwa [← hb.before.registry.eq_of_id hem he hid']

/-- A path to an ensemble that is still there is still one: the ensembles on it have to be there
too. -/
theorem exists_path (hp : Path c.registry.ensembles top names e)
    (hx : x ∈ c'.registry.ensembles) (hs : e.Stays x) :
    ∃ top', top.Stays top' ∧ Path c'.registry.ensembles top' names x := by
  induction hp generalizing x with
  | self => exact ⟨x, hs, .self hx⟩
  | part hq hh hm ih =>
    have hlink := hb.before.registry.parent_of_holds hq.mem hm hh
    obtain ⟨q', hq', hid, -, hh'⟩ := hb.after.registry.hangs x hx _ (hs.parent.symm.trans hlink)
    obtain ⟨top', htop, hp'⟩ := ih hq' (hb.stays hq.mem hq' hid.symm)
    exact ⟨top', htop, .part hp' hh' hx⟩

/-- The command of an ensemble that is still there is the one it was. -/
theorem mem_commands {a : CommandEntry} (ha : a ∈ c.commands.entries) (hh : a.handle = e.command)
    (hx : x ∈ c'.registry.ensembles) (hs : e.Stays x) : a ∈ c'.commands.entries := by
  obtain ⟨a', ha', hh', -⟩ := hb.after.owned x hx
  have hget := (CommandTable.get?_eq_some_iff hb.after.commands).2
    ⟨ha', hh'.trans (hs.command.symm.trans hh.symm)⟩
  have hbefore := hb.get?_of_le (hb.before.commands.issued a ha) hget
  rw [(CommandTable.get?_eq_some_iff hb.before.commands).2 ⟨ha, rfl⟩] at hbefore
  cases hbefore
  exact ha'

theorem spells (h : c.Spells top words e) (hx : x ∈ c'.registry.ensembles) (hs : e.Stays x) :
    ∃ top', top.Stays top' ∧ c'.Spells top' words x := by
  obtain ⟨a, ha, hh, names, rfl, hp⟩ := h
  obtain ⟨top', htop, hp'⟩ := hb.exists_path hp hx hs
  exact ⟨top', htop, a, hb.mem_commands ha hh hp'.top_mem htop, hh.trans htop.command, names, rfl,
    hp'⟩

/-- An ensemble that is still there is shown with the path it had. -/
theorem path_eq (he : e ∈ c.registry.ensembles) (hx : x ∈ c'.registry.ensembles)
    (hid : e.id = x.id) : c'.path e.id = c.path e.id := by
  obtain ⟨top, words, ht, hs⟩ := hb.before.exists_spells he
  obtain ⟨top', htop, hs'⟩ := hb.spells hs hx (hb.stays he hx hid)
  rw [hb.before.path_of_spells hs ht, hid,
    hb.after.path_of_spells hs' (htop.parent.symm.trans ht)]

end Becomes

end Catalog

end Ensembles
