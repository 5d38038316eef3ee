import Ensembles.Native.Stock
import Ensembles.Proofs.Quoting
import Ensembles.Proofs.Reachable

/-!
# Paths that are shown

The path that is shown for an ensemble is found on the way up from it and written as a list;
the words of a path are followed down again from the command of a top-level ensemble. In a
well-formed catalogue the way down leads back to where the way up started
(`Catalog.Wf.resolve_path`), and what is written reads back word for word, whatever the names
are. So in a reachable interpreter what is shown for ensembles and parts, in reports
(`EnsembleReport.Shows`) and elsewhere, can be typed in again
(`Interpreter.shown_path_resolves`).
-/

namespace Ensembles

open ListText (split merge quote)

namespace Catalog

variable {root : String} {c : Catalog} {e p top : Ensemble} {name : String} {names : List String}

/-! ## Up and down -/

/-- A word that is the name of a nested ensemble leads to that ensemble. -/
theorem Wf.resolveFrom_cons (hw : c.Wf root) (hp : p ∈ c.registry.ensembles)
    (he : e ∈ c.registry.ensembles) (hh : p.Holds name e.command) (walked names : List String) :
    c.resolveFrom walked p.id (name :: names) = c.resolveFrom (name :: walked) e.id names := by
  obtain ⟨usage, hm⟩ := hh
  obtain ⟨q, hq, hc⟩ := PartTable.mem_contents.1 hm
  have hget : c.registry.get? p.id = some p :=
    (Registry.get?_eq_some_iff hw.registry).2 ⟨hp, rfl⟩
  have hfind : p.parts.find? name = some q :=
    (PartTable.find?_eq_some_iff (hw.registry.sorted p hp)).2 ⟨hq, congrArg (·.1) hc⟩
  have hid : c.registry.idOf? e.command = some e.id :=
    hw.registry.idOf?_eq_some_iff.2 ⟨e, he, rfl, rfl⟩
  obtain ⟨_, _, _, handler⟩ := q
  obtain rfl : handler = .ensemble e.command := congrArg (·.2.2) hc
  simp only [resolveFrom, hget, Option.bind_some, hfind, hid]

/-- The names on a path lead down it, whatever words come after them. -/
theorem Wf.resolveFrom_of_path (hw : c.Wf root) (hpath : Path c.registry.ensembles top names e)
    (walked rest : List String) :
    ∃ walked', c.resolveFrom walked top.id (names ++ rest) = c.resolveFrom walked' e.id rest := by
  induction hpath generalizing rest with
  | self hm => exact ⟨walked, rfl⟩
  | @part names p e name hpath hh hm ih =>
    obtain ⟨walked', hr⟩ := ih (name :: rest)
    refine ⟨name :: walked', ?_⟩
    rw [List.append_assoc, List.singleton_append, hr]
    exact hw.resolveFrom_cons hpath.under.mem hm hh walked' rest

/-- The path of an ensemble writes words that resolve to it. -/
theorem Wf.resolve_path (hw : c.Wf root) (he : e ∈ c.registry.ensembles) :
    ∃ words, words ≠ [] ∧ c.path e.id = merge words ∧ c.resolve words = .ok e.id := by
  obtain ⟨top, names, ht, -, hpath⟩ := Registry.trail_spec hw.registry he
  obtain ⟨a, ha, hh, -⟩ := hw.owned top hpath.top_mem
  have hget : c.commands.get? top.command = some a :=
    (CommandTable.get?_eq_some_iff hw.commands).2 ⟨ha, hh⟩
  have hhandle : c.commands.handleOf? a.name = some a.handle :=
    (CommandTable.handleOf?_eq_some_iff hw.commands).2 ⟨a, ha, rfl, rfl⟩
  have hid : c.registry.idOf? a.handle = some top.id :=
    hw.registry.idOf?_eq_some_iff.2 ⟨top, hpath.top_mem, hh.symm, rfl⟩
  obtain ⟨walked, hr⟩ := hw.resolveFrom_of_path hpath [a.name] []
  refine ⟨a.name :: names, List.cons_ne_nil _ _, ?_, ?_⟩
  · simp only [path, ht, hget, Option.elim_some]
  · rw [List.append_nil] at hr
    simp only [resolve, hhandle, Option.bind_some, hid, hr]
    rfl

/-- The words that invoke a part are those of the ensemble and the name of the part. -/
theorem split_invocation {id : EnsembleId} {words : List String} (hn : words ≠ [])
    (hp : c.path id = merge words) (part : String) :
    split (c.invocation id part) = .ok (words ++ [part]) := by
  rw [invocation, if_neg (hp ▸ merge_ne_empty hn), hp, ← merge_concat hn, split_merge]

end Catalog

/-! ## Reports -/

/-- The report, or one that it contains, shows the path `path` for the ensemble `id`. -/
inductive EnsembleReport.Shows (id : EnsembleId) (path : String) : EnsembleReport → Prop where
  | self (home : String) (parts : List PartReport) : Shows id path ⟨path, id, home, parts⟩
  | part {report : EnsembleReport} {parts : List PartReport} {name usage : String} {minChars : Nat}
    (path' : String) (id' : EnsembleId) (home : String) :
    .mk name minChars usage (.ensemble report) ∈ parts → Shows id path report →
      Shows id path ⟨path', id', home, parts⟩

theorem exists_of_mem_mapM {α β : Type} {f : α → Option β} {l : List α} {l' : List β}
    (h : l.mapM f = some l') {y : β} (hy : y ∈ l') : ∃ x ∈ l, f x = some y := by
  induction l generalizing l' with
  | nil =>
    cases h
    cases hy
  | cons x l ih =>
    simp only [List.mapM_cons, bind, Option.bind_eq_some_iff] at h
    obtain ⟨z, hz, zs, hzs, he⟩ := h
    cases he
    rcases List.mem_cons.1 hy with rfl | hy
    · exact ⟨x, List.mem_cons_self .., hz⟩
    · obtain ⟨x', hx', hf⟩ := ih hzs hy
      exact ⟨x', List.mem_cons_of_mem _ hx', hf⟩

namespace Catalog

variable {c : Catalog}

theorem path_of_reportFrom {l : List Ensemble} {h : Handle} {report : EnsembleReport}
    (hr : c.reportFrom l h = some report) {id : EnsembleId} {path : String}
    (hs : report.Shows id path) : path = c.path id := by
  induction l generalizing h report with
  | nil => cases hr
  | cons e younger ih =>
    rw [reportFrom] at hr
    split at hr
    · simp only [bind, Option.bind_eq_some_iff] at hr
      obtain ⟨parts, hparts, he⟩ := hr
      cases he
      cases hs with
      | self => rfl
      | part _ _ _ hm hs =>
        obtain ⟨p, -, hp⟩ := exists_of_mem_mapM hparts hm
        split at hp
        · cases hp
        · cases hp
        · obtain ⟨kind, hk, he⟩ := Option.bind_eq_some_iff.1 hp
          obtain ⟨nested, hn, rfl⟩ := Option.map_eq_some_iff.1 hk
          cases he
          exact ih hn hs
    · exact ih hr hs

end Catalog

namespace Interpreter

/-- In a reachable interpreter the path shown for an ensemble, in reports too, writes words
that resolve to the ensemble, and the words that invoke a part of it are those and the name of
the part, which is found under that name. -/
theorem shown_path_resolves {root : String} {i : Interpreter} (hi : Reachable root i)
    {id : EnsembleId} {e : Ensemble} (he : i.state.catalog.registry.get? id = some e) :
    ∃ words, split (i.state.catalog.path id) = .ok words ∧
      i.state.catalog.resolve words = .ok id ∧
      (∀ report ∈ i.reports, ∀ path, report.Shows id path → path = i.state.catalog.path id) ∧
      ∀ p ∈ e.parts.toList,
        split (i.state.catalog.invocation id p.name) = .ok (words ++ [p.name]) ∧
          e.parts.find? p.name = some p := by
  have hw := hi.wf
  obtain ⟨hem, rfl⟩ := (Registry.get?_eq_some_iff hw.registry).1 he
  obtain ⟨words, hn, hp, hr⟩ := hw.resolve_path hem
  refine ⟨words, hp ▸ split_merge words, hr, fun report hm path hs => ?_, fun p hpm => ⟨?_, ?_⟩⟩
  · obtain ⟨top, -, ht⟩ := List.mem_filterMap.1 hm
    exact Catalog.path_of_reportFrom ht hs
  · exact Catalog.split_invocation hn hp p.name
  · exact (PartTable.find?_eq_some_iff (hw.registry.sorted e hem)).2 ⟨hpm, rfl⟩

/-- So it is for an ensemble whose path has a blank and an empty name in it, and which has a
part whose name has an open brace. -/
theorem shown_path_resolves_odd_names :
    let i := ((((new "::r" 4).create (quote "a b")).2.create (merge ["a b", ""])).2.addPart
      (merge ["a b", ""]) "c \x7b" none ⟨none, Program.echo⟩).2
    ∃ e, i.state.catalog.registry.get? ⟨2⟩ = some e ∧
      e.parts.toList.map Part.name = ["c \x7b"] ∧
      ∃ words, split (i.state.catalog.path ⟨2⟩) = .ok words ∧
        i.state.catalog.resolve words = .ok ⟨2⟩ ∧
        (∀ report ∈ i.reports, ∀ path, report.Shows ⟨2⟩ path →
          path = i.state.catalog.path ⟨2⟩) ∧
        ∀ p ∈ e.parts.toList,
          split (i.state.catalog.invocation ⟨2⟩ p.name) = .ok (words ++ [p.name]) ∧
            e.parts.find? p.name = some p := by
  intro i
  have hnames : (i.state.catalog.registry.get? ⟨2⟩).map (·.parts.toList.map Part.name) =
      some ["c \x7b"] := by
    decide +kernel
  obtain ⟨e, he, hn⟩ := Option.map_eq_some_iff.1 hnames
  have hi : Reachable "::r" i := .addPart _ _ _ _ (.create _ (.create _ (.new 4)))
  exact ⟨e, he, hn, shown_path_resolves hi he⟩

end Interpreter

end Ensembles
