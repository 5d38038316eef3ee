import Ensembles.Native.Stock
import Ensembles.Proofs.OwnedNatives
import Ensembles.Proofs.Reachable
import Mathlib.Data.List.Forall2

/-!
# What reports tell

A report on an ensemble contains those on the ensembles that hang in it, and there is none if
one of these is missing. Going through a report (`EnsembleReport.visits`) comes to the reports
in it in the order in which the way down comes to the ensembles (`Catalog.exists_reportFrom`),
each in the place where its ensemble hangs. Every ensemble is below one top-level ensemble
(`Registry.Wf.flatMap_subtree_perm`); so in a reachable interpreter the reports tell of all
ensembles, and once of each (`Interpreter.reports_complete`).
-/

namespace Ensembles

/-! ## Going through reports -/

/-- A report that is come to, and the place it is found in. -/
structure Visit where
  place : Option ParentLink
  report : EnsembleReport

mutual

/-- The report and all that it contains, each before those it contains itself. -/
def EnsembleReport.visits (place : Option ParentLink) : EnsembleReport → List Visit
  | .mk path id home parts => ⟨place, .mk path id home parts⟩ :: partVisits id parts

/-- The reports that the parts of the ensemble `id` contain. -/
def partVisits (id : EnsembleId) : List PartReport → List Visit
  | [] => []
  | p :: ps => p.visits id ++ partVisits id ps

/-- The reports that the part of the ensemble `id` contains. -/
def PartReport.visits (id : EnsembleId) : PartReport → List Visit
  | .mk name _ _ (.ensemble report) => report.visits (some ⟨id, name⟩)
  | _ => []

end

/-- The reports that going through all of `reports` comes to. -/
def visitsOf (reports : List EnsembleReport) : List Visit := reports.flatMap (·.visits none)

theorem partVisits_eq (id : EnsembleId) (ps : List PartReport) :
    partVisits id ps = ps.flatMap (·.visits id) := by
  induction ps with
  | nil => rfl
  | cons p ps ih => rw [partVisits, ih, List.flatMap_cons]

/-- The ensemble that the report is on. -/
def EnsembleReport.id : EnsembleReport → EnsembleId
  | .mk _ id _ _ => id

namespace Catalog

/-- The kind tells what the handler of the part `name` of the ensemble `id` is. -/
def KindOf (c : Catalog) (id : EnsembleId) (name : String) : Handler → PartKind → Prop
  | .native _, .native => True
  | .procedure _, .procedure => True
  | .ensemble h, .ensemble report =>
    ∃ x, c.registry.bound? h = some x ∧ x.parent = some ⟨id, name⟩ ∧ report.id = x.id
  | _, _ => False

/-- The report shows the part `p` of the ensemble `id`. -/
def ShowsPart (c : Catalog) (id : EnsembleId) (p : Part Handler) : PartReport → Prop
  | .mk name minChars usage kind =>
    name = p.name ∧ minChars = p.minChars ∧ usage = c.usageLine id p ∧
      c.KindOf id p.name p.handler kind

/-- The report shows the ensemble with all its parts in table order. -/
def ShowsEnsemble (c : Catalog) (e : Ensemble) : EnsembleReport → Prop
  | .mk path id home parts =>
    path = c.path e.id ∧ id = e.id ∧ home = e.home ∧
      List.Forall₂ (c.ShowsPart e.id) e.parts.toList parts

/-- The report that is come to is on the ensemble, and in the place where that hangs. -/
def Meets (c : Catalog) (e : Ensemble) (v : Visit) : Prop :=
  v.place = e.parent ∧ c.ShowsEnsemble e v.report

end Catalog

section Lists

variable {α β : Type} {R : α → β → Prop} {f : α → Option β} {l : List α}

theorem exists_mapM (h : ∀ x ∈ l, ∃ y, f x = some y ∧ R x y) :
    ∃ ys, l.mapM f = some ys ∧ List.Forall₂ R l ys := by
  induction l with
  | nil => exact ⟨[], rfl, .nil⟩
  | cons x l ih =>
    rw [List.forall_mem_cons] at h
    obtain ⟨⟨y, hy, hr⟩, hl⟩ := h
    obtain ⟨ys, hys, hrs⟩ := ih hl
    refine ⟨y :: ys, ?_, .cons hr hrs⟩
    rw [List.mapM_cons, hy, hys]
    rfl

theorem forall₂_filterMap (h : ∀ x ∈ l, ∃ y, f x = some y ∧ R x y) :
    List.Forall₂ R l (l.filterMap f) := by
  induction l with
  | nil => exact .nil
  | cons x l ih =>
    rw [List.forall_mem_cons] at h
    obtain ⟨⟨y, hy, hr⟩, hl⟩ := h
    rw [List.filterMap_cons_some hy]
    exact .cons hr (ih hl)

theorem map_eq_of_forall₂ {γ : Type} {g : α → γ} {k : β → γ} {ys : List β}
    (h : List.Forall₂ (fun x y => k y = g x) l ys) : ys.map k = l.map g := by
  induction h with
  | nil => rfl
  | cons hr _ ih => rw [List.map_cons, List.map_cons, hr, ih]

theorem exists_of_forall₂ {ys : List β} (h : List.Forall₂ R l ys) {y : β}
    (hy : y ∈ ys) : ∃ x ∈ l, R x y := by
  induction h with
  | nil => cases hy
  | cons hr _ ih =>
    rcases List.mem_cons.1 hy with rfl | hy
    · exact ⟨_, List.mem_cons_self .., hr⟩
    · obtain ⟨x, hx, hr⟩ := ih hy
      exact ⟨x, List.mem_cons_of_mem _ hx, hr⟩

end Lists

/-! ## Reports on ensembles -/

namespace Catalog

variable {root : String} {c : Catalog} {e : Ensemble}

/-- The report on the ensemble `e` is found for its command, and going through it comes to
`e` and the ensembles below. -/
def ReportedFrom (c : Catalog) (l : List Ensemble) (e : Ensemble) : Prop :=
  ∃ report, c.reportFrom l e.command = some report ∧ report.id = e.id ∧
    List.Forall₂ c.Meets (Registry.descend l e.command) (report.visits e.parent)

/-- There is a report on a part if there is one on the ensemble that it is. -/
theorem exists_partReport {l : List Ensemble} {p : Part Handler} (id : EnsembleId)
    (hp : ∀ h, p.handler = .ensemble h → ∃ x, c.registry.bound? h = some x ∧ x.command = h ∧
      x.parent = some ⟨id, p.name⟩ ∧ c.ReportedFrom l x) :
    ∃ q, (do
        let kind ← match p.handler with
          | .native _ => some .native
          | .procedure _ => some .procedure
          | .ensemble child => (c.reportFrom l child).map .ensemble
        return .mk p.name p.minChars (c.usageLine id p) kind) = some q ∧
      c.ShowsPart id p q ∧
      List.Forall₂ c.Meets
        (p.handler.ensembles (Registry.descend l)) (q.visits id) := by
  cases hh : p.handler with
  | native n => exact ⟨_, rfl, ⟨rfl, rfl, rfl, hh ▸ trivial⟩, .nil⟩
  | procedure q => exact ⟨_, rfl, ⟨rfl, rfl, rfl, hh ▸ trivial⟩, .nil⟩
  | ensemble h =>
    obtain ⟨x, hb, rfl, hpar, report, hr, hid, hv⟩ := hp h hh
    rw [hpar] at hv
    refine ⟨.mk p.name p.minChars (c.usageLine id p) (.ensemble report), ?_, ?_, hv⟩
    · simp only [hr]
      rfl
    · refine ⟨rfl, rfl, rfl, ?_⟩
      rw [hh]
      exact ⟨x, hb, hpar, hid⟩

/-- There is a report on every ensemble. -/
theorem exists_reportFrom (hw : c.registry.Wf) {l : List Ensemble}
    (hl : l <:+ c.registry.ensembles.reverse) (he : e ∈ l) : c.ReportedFrom l e := by
  refine hw.descend_induct (P := c.ReportedFrom) ?_ ?_ hl he
  · intro x l _ hchild
    have hpart (p : Part Handler) (hp : p ∈ x.parts.toList) (h : Handle)
        (hh : p.handler = .ensemble h) :
        ∃ y, c.registry.bound? h = some y ∧ y.command = h ∧
          y.parent = some ⟨x.id, p.name⟩ ∧ c.ReportedFrom l y := by
      obtain ⟨y, hy, hc, hreported⟩ := hchild p hp h hh
      exact ⟨y, (Registry.bound?_eq_some_iff hw).2 ⟨hy, hc⟩, hc, hreported⟩
    obtain ⟨parts, hparts, hshown⟩ :=
      exists_mapM fun p hp => exists_partReport x.id (hpart p hp)
    refine ⟨.mk (c.path x.id) x.id x.home parts, ?_, rfl, ?_⟩
    · rw [reportFrom, if_pos rfl]
      exact Option.bind_eq_some_iff.2 ⟨parts, hparts, rfl⟩
    · rw [Registry.descend, if_pos rfl, EnsembleReport.visits, partVisits_eq]
      have hshows := hshown.imp fun p q hq => hq.1
      exact .cons ⟨rfl, rfl, rfl, rfl, hshows⟩
        (List.rel_flatMap (hshown.imp fun p q hq => hq.2) fun _ _ hv => hv)
  · intro x l y hc hreported
    unfold ReportedFrom
    rw [reportFrom, Registry.descend, if_neg hc, if_neg hc]
    exact hreported

end Catalog

/-! ## All reports -/

namespace Registry

variable {r : Registry} {x : Ensemble}

theorem mem_topLevel : x ∈ r.topLevel ↔ x ∈ r.ensembles ∧ x.parent = none := by
  simp [topLevel, List.mem_mergeSort]

theorem Wf.pairwise_topLevel (hw : r.Wf) :
    r.topLevel.Pairwise fun x y => x.id.number < y.id.number := by
  have hsorted : r.topLevel.Pairwise fun x y => decide (x.id.number ≤ y.id.number) :=
    @List.pairwise_mergeSort Ensemble (fun x y => decide (x.id.number ≤ y.id.number))
      (fun _ _ _ h h' => decide_eq_true (Nat.le_trans (of_decide_eq_true h) (of_decide_eq_true h')))
      (fun x y => by simp [Nat.le_total]) _
  have hids : r.topLevel.Pairwise fun x y => x.id ≠ y.id :=
    ((List.mergeSort_perm _ _).pairwise_iff Ne.symm).2 (hw.ids_ne.filter _)
  refine (hsorted.and hids).imp fun {x y} ⟨hle, hne⟩ =>
    Nat.lt_of_le_of_ne (of_decide_eq_true hle) fun h => hne (congrArg EnsembleId.mk h)

/-- Every ensemble is below one top-level ensemble. -/
theorem Wf.flatMap_subtree_perm (hw : r.Wf) :
    (r.topLevel.flatMap fun e => r.subtree e.command).Perm r.ensembles := by
  have hnodup : (r.topLevel.flatMap fun e => r.subtree e.command).Nodup := by
    refine List.nodup_flatMap.2 ⟨fun e _ => ?_, ?_⟩
    · exact hw.nodup_descend hw.ordered (fun x hx => List.mem_reverse.1 hx) e.command
    · refine hw.pairwise_topLevel.imp_of_mem fun {e e'} he he' hlt x hx hx' => ?_
      obtain ⟨he, hp⟩ := mem_topLevel.1 he
      obtain ⟨he', hp'⟩ := mem_topLevel.1 he'
      have hu := (mem_subtree_iff hw).1 hx
      have hu' := (mem_subtree_iff hw).1 hx'
      obtain ⟨top, names, -, ht, hpath⟩ := trail_spec hw hu.mem
      rw [← hw.eq_top he hp hu hpath ht, ← hw.eq_top he' hp' hu' hpath ht] at hlt
      exact Nat.lt_irrefl _ hlt
  refine (List.perm_ext_iff_of_nodup hnodup hw.nodup).2 fun x => ?_
  rw [List.mem_flatMap]
  constructor
  · rintro ⟨e, -, hx⟩
    exact ((mem_subtree_iff hw).1 hx).mem
  · intro hx
    obtain ⟨top, names, -, ht, hpath⟩ := trail_spec hw hx
    exact ⟨top, mem_topLevel.2 ⟨hpath.top_mem, ht⟩, (mem_subtree_iff hw).2 hpath.under⟩

end Registry

namespace Catalog

variable {root : String} {c : Catalog} {e : Ensemble} {v : Visit}

theorem Meets.id (h : c.Meets e v) : v.report.id = e.id := by
  obtain ⟨place, ⟨path, id, home, parts⟩⟩ := v
  exact h.2.2.1

theorem isEnsemble_iff (hw : c.registry.Wf) {h : Handle} :
    c.isEnsemble h = true ↔ ∃ e ∈ c.registry.ensembles, e.command = h := by
  rw [isEnsemble, hw.idOf?_eq, Option.isSome_map, Option.isSome_iff_exists]
  exact exists_congr fun e => Registry.bound?_eq_some_iff hw

/-- There are as many commands that are bound to ensembles as there are ensembles. -/
theorem Wf.countP_isEnsemble (hw : c.Wf root) :
    (c.commands.entries.countP fun a => c.isEnsemble a.handle) = c.registry.ensembles.length := by
  let bound := c.commands.entries.filter fun a => c.isEnsemble a.handle
  have hperm : (bound.map (·.handle)).Perm (c.registry.ensembles.map (·.command)) := by
    have hbound : (bound.map (·.handle)).Nodup :=
      List.pairwise_map.2 (hw.commands.handles.filter _)
    have hens : (c.registry.ensembles.map (·.command)).Nodup :=
      List.pairwise_map.2 hw.registry.commands
    refine (List.perm_ext_iff_of_nodup hbound hens).2 fun h => ?_
    simp only [bound, List.mem_map, List.mem_filter, isEnsemble_iff hw.registry]
    constructor
    · rintro ⟨a, ⟨-, e, he, hc⟩, rfl⟩
      exact ⟨e, he, hc⟩
    · rintro ⟨e, he, rfl⟩
      obtain ⟨a, ha, hh, -⟩ := hw.owned e he
      exact ⟨a, ⟨ha, e, he, hh.symm⟩, hh⟩
  rw [List.countP_eq_length_filter, ← List.length_map, hperm.length_eq, List.length_map]

/-- Going through all reports comes to the ensembles below the top-level ones. -/
theorem meets_visitsOf_reports (hw : c.registry.Wf) :
    List.Forall₂ (fun e report => report.id = e.id) c.registry.topLevel c.reports ∧
      List.Forall₂ c.Meets (c.registry.topLevel.flatMap fun e => c.registry.subtree e.command)
        (visitsOf c.reports) := by
  have hall : List.Forall₂ (fun e report => report.id = e.id ∧
      List.Forall₂ c.Meets (c.registry.subtree e.command) (report.visits none))
      c.registry.topLevel c.reports := by
    refine forall₂_filterMap fun e he => ?_
    obtain ⟨hem, hp⟩ := Registry.mem_topLevel.1 he
    obtain ⟨report, hr, hid, hv⟩ :=
      exists_reportFrom hw (List.suffix_refl _) (List.mem_reverse.2 hem)
    rw [hp] at hv
    exact ⟨report, hr, hid, hv⟩
  exact ⟨hall.imp fun e report h => h.1,
    List.rel_flatMap (hall.imp fun e report h => h.2) fun _ _ hv => hv⟩

end Catalog

namespace Interpreter

/-- The reports tell of all ensembles, once of each, and of all their parts. -/
structure ReportsAll (i : Interpreter) : Prop where
  /-- The top-level ensembles are reported on, -/
  top : ∀ id, id ∈ i.reports.map (·.id) ↔
    ∃ e, i.state.catalog.registry.get? id = some e ∧ e.parent = none
  /-- in the order of their ids. -/
  ascending : (i.reports.map (·.id.number)).Pairwise (· < ·)
  /-- Going through the reports comes to every ensemble, in the place where it hangs, -/
  complete : ((visitsOf i.reports).map fun v => (v.report.id, v.place)).Perm
    (i.state.catalog.registry.ensembles.map fun e => (e.id, e.parent))
  /-- to none twice, -/
  distinct : ((visitsOf i.reports).map (·.report.id)).Nodup
  /-- and shows the parts of each in table order. -/
  shown : ∀ v ∈ visitsOf i.reports, ∃ e,
    i.state.catalog.registry.get? v.report.id = some e ∧ i.state.catalog.Meets e v
  /-- There are as many reports to come to as there are commands that are bound to ensembles. -/
  counted : (visitsOf i.reports).length =
    i.commandNames.countP fun name => (i.find? name).any i.isEnsemble

/-- The names of the commands that are bound to ensembles are as many as the ensembles. -/
theorem countP_commandNames {root : String} {i : Interpreter} (hw : i.state.catalog.Wf root) :
    (i.commandNames.countP fun name => (i.find? name).any i.isEnsemble) =
      i.state.catalog.registry.ensembles.length := by
  rw [commandNames, CommandTable.names, (List.mergeSort_perm _ _).countP_eq, List.countP_map,
    hw.commands.byName_perm.countP_eq, List.countP_map, ← hw.countP_isEnsemble]
  refine List.countP_congr fun a ha => ?_
  have hh := (CommandTable.handleOf?_eq_some_iff hw.commands).2 ⟨a, ha, rfl, rfl⟩
  simp only [Function.comp_apply, find?, hh, Option.any_some, isEnsemble]

/-- In a reachable interpreter the reports tell of all ensembles, and once of each. -/
theorem reports_complete {root : String} {i : Interpreter} (hi : Reachable root i) :
    i.ReportsAll := by
  have hw := hi.wf
  obtain ⟨htop, hmeets⟩ := Catalog.meets_visitsOf_reports hw.registry
  have hperm := hw.registry.flatMap_subtree_perm
  have hids : i.reports.map (·.id) = i.state.catalog.registry.topLevel.map (·.id) :=
    map_eq_of_forall₂ htop
  have hplaces : (visitsOf i.reports).map (fun v => (v.report.id, v.place)) =
      (i.state.catalog.registry.topLevel.flatMap fun e =>
        i.state.catalog.registry.subtree e.command).map fun e => (e.id, e.parent) :=
    map_eq_of_forall₂ (hmeets.imp fun e v hv => Prod.ext hv.id hv.1)
  have hcomplete : ((visitsOf i.reports).map fun v => (v.report.id, v.place)).Perm
      (i.state.catalog.registry.ensembles.map fun e => (e.id, e.parent)) :=
    hplaces ▸ hperm.map _
  refine {
    top := fun id => ?_
    ascending := ?_
    complete := hcomplete
    distinct := ?_
    shown := fun v hv => ?_
    counted := ?_ }
  · simp only [hids, List.mem_map, Registry.mem_topLevel, Registry.get?_eq_some_iff hw.registry]
    exact exists_congr fun e => and_right_comm
  · have hnumbers := congrArg (List.map EnsembleId.number) hids
    rw [List.map_map, List.map_map] at hnumbers
    exact hnumbers ▸ List.pairwise_map.2 hw.registry.pairwise_topLevel
  · have hfst := hcomplete.map Prod.fst
    rw [List.map_map, List.map_map] at hfst
    exact hfst.nodup_iff.2 (List.pairwise_map.2 hw.registry.ids_ne)
  · obtain ⟨e, he, hev⟩ := exists_of_forall₂ hmeets hv
    have hem := hperm.mem_iff.1 he
    exact ⟨e, (Registry.get?_eq_some_iff hw.registry).2 ⟨hem, hev.id.symm⟩, hev⟩
  · have hlen := hcomplete.length_eq
    rw [List.length_map, List.length_map] at hlen
    rw [countP_commandNames hw, hlen]

/-- They tell of two ensembles in another one, one of them made anew by the name of one that
was deleted with all that hung in it. -/
theorem reports_complete_made_anew :
    let i := ((((((((new "::r" 4).create "a").2.create "a b").2.create "a b c").2.delete
      "::r::subensembles::1::b").2.create "a d").2.create "a b").2.addPart "a b" "e" none
      ⟨none, Program.echo⟩).2
    i.ReportsAll ∧ (visitsOf i.reports).map (fun v => (v.report.id, v.place)) =
      [(⟨1⟩, none), (⟨5⟩, some ⟨⟨1⟩, "b"⟩), (⟨4⟩, some ⟨⟨1⟩, "d"⟩)] := by
  intro i
  have hi : Reachable "::r" i :=
    .addPart _ _ _ _ (.create _ (.create _ (.delete _ (.create _ (.create _ (.create _
      (.new 4)))))))
  exact ⟨reports_complete hi, by decide +kernel⟩

end Interpreter

end Ensembles
