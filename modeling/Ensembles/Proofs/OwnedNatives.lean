import Ensembles.Proofs.CatalogGrowth
import Mathlib.Data.List.Nodup
import Mathlib.Data.List.Perm.Basic

/-!
# The natives of a catalogue

Commands and parts own natives. A change of the catalogue moves them: what it was given and
what was owned before is afterwards owned or freed, each native once (`Edit.Conserves`).

* `descendNatives_perm`: the natives of a subtree are those of its ensembles;
* `Wf.natives_prune`: cutting off an ensemble frees just these;
* `conserves_delete`, `conserves_put`, `conserves_create`, `conserves_addNative`: no operation
  loses a native or frees one that stays.
-/

namespace Ensembles

/-- The natives that the handler owns. -/
def Handler.natives : Handler → List Hosted
  | native h => [h]
  | procedure _ | ensemble _ => []

/-- The natives that the parts of the ensemble own. -/
def Ensemble.natives (e : Ensemble) : List Hosted := e.parts.contents.flatMap (·.2.2.natives)

/-- The natives that the parts of ensembles own. -/
def Registry.natives (r : Registry) : List Hosted := r.ensembles.flatMap Ensemble.natives

/-- The natives that commands own. -/
def CommandTable.natives (t : CommandTable) : List Hosted := t.entries.flatMap (·.target.natives)

theorem Ensemble.natives_eq (e : Ensemble) :
    e.natives = e.parts.toList.flatMap (·.handler.natives) := by
  rw [natives, PartTable.contents, List.flatMap_map]
  rfl

theorem Catalog.natives_eq (c : Catalog) :
    c.natives = c.commands.natives ++ c.registry.natives := by
  unfold natives CommandTable.natives Registry.natives
  congr 1
  refine List.flatMap_congr fun e _ => ?_
  rw [Ensemble.natives_eq]
  refine List.flatMap_congr fun p _ => ?_
  cases p.handler <;> rfl

theorem Catalog.natives_initial (root : String) : (initial root).natives = [] := by
  have hbuiltin : CommandTable.initial.natives = [] := by decide +kernel
  rw [natives_eq]
  show CommandTable.initial.natives ++ [] = []
  rw [hbuiltin]
  rfl

section Lists

variable {β γ : Type} {f : β → List γ} {p : β → Bool}

/-- What yields nothing may be left out. -/
theorem flatMap_filter_eq {l : List β} (h : ∀ x ∈ l, p x = false → f x = []) :
    (l.filter p).flatMap f = l.flatMap f := by
  induction l with
  | nil => rfl
  | cons x l ih =>
    rw [List.forall_mem_cons] at h
    cases hp : p x with
    | true => rw [List.filter_cons_of_pos hp, List.flatMap_cons, List.flatMap_cons, ih h.2]
    | false =>
      rw [List.filter_cons_of_neg (by simp [hp]), ih h.2, List.flatMap_cons, h.1 hp,
        List.nil_append]

/-- What a list yields is what the entries in and out of a class yield. -/
theorem flatMap_perm_filter (l : List β) (p : β → Bool) (f : β → List γ) :
    (l.flatMap f).Perm ((l.filter p).flatMap f ++ (l.filter (!p ·)).flatMap f) := by
  rw [← List.flatMap_append]
  exact (List.filter_append_perm p l).symm.flatMap_right f

end Lists

/-! ## Subtrees -/

namespace Registry

variable {r : Registry} {e x p : Ensemble}

/-- The natives found on the way down are those of the ensembles found. -/
theorem descendNatives_perm (l : List Ensemble) (h : Handle) :
    (descendNatives l h).Perm ((descend l h).flatMap Ensemble.natives) := by
  induction l generalizing h with
  | nil => exact .nil
  | cons e l ih =>
    rw [descendNatives, descend]
    split
    · rw [List.flatMap_cons, Ensemble.natives_eq]
      generalize e.parts.toList = ps
      induction ps with
      | nil => exact .nil
      | cons p ps ihp =>
        simp only [List.flatMap_cons, List.flatMap_append]
        cases p.handler with
        | native n => exact .cons n ihp
        | procedure q => exact ihp
        | ensemble child =>
          refine ((ih child).append ihp).trans ?_
          simp only [Handler.natives, List.nil_append]
          exact List.perm_append_comm_assoc ..
    · exact ih h

/-- The ensembles that are cut off are those of the subtree. -/
theorem Wf.subtree_perm (hw : r.Wf) (h : Handle) :
    (r.subtree h).Perm (r.ensembles.filter (·.id ∈ (r.subtree h).map (·.id))) := by
  have hs : (r.subtree h).Nodup :=
    hw.nodup_descend hw.ordered (fun _ hx => List.mem_reverse.1 hx) h
  refine (List.perm_ext_iff_of_nodup hs (hw.nodup.filter _)).2 fun x => ?_
  rw [List.mem_filter, decide_eq_true_iff]
  refine ⟨fun hx => ⟨((mem_subtree_iff hw).1 hx).mem, List.mem_map_of_mem hx⟩, fun ⟨hx, hid⟩ => ?_⟩
  exact (mem_subtree_iff hw).2 ((mem_ids_subtree_iff hw hx).1 hid)

theorem Wf.subtreeNatives_perm (hw : r.Wf) (h : Handle) :
    (r.subtreeNatives h).Perm
      ((r.ensembles.filter (·.id ∈ (r.subtree h).map (·.id))).flatMap Ensemble.natives) :=
  (descendNatives_perm _ h).trans ((hw.subtree_perm h).flatMap_right _)

/-! ## Changes of the forest -/

/-- Taking an ensemble out of the table it hangs in takes out no native. -/
theorem Wf.natives_without (hw : r.Wf) (hx : x ∈ r.ensembles) :
    (x.without e).natives = x.natives := by
  have hunhang {t : PartTable Handler} (ht : t.Sorted) (name : String) (h : Handle) :
      (unhang h name t).contents.flatMap (·.2.2.natives) =
        t.contents.flatMap (·.2.2.natives) := by
    unfold unhang
    split
    · rename_i n m u c hf
      split
      · rw [PartTable.erase_contents ht]
        refine flatMap_filter_eq fun item hi hn => ?_
        obtain ⟨q, hq, rfl⟩ := PartTable.mem_contents.1 hi
        obtain ⟨hpm, hpn⟩ := PartTable.find?_mem hf
        have hqn : q.name = name := Decidable.not_not.1 (of_decide_eq_false hn)
        rw [ht.eq_of_name_eq hq hpm (hqn.trans hpn.symm)]
        rfl
      · rfl
    · rfl
  unfold Ensemble.without
  split
  · rfl
  · split
    · exact hunhang (hw.sorted x hx) _ _
    · rfl

/-- With an ensemble just the natives of its subtree go. -/
theorem Wf.natives_prune (hw : r.Wf) (e : Ensemble) :
    r.natives.Perm (r.subtreeNatives e.command ++ (r.prune e).natives) := by
  have hleft : (r.prune e).natives =
      (r.ensembles.filter (·.id ∉ (r.subtree e.command).map (·.id))).flatMap Ensemble.natives := by
    rw [prune_eq, natives, List.flatMap_map]
    exact List.flatMap_congr fun x hx => hw.natives_without (List.mem_filter.1 hx).1
  rw [hleft]
  refine (flatMap_perm_filter _ (·.id ∈ (r.subtree e.command).map (·.id)) _).trans ?_
  refine (hw.subtreeNatives_perm _).symm.append (.of_eq ?_)
  congr 2
  funext x
  exact (decide_not ..).symm

/-- A new part brings the natives of its handler. -/
theorem Wf.natives_insert (hw : r.Wf) (hp : p ∈ r.ensembles) {name : String}
    {usage : Option String} {handler : Handler} {parts : PartTable Handler}
    (hi : p.parts.insert? name usage handler = some parts) :
    (handler.natives ++ r.natives).Perm
      ((r.ensembles.map (·.withParts p.id parts)).flatMap Ensemble.natives) := by
  obtain ⟨before, after, hr⟩ := List.append_of_mem hp
  have hids := hw.ids_ne
  rw [hr, List.pairwise_append, List.pairwise_cons] at hids
  have hother (x : Ensemble) (hx : x.id ≠ p.id) : x.withParts p.id parts = x := if_neg hx
  have hparts : (p.withParts p.id parts).natives.Perm (handler.natives ++ p.natives) := by
    obtain ⟨i, hpl, hc⟩ := PartTable.insert?_eq_some (hw.sorted p hp) hi
    have hle : i ≤ p.parts.contents.length := by
      rw [PartTable.contents, List.length_map]
      exact (bisect_gap ((hw.sorted p hp).ascends name) hpl).1
    rw [Ensemble.withParts, if_pos rfl, Ensemble.natives, hc]
    exact (List.perm_insertIdx _ _ hle).flatMap_right _
  rw [natives, hr, List.map_append, List.map_cons,
    List.map_congr_left (g := id) fun x hx => hother x (hids.2.2 x hx p (List.mem_cons_self ..)),
    List.map_congr_left (g := id) fun x hx => hother x (hids.2.1.1 x hx).symm,
    List.map_id, List.map_id]
  simp only [List.flatMap_append, List.flatMap_cons]
  refine List.perm_append_comm_assoc .. |>.trans (.append_left _ ?_)
  rw [← List.append_assoc]
  exact hparts.symm.append_right _

end Registry

/-! ## Changes of commands -/

namespace CommandTable

variable {t : CommandTable} {a : CommandEntry}

/-- With a command the native that it owns goes. -/
theorem Wf.natives_erase (hw : t.Wf) (ha : a ∈ t.entries) :
    t.natives.Perm (a.target.natives ++ (t.erase [a.handle]).natives) := by
  obtain ⟨before, after, ht⟩ := List.append_of_mem ha
  have hh := hw.handles
  rw [ht, List.pairwise_append, List.pairwise_cons] at hh
  have hb : before.filter (·.handle ∉ [a.handle]) = before :=
    List.filter_eq_self.2 fun b hb => by simpa using hh.2.2 b hb a (List.mem_cons_self ..)
  have ha : after.filter (·.handle ∉ [a.handle]) = after :=
    List.filter_eq_self.2 fun b hb => by simpa using (hh.2.1.1 b hb).symm
  rw [natives, natives, CommandTable.erase, ht, List.filter_append, hb,
    List.filter_cons_of_neg (by simp), ha]
  simp only [List.flatMap_append, List.flatMap_cons]
  exact List.perm_append_comm_assoc ..

theorem natives_install (t : CommandTable) (name : String) (target : Target) :
    (t.install name target).natives = target.natives ++ t.natives :=
  rfl

end CommandTable

/-! ## Operations -/

/-- What was given along or was owned in `c` is owned or freed after the attempt. -/
def Edit.Conserves {α : Type} (given : List Hosted) (c : Catalog) (edit : Edit α) : Prop :=
  (given ++ c.natives).Perm (edit.freed ++ edit.catalog.natives)

namespace Catalog

variable {α : Type} {root : String} {c : Catalog} {a : CommandEntry} {e p : Ensemble}
  {name : String} {target : Target} {h : Handle}

theorem conserves_refuse (c : Catalog) (cause : Cause) :
    (c.refuse cause : Edit α).Conserves [] c :=
  .refl _

theorem conserves_keep (c : Catalog) (a : α) : (c.keep a).Conserves [] c :=
  .refl _

/-- The commands of ensembles own no natives. -/
theorem Wf.natives_commands_prune (hw : c.Wf root) (e : Ensemble) :
    (c.prune e).commands.natives = c.commands.natives := by
  refine flatMap_filter_eq fun a ha hgone => ?_
  have hm := Decidable.not_not.1 (of_decide_eq_false hgone)
  obtain ⟨x, hx, hc⟩ := (mem_commands_subtree_iff hw.registry).1 hm
  rw [(hw.owner hx.mem ha hc).1]
  rfl

theorem Wf.natives_prune (hw : c.Wf root) (e : Ensemble) :
    c.natives.Perm (c.registry.subtreeNatives e.command ++ (c.prune e).natives) := by
  rw [natives_eq, natives_eq, hw.natives_commands_prune e]
  refine ((hw.registry.natives_prune e).append_left _).trans ?_
  exact List.perm_append_comm_assoc ..

theorem conserves_delete (hw : c.Wf root) (name : String) : (c.delete name).Conserves [] c := by
  unfold Edit.Conserves
  rw [List.nil_append]
  cases hf : c.commands.find? name with
  | none =>
    rw [hw.delete_of_absent hf]
    exact .refl _
  | some a =>
    cases hb : c.registry.bound? a.handle with
    | none =>
      rw [hw.delete_of_unbound hf hb, natives_eq, natives_eq, ← List.append_assoc]
      have ha := ((CommandTable.find?_eq_some_iff hw.commands).1 hf).1
      exact (hw.commands.natives_erase ha).append_right _
    | some e =>
      rw [hw.delete_eq hf hb]
      exact hw.natives_prune e

theorem natives_install (c : Catalog) (name : String) (target : Target) :
    (c.install name target).natives = target.natives ++ c.natives := by
  rw [natives_eq, natives_eq, install, CommandTable.natives_install, List.append_assoc]

theorem conserves_put (hw : c.Wf root) (name : String) (target : Target) :
    (c.put name target).Conserves target.natives c := by
  have hd := conserves_delete hw name
  unfold Edit.Conserves at hd ⊢
  rw [hw.put_eq, natives_install]
  exact (hd.append_left target.natives).trans (List.perm_append_comm_assoc ..)

theorem conserves_createTop (hw : c.Wf root) (name : String) :
    (c.createTop name).Conserves [] c := by
  unfold createTop
  split
  · exact conserves_refuse c _
  · exact conserves_put hw name .ensemble

theorem freed_createNested {parent : EnsembleId} (hp : c.registry.get? parent = some p)
    (hn : p.parts.find? name = none) :
    (c.createNested parent name).freed =
      (c.put (c.registry.privateName parent name) .ensemble).freed := by
  unfold createNested
  rw [hp]
  simp only [hn, Option.isSome_none, Bool.false_eq_true, if_false]
  split <;> rfl

theorem conserves_createNested (hw : c.Wf root) (parent : EnsembleId) (name : String) :
    (c.createNested parent name).Conserves [] c := by
  have hd := hw.delete (c.registry.privateName parent name)
  have hput := conserves_put hw (c.registry.privateName parent name) .ensemble
  unfold Edit.Conserves at hput ⊢
  rw [put_catalog hw, natives_install] at hput
  obtain ⟨-, cause, h⟩ | ⟨p, hp, hn, -, -, h⟩ | ⟨p, q, parts, hp, hn, hq, hi, -, h⟩ :=
    createNested_cases hw parent name
  · rw [h]
    exact conserves_refuse c cause
  · rw [h, freed_createNested hp hn]
    exact hput
  · rw [h, freed_createNested hp hn]
    obtain ⟨hqm, rfl⟩ := (Registry.get?_eq_some_iff hd.registry).1 hq
    refine hput.trans (.append_left _ ?_)
    rw [natives_eq, natives_eq, CommandTable.natives_install, Registry.natives, Registry.natives,
      Registry.modifyParts_add hd.registry hqm]
    exact List.Perm.append_left (c.delete _).catalog.commands.natives
      (hd.registry.natives_insert hqm hi)

theorem conserves_locateTop (hw : c.Wf root) (name : String) :
    (c.locateTop name).Conserves [] c := by
  unfold locateTop
  split
  · exact conserves_createTop hw name
  · split
    · exact conserves_refuse c _
    · exact conserves_keep c _

theorem conserves_locateNested (hw : c.Wf root) (parent : EnsembleId) (name : String) :
    (c.locateNested parent name).Conserves [] c := by
  unfold locateNested
  split
  · exact conserves_createNested hw parent name
  · split
    · exact conserves_refuse c _
    · exact conserves_keep c _
  · exact conserves_refuse c _

theorem conserves_create (hw : c.Wf root) (text : String) : (c.create text).Conserves [] c := by
  unfold create
  split
  · exact conserves_refuse c _
  · exact conserves_refuse c _
  · exact conserves_locateTop hw _
  · split
    · exact conserves_refuse c _
    · exact conserves_locateNested hw _ _

theorem Wf.natives_addPart (hw : c.Wf root) {id : EnsembleId} {usage : Option String}
    {handler : Handler} {c' : Catalog} (h : c.addPart id name usage handler = .ok c') :
    (handler.natives ++ c.natives).Perm c'.natives := by
  obtain ⟨e, parts, he, hi, rfl⟩ := addPart_eq_ok h
  obtain ⟨hem, rfl⟩ := (Registry.get?_eq_some_iff hw.registry).1 he
  rw [natives_eq, natives_eq]
  refine List.perm_append_comm_assoc .. |>.trans (.append_left _ ?_)
  exact hw.registry.natives_insert hem hi

/-- A part that runs a procedure owns no native. -/
theorem Wf.natives_addProcedure (hw : c.Wf root) {id : EnsembleId} {signature : Signature}
    {body : String} {c' : Catalog} (h : c.addProcedure id name signature body = .ok c') :
    c.natives.Perm c'.natives := by
  obtain ⟨e, -, ha⟩ := addProcedure_eq_ok h
  exact hw.natives_addPart ha

theorem conserves_addNative (hw : c.Wf root) (path name : String) (usage : Option String)
    (h : Hosted) : (c.addNative path name usage h).Conserves [h] c := by
  unfold addNative
  cases hr : c.resolveText path with
  | error cause => exact .refl _
  | ok id =>
    simp only [Except.bind]
    cases ha : c.addPart id name usage (.native h) with
    | error cause => exact .refl _
    | ok c' => exact hw.natives_addPart ha

end Catalog

end Ensembles
