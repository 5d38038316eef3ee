import Ensembles.Proofs.OwnedNatives

/-!
# What commands run and tables hold

Operations on a catalogue put new targets into commands and new handlers into tables, and take
away. So what holds of all that they put in, and of a table however it has been changed, holds
of all the catalogue has (`Catalog.Made`). No link between ensembles matters for this: it is so
in every catalogue, whatever its ensembles say about each other.

`Catalog.forall_natives_iff` brings this to bear on natives: what holds of those that are given
along, and of those owned before, holds of those owned afterwards.
-/

namespace Ensembles

/-- What holds of the empty table, and of a table still after a part is inserted whose handler is
`good`, or one is removed. -/
structure PartTable.Closed (good : Handler → Prop) (P : PartTable Handler → Prop) : Prop where
  empty : P .empty
  insert {t t' : PartTable Handler} {name : String} {usage : Option String} {handler : Handler} :
    P t → good handler → t.insert? name usage handler = some t' → P t'
  erase {t : PartTable Handler} (name : String) : P t → P (t.erase name)

/-- All commands and tables of the catalogue are of a kind. -/
structure Catalog.Made (T : Target → Prop) (P : PartTable Handler → Prop) (c : Catalog) :
    Prop where
  targets : ∀ a ∈ c.commands.entries, T a.target
  tables : ∀ e ∈ c.registry.ensembles, P e.parts

namespace Catalog

variable {T : Target → Prop} {good : Handler → Prop} {P : PartTable Handler → Prop} {c : Catalog}
  {name : String} {target : Target} {id parent : EnsembleId}

/-! ## Changes of the commands and of the ensembles -/

theorem Made.remove (hm : c.Made T P) (h : Handle) :
    Made T P { c with commands := c.commands.remove h } :=
  ⟨fun a ha => hm.targets a (CommandTable.mem_of_mem_remove ha), hm.tables⟩

theorem Made.place (hm : c.Made T P) (name : String) (ht : T target) :
    Made T P { c with commands := c.commands.put name target } :=
  ⟨fun a ha => by
    rcases CommandTable.mem_put ha with rfl | ha
    · exact ht
    · exact hm.targets a ha, hm.tables⟩

theorem Made.modifyParts (hm : c.Made T P) (id : EnsembleId)
    {f : PartTable Handler → PartTable Handler} (hf : ∀ t, P t → P (f t)) :
    Made T P { c with registry := c.registry.modifyParts id f } := by
  refine ⟨hm.targets, List.forall_mem_map.2 fun e he => ?_⟩
  split
  · exact hf _ (hm.tables e he)
  · exact hm.tables e he

theorem Made.add (hP : PartTable.Closed good P) (hm : c.Made T P) (command : Handle)
    (link : Option ParentLink) :
    Made T P { c with registry := c.registry.add command link } :=
  ⟨hm.targets, List.forall_mem_cons.2 ⟨hP.empty, hm.tables⟩⟩

theorem Made.detach (hP : PartTable.Closed good P) (hm : c.Made T P) (e : Ensemble) :
    Made T P { c with registry := c.registry.detach e } := by
  unfold Registry.detach
  split
  · exact hm
  · refine hm.modifyParts _ fun t ht => ?_
    unfold Registry.unhang
    split
    · split
      · exact hP.erase _ ht
      · exact ht
    · exact ht

/-! ## Operations -/

theorem Made.forget (hP : PartTable.Closed good P) (hm : c.Made T P) (e : Ensemble) :
    (c.forget e).Made T P := by
  have hremoved : Made T P ⟨c.commands.remove e.command, c.registry.remove e⟩ :=
    ⟨(hm.remove e.command).targets, fun x hx => hm.tables x (List.mem_filter.1 hx).1⟩
  exact hremoved.detach hP e

theorem Made.destroy (hP : PartTable.Closed good P) (hm : c.Made T P) (h : Handle) :
    (c.destroy h).catalog.Made T P :=
  destroy_preserves (fun _ _ e _ hm => hm.forget hP e) hm h

theorem Made.delete (hP : PartTable.Closed good P) (hm : c.Made T P) (name : String) :
    (c.delete name).catalog.Made T P := by
  unfold Catalog.delete
  split
  · exact hm
  · exact (hm.remove _).destroy hP _

theorem Made.put (hP : PartTable.Closed good P) (hm : c.Made T P) (name : String) (ht : T target) :
    (c.put name target).catalog.Made T P := by
  unfold Catalog.put
  split
  · exact hm.place name ht
  · exact (hm.place name ht).destroy hP _

section Ensembles

variable (hP : PartTable.Closed good P) (hT : T .ensemble) (hgood : ∀ h, good (.ensemble h))
include hP hT

theorem Made.locateTop (hm : c.Made T P) (name : String) : (c.locateTop name).catalog.Made T P := by
  unfold Catalog.locateTop Catalog.createTop
  split
  · split
    · exact hm
    · exact (hm.put hP name hT).add hP _ _
  · split <;> exact hm

include hgood

theorem Made.createNested (hm : c.Made T P) (parent : EnsembleId) (name : String) :
    (c.createNested parent name).catalog.Made T P := by
  have hput := hm.put hP (c.registry.privateName parent name) hT
  have hmade := hput.add hP c.commands.nextHandle (some ⟨parent, name⟩)
  unfold Catalog.createNested
  split
  · exact hm
  · split
    · exact hm
    · simp only
      split
      · exact hmade.destroy hP _
      · rename_i parts hi
        obtain ⟨p, hp, hi⟩ := Option.bind_eq_some_iff.1 hi
        have hparts := hP.insert (hput.tables p (List.mem_of_find?_eq_some hp)) (hgood _) hi
        exact hmade.modifyParts parent fun _ _ => hparts

theorem Made.locateNested (hm : c.Made T P) (parent : EnsembleId) (name : String) :
    (c.locateNested parent name).catalog.Made T P := by
  unfold Catalog.locateNested
  split
  · exact hm.createNested hP hT hgood parent name
  · split <;> exact hm
  · exact hm

theorem Made.create (hm : c.Made T P) (text : String) : (c.create text).catalog.Made T P := by
  unfold Catalog.create
  split
  · exact hm
  · exact hm
  · exact hm.locateTop hP hT _
  · split
    · exact hm
    · exact hm.locateNested hP hT hgood _ _

end Ensembles

theorem Made.addPart (hP : PartTable.Closed good P) (hm : c.Made T P) {usage : Option String}
    {handler : Handler} {c' : Catalog} (h : c.addPart id name usage handler = .ok c')
    (hg : good handler) : c'.Made T P := by
  obtain ⟨e, parts, he, hi, rfl⟩ := addPart_eq_ok h
  have hparts := hP.insert (hm.tables e (List.mem_of_find?_eq_some he)) hg hi
  exact hm.modifyParts id fun _ _ => hparts

theorem Made.addNative (hP : PartTable.Closed good P) (hm : c.Made T P) (path name : String)
    (usage : Option String) {h : Hosted} (hg : good (.native h)) :
    (c.addNative path name usage h).catalog.Made T P := by
  obtain hc | ⟨id, hc⟩ := addNative_cases c path name usage h
  · rwa [hc]
  · exact hm.addPart hP hc hg

theorem Made.addProcedure (hP : PartTable.Closed good P) (hm : c.Made T P) {signature : Signature}
    {body : String} {c' : Catalog} (h : c.addProcedure id name signature body = .ok c')
    (hg : ∀ p, good (.procedure p)) : c'.Made T P := by
  obtain ⟨e, -, ha⟩ := addProcedure_eq_ok h
  exact hm.addPart hP ha (hg _)

end Catalog

/-! ## Natives -/

section Natives

variable {Q : Hosted → Prop}

/-- A table changes by its natives being taken away and others being put in. -/
theorem PartTable.closed_natives (Q : Hosted → Prop) :
    Closed (fun handler => ∀ n ∈ handler.natives, Q n)
      (fun t => ∀ x ∈ t.contents, ∀ n ∈ x.2.2.natives, Q n) where
  empty := nofun
  insert {t t' name usage handler} ht hg hi x hx := by
    unfold insert? at hi
    split at hi
    · cases hi
    · rename_i i _
      cases hi
      change x ∈ (refreshAround _ i).toList.map Part.content at hx
      rw [content_refreshAround, Array.insertIdxIfInBounds] at hx
      split at hx
      · rw [Array.toList_insertIdx, List.map_insertIdx] at hx
        rcases List.eq_or_mem_of_mem_insertIdx hx with rfl | hx
        · exact hg
        · exact ht x hx
      · exact ht x hx
  erase {t} name ht x hx := by
    unfold PartTable.erase at hx
    split at hx
    · rw [contents_eraseAt] at hx
      exact ht x (List.mem_of_mem_eraseIdx hx)
    · exact ht x hx

/-- Of natives it is enough to know those that commands and tables own. -/
theorem Catalog.forall_natives_iff (c : Catalog) :
    (∀ n ∈ c.natives, Q n) ↔
      c.Made (fun target => ∀ n ∈ target.natives, Q n)
        (fun t => ∀ x ∈ t.contents, ∀ n ∈ x.2.2.natives, Q n) := by
  rw [Catalog.natives_eq]
  simp only [List.forall_mem_append, CommandTable.natives, Registry.natives, Ensemble.natives,
    List.forall_mem_flatMap]
  exact ⟨fun h => ⟨h.1, h.2⟩, fun h => ⟨h.targets, h.tables⟩⟩

end Natives

end Ensembles
