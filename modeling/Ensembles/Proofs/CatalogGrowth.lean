import Ensembles.Administration
import Ensembles.Declaration
import Ensembles.Proofs.CatalogChanges

/-!
# Making ensembles and adding parts

Each operation on the catalogue gives a well-formed catalogue again. For a nested ensemble
`Catalog.createNested_cases` says how that can go. Its command is registered first, and that
may destroy the very ensemble it is to hang in; then nothing is left of the attempt but
numbers (`Catalog.skip`) and what the removal took away.
-/

namespace Ensembles

namespace Catalog

variable {root : String} {c : Catalog} {e p x : Ensemble} {parent : EnsembleId} {name : String}

/-! ## Making ensembles -/

theorem nextHandle_delete (hw : c.Wf root) (name : String) :
    (c.delete name).catalog.commands.nextHandle = c.commands.nextHandle := by
  unfold CommandTable.nextHandle
  rw [issued_delete hw]

theorem Wf.createTop (hw : c.Wf root) (name : String) : (c.createTop name).catalog.Wf root := by
  unfold Catalog.createTop
  split
  · exact hw
  · have hd := hw.delete name
    show Wf root { (c.put name .ensemble).catalog with registry := _ }
    rw [put_catalog hw, ← nextHandle_delete hw name]
    have hr := hd.registry.addTop fun x hx => hd.ne_nextHandle hx
    refine hd.found (f := id) hw.find?_delete hr rfl
      (e := (c.delete name).catalog.registry.fresh _ none) ?_ (fun x => ⟨rfl, rfl⟩) rfl nofun
    rw [List.map_id]
    rfl

/-- A removal gives no ensemble a new part. -/
theorem mem_ensembles_delete (hw : c.Wf root)
    (hx : x ∈ (c.delete name).catalog.registry.ensembles) :
    ∃ y ∈ c.registry.ensembles, y.id = x.id ∧
      ∀ item ∈ x.parts.contents, item ∈ y.parts.contents := by
  obtain ⟨-, hd⟩ | ⟨a, -, -, hd⟩ | ⟨a, e, -, hb, hd⟩ := delete_cases hw name <;> rw [hd] at hx
  · exact ⟨x, hx, rfl, fun _ => id⟩
  · exact ⟨x, hx, rfl, fun _ => id⟩
  · obtain ⟨y, hy, -, rfl⟩ := (Registry.mem_prune_iff hw.registry).1 hx
    have he := ((Registry.bound?_eq_some_iff hw.registry).1 hb).1
    exact ⟨y, hy, (y.id_without e).symm, fun item hi => ((hw.registry.mem_without he hy).1 hi).1⟩

theorem Wf.find?_delete_parts (hw : c.Wf root) {path : String} {q : Ensemble}
    (hp : c.registry.get? parent = some p)
    (hq : (c.delete path).catalog.registry.get? parent = some q)
    (hn : p.parts.find? name = none) : q.parts.find? name = none := by
  have hd := hw.delete path
  obtain ⟨hpm, hpid⟩ := (Registry.get?_eq_some_iff hw.registry).1 hp
  obtain ⟨hqm, hqid⟩ := (Registry.get?_eq_some_iff hd.registry).1 hq
  obtain ⟨y, hy, hid, hsub⟩ := mem_ensembles_delete hw hqm
  have hyp : y = p := hw.registry.eq_of_id hy hpm (hid.trans (hqid.trans hpid.symm))
  rw [PartTable.find?_eq_none_iff (hd.registry.sorted q hqm)]
  rw [PartTable.find?_eq_none_iff (hw.registry.sorted p hpm)] at hn
  exact fun item hi => hn item (hyp ▸ hsub item hi)

/-- An ensemble that has just been made, and hangs in none that there is, goes without a
trace but its numbers. -/
theorem destroy_made (hw : c.Wf root) {path : String} (hn : c.commands.find? path = none)
    (hp : c.registry.get? parent = none) (name : String) :
    (destroy ⟨c.commands.install path .ensemble,
      c.registry.add c.commands.nextHandle (some ⟨parent, name⟩)⟩
        c.commands.nextHandle).catalog = c.skip := by
  let new := c.registry.fresh c.commands.nextHandle (some ⟨parent, name⟩)
  let made : Catalog := ⟨c.commands.install path .ensemble,
    c.registry.add c.commands.nextHandle (some ⟨parent, name⟩)⟩
  have hb : made.registry.bound? c.commands.nextHandle = some new := by
    have hid : made.registry.idOf? c.commands.nextHandle = some c.registry.nextId :=
      List.lookup_cons_self
    have hget : made.registry.get? c.registry.nextId = some new :=
      List.find?_cons_of_pos (decide_eq_true rfl)
    rw [Registry.bound?, hid, Option.bind_some, hget]
  have hforget : made.forget new = c.skip := by
    have hcommands : made.commands.remove c.commands.nextHandle =
        { c.commands with issued := c.commands.issued + 1 } :=
      hw.commands.remove_install ((CommandTable.find?_eq_none_iff hw.commands).1 hn)
    have hregistry : made.registry.remove new =
        { c.registry with issued := c.registry.issued + 1 } :=
      hw.registry.remove_add (fun x hx => hw.ne_nextHandle hx) _
    rw [forget, show new.command = c.commands.nextHandle from rfl, hcommands, hregistry,
      Registry.detach_of_dead fun link hl => ?_]
    · rfl
    · cases hl
      exact hp
  have hnone : new.parts.first? = none := rfl
  rw [Remains.catalog_eq (result_destroy_of_bound (c := made) hb),
    Remains.catalog_eq (result_destroyParts_of_none hnone), hforget]

/-- The three ways in which the making of a nested ensemble can go. Once the command of its
private name has been removed, the ensemble it was to hang in may be gone. -/
theorem createNested_cases (hw : c.Wf root) (parent : EnsembleId) (name : String) :
    let path := c.registry.privateName parent name
    let cleared := (c.delete path).catalog
    let edit := c.createNested parent name
    ((∀ p, c.registry.get? parent = some p → p.parts.find? name ≠ none) ∧
      ∃ cause, edit = c.refuse cause) ∨
    (∃ p, c.registry.get? parent = some p ∧ p.parts.find? name = none ∧
      cleared.registry.get? parent = none ∧ edit.outcome = .error (.invalidName name) ∧
      edit.catalog = cleared.skip) ∨
    ∃ p q parts, c.registry.get? parent = some p ∧ p.parts.find? name = none ∧
      cleared.registry.get? parent = some q ∧
      q.parts.insert? name none (.ensemble c.commands.nextHandle) = some parts ∧
      edit.outcome = .ok cleared.registry.nextId ∧
      edit.catalog = ⟨cleared.commands.install path .ensemble,
        (cleared.registry.add c.commands.nextHandle (some ⟨parent, name⟩)).modifyParts parent
          fun _ => parts⟩ := by
  intro path cleared edit
  have hput : (c.put path .ensemble).catalog = cleared.install path .ensemble :=
    put_catalog hw path .ensemble
  have hnext : cleared.commands.nextHandle = c.commands.nextHandle := nextHandle_delete hw path
  simp only [edit, createNested]
  cases hp : c.registry.get? parent with
  | none => exact .inl ⟨nofun, _, rfl⟩
  | some p =>
    by_cases hn : (p.parts.find? name).isSome = true
    · refine .inl ⟨fun q hq hf => ?_, _, if_pos hn⟩
      rw [← Option.some.inj hq] at hf
      rw [hf] at hn
      cases hn
    have hnone : p.parts.find? name = none := Option.not_isSome_iff_eq_none.1 hn
    refine .inr ?_
    simp only [if_neg hn]
    rw [show c.registry.privateName parent name = path from rfl, hput]
    cases hq : cleared.registry.get? parent with
    | none =>
      refine .inl ⟨p, rfl, hnone, rfl, ?_⟩
      have hmade := destroy_made (hw.delete path) hw.find?_delete hq name
      simp only [install, hq, Option.bind_none]
      rw [hnext] at hmade
      exact ⟨trivial, hmade⟩
    | some q =>
      -- The removal gave the parent no part, so there is still room for the new one.
      have hfree := hw.find?_delete_parts hp hq hnone
      cases hi : q.parts.insert? name none (.ensemble c.commands.nextHandle) with
      | none =>
        have := PartTable.insert?_eq_none_iff.1 hi
        rw [hfree] at this
        cases this
      | some parts =>
        refine .inr ⟨p, q, parts, rfl, hnone, rfl, hi, ?_⟩
        simp only [install, hq, Option.bind_some, hi]
        exact ⟨trivial, trivial⟩

theorem Wf.createNested (hw : c.Wf root) (parent : EnsembleId) (name : String) :
    (c.createNested parent name).catalog.Wf root := by
  have hd := hw.delete (c.registry.privateName parent name)
  obtain ⟨-, cause, h⟩ | ⟨p, -, -, -, -, h⟩ | ⟨p, q, parts, -, -, hq, hi, -, h⟩ :=
    createNested_cases hw parent name <;> rw [h]
  · exact hw
  · exact hd.skip
  · obtain ⟨hqm, rfl⟩ := (Registry.get?_eq_some_iff hd.registry).1 hq
    rw [← nextHandle_delete hw (c.registry.privateName q.id name)] at hi ⊢
    refine hd.found hw.find?_delete
      (hd.registry.addNested (fun x hx => hd.ne_nextHandle hx) hqm hi) rfl
      (Registry.modifyParts_add hd.registry hqm _ _ _) (fun x => ⟨?_, ?_⟩) rfl ?_
    · exact x.command_withParts q.id parts
    · exact x.parent_withParts q.id parts
    · rintro link ⟨⟩
      exact Registry.privateName_congr (hw.root.trans hd.root.symm) q.id name

theorem Wf.locateTop (hw : c.Wf root) (name : String) : (c.locateTop name).catalog.Wf root := by
  unfold Catalog.locateTop
  split
  · exact hw.createTop name
  · split <;> exact hw

theorem Wf.locateNested (hw : c.Wf root) (parent : EnsembleId) (name : String) :
    (c.locateNested parent name).catalog.Wf root := by
  unfold Catalog.locateNested
  split
  · exact hw.createNested parent name
  · split <;> exact hw
  · exact hw

/-! ## Adding parts -/

theorem addPart_eq_ok {id : EnsembleId} {usage : Option String} {handler : Handler} {c' : Catalog}
    (h : c.addPart id name usage handler = .ok c') :
    ∃ e parts, c.registry.get? id = some e ∧ e.parts.insert? name usage handler = some parts ∧
      c' = { c with registry := c.registry.modifyParts id fun _ => parts } := by
  unfold addPart at h
  split at h
  · cases h
  · rename_i e he
    split at h
    · cases h
    · rename_i parts hi
      cases h
      exact ⟨e, parts, he, hi, rfl⟩

theorem Wf.addPart (hw : c.Wf root) {id : EnsembleId} {usage : Option String} {handler : Handler}
    {c' : Catalog} (h : c.addPart id name usage handler = .ok c')
    (hf : ∀ e, c.registry.get? id = some e → Registry.Fits e name usage handler) : c'.Wf root := by
  obtain ⟨e, parts, he, hi, rfl⟩ := addPart_eq_ok h
  obtain ⟨hem, rfl⟩ := (Registry.get?_eq_some_iff hw.registry).1 he
  exact {
    root := hw.root
    commands := hw.commands
    registry := hw.registry.insert hem hi (hf e he)
    bound := fun a ha ht => by
      obtain ⟨x, hx, hc⟩ := hw.bound a ha ht
      exact ⟨x.withParts e.id parts, List.mem_map_of_mem hx, (x.command_withParts _ _).trans hc⟩
    owned := List.forall_mem_map.2 fun x hx => by
      obtain ⟨a, ha, hh, hr⟩ := hw.owned x hx
      refine ⟨a, ha, hh.trans (x.command_withParts e.id parts).symm, ?_⟩
      show _ ∧ ∀ link, (x.withParts e.id parts).parent = some link → _
      rw [Ensemble.parent_withParts]
      exact hr }

/-- A native becomes a part of an ensemble, or nothing is changed. -/
theorem addNative_cases (c : Catalog) (path name : String) (usage : Option String) (h : Hosted) :
    (c.addNative path name usage h).catalog = c ∨
      ∃ id, c.addPart id name usage (.native h) = .ok (c.addNative path name usage h).catalog := by
  unfold addNative
  cases hr : c.resolveText path with
  | error cause => exact .inl rfl
  | ok id =>
    simp only [Except.bind]
    cases ha : c.addPart id name usage (.native h) with
    | error cause => exact .inl rfl
    | ok c' => exact .inr ⟨id, ha⟩

theorem Wf.addNative (hw : c.Wf root) (path name : String) (usage : Option String) (h : Hosted) :
    (c.addNative path name usage h).catalog.Wf root := by
  obtain hc | ⟨id, hc⟩ := addNative_cases c path name usage h
  · rwa [hc]
  · exact hw.addPart hc fun _ _ => trivial

theorem addProcedure_eq_ok {id : EnsembleId} {signature : Signature} {body : String} {c' : Catalog}
    (h : c.addProcedure id name signature body = .ok c') :
    ∃ e, c.registry.get? id = some e ∧ c.addPart id name (some signature.usage)
      (.procedure ⟨name, signature, body, e.home⟩) = .ok c' := by
  unfold addProcedure at h
  split at h
  · cases h
  · rename_i e he
    refine ⟨e, he, ?_⟩
    cases ha : c.addPart id name (some signature.usage)
        (.procedure ⟨name, signature, body, e.home⟩) with
    | error cause =>
      rw [ha] at h
      cases h
    | ok c'' =>
      rw [ha] at h
      cases h
      rfl

theorem Wf.addProcedure (hw : c.Wf root) {id : EnsembleId} {signature : Signature} {body : String}
    {c' : Catalog} (h : c.addProcedure id name signature body = .ok c') : c'.Wf root := by
  obtain ⟨e, he, ha⟩ := addProcedure_eq_ok h
  refine hw.addPart ha fun e' he' => ?_
  rw [he] at he'
  cases he'
  exact ⟨rfl, rfl, rfl⟩

end Catalog

end Ensembles
