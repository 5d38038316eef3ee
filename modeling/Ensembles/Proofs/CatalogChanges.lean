import Ensembles.Proofs.Cascade

/-!
# Changes of the catalogue

`Catalog.Wf` says that commands and ensembles go together: each command that is bound to an
ensemble finds it, and each ensemble has its command, a nested one under its private name.
A command that takes the place of another one is the removal of that one and the arrival of
the new one (`Catalog.put_catalog`); so what keeps a catalogue well formed is shown once for
removals, and for arrivals only where there is nothing to replace.
-/

namespace Ensembles

/-! ## Well-formed catalogues -/

namespace Catalog

/-- Commands and ensembles go together; private names lie under `root`. -/
structure Wf (root : String) (c : Catalog) : Prop where
  root : c.registry.root = root
  commands : c.commands.Wf
  registry : c.registry.Wf
  bound : ∀ a ∈ c.commands.entries, a.target = .ensemble →
    ∃ e ∈ c.registry.ensembles, e.command = a.handle
  owned : ∀ e ∈ c.registry.ensembles, ∃ a ∈ c.commands.entries,
    a.handle = e.command ∧ a.target = .ensemble ∧
      ∀ link, e.parent = some link → a.name = c.registry.privateName link.ensemble link.part

variable {root : String} {c : Catalog} {a : CommandEntry} {e x : Ensemble} {name : String}
  {target : Target} {h : Handle}

theorem Wf.ne_nextHandle (hw : c.Wf root) (he : e ∈ c.registry.ensembles) :
    e.command ≠ c.commands.nextHandle := by
  obtain ⟨a, ha, hh, -⟩ := hw.owned e he
  exact hh ▸ hw.commands.ne_nextHandle ha

/-- The command that has the handle of an ensemble belongs to it. -/
theorem Wf.owner (hw : c.Wf root) (he : e ∈ c.registry.ensembles) (ha : a ∈ c.commands.entries)
    (hc : e.command = a.handle) : a.target = .ensemble ∧
      ∀ link, e.parent = some link → a.name = c.registry.privateName link.ensemble link.part := by
  obtain ⟨b, hb, hh, howned⟩ := hw.owned e he
  rwa [← eq_of_key_eq hw.commands.handles hb ha (hh.trans hc)]

theorem wf_initial (root : String) : (initial root).Wf root where
  root := rfl
  commands := CommandTable.wf_initial
  registry := Registry.wf_empty root
  bound a ha ht := by
    obtain ⟨b, hb⟩ := CommandTable.target_initial a ha
    rw [hb] at ht
    cases ht
  owned := nofun

/-! ## Removals -/

theorem mem_commands_subtree_iff (hw : c.registry.Wf) {h' : Handle} :
    h' ∈ (c.registry.subtree h).map (·.command) ↔
      ∃ x, Under c.registry.ensembles h x ∧ x.command = h' := by
  simp only [List.mem_map, Registry.mem_subtree_iff hw]

theorem Wf.mem_prune (hw : c.Wf root) : a ∈ (c.prune e).commands.entries ↔
    a ∈ c.commands.entries ∧
      ∀ x, Under c.registry.ensembles e.command x → x.command ≠ a.handle := by
  rw [prune, CommandTable.mem_erase, mem_commands_subtree_iff hw.registry]
  simp

theorem Wf.prune (hw : c.Wf root) (he : e ∈ c.registry.ensembles) : (c.prune e).Wf root where
  root := by
    show (c.registry.prune e).root = root
    rw [Registry.prune_eq]
    exact hw.root
  commands := hw.commands.erase _
  registry := hw.registry.prune he
  bound a ha ht := by
    obtain ⟨ha, hu⟩ := hw.mem_prune.1 ha
    obtain ⟨x, hx, hc⟩ := hw.bound a ha ht
    refine ⟨x.without e, ?_, (x.command_without e).trans hc⟩
    exact (Registry.mem_prune_iff hw.registry).2 ⟨x, hx, fun hux => hu x hux hc, rfl⟩
  owned x hx := by
    obtain ⟨y, hy, hu, rfl⟩ := (Registry.mem_prune_iff hw.registry).1 hx
    obtain ⟨a, ha, hh, ht, hl⟩ := hw.owned y hy
    rw [Ensemble.command_without, Ensemble.parent_without]
    refine ⟨a, hw.mem_prune.2 ⟨ha, fun z hz hc => hu ?_⟩, hh, ht, fun link hp => ?_⟩
    · rwa [← hw.registry.eq_of_command hz.mem hy (hc.trans hh)]
    · show a.name = (c.registry.prune e).privateName _ _
      rw [Registry.prune_eq]
      exact hl link hp

/-- The command of an ensemble owns no native, also after other commands have come or gone. -/
theorem Wf.nativesOf_eq_nil (hw : c.Wf root) {t : CommandTable} (ht : t.Wf)
    (hsub : ∀ a ∈ t.entries, a ∈ c.commands.entries ∨ a.handle = c.commands.nextHandle)
    (he : e ∈ c.registry.ensembles) : t.nativesOf e.command = [] := by
  unfold CommandTable.nativesOf
  cases hg : t.get? e.command with
  | none => rfl
  | some a =>
    obtain ⟨ha, hh⟩ := (CommandTable.get?_eq_some_iff ht).1 hg
    rcases hsub a ha with ha | hnew
    · show a.target.natives = []
      rw [(hw.owner he ha hh.symm).1]
      rfl
    · exact absurd (hh.symm.trans hnew) (hw.ne_nextHandle he)

/-- The destruction of an ensemble cuts it off, also after other commands have come or gone. -/
theorem Wf.result_destroy (hw : c.Wf root) {t : CommandTable} (ht : t.Wf)
    (hsub : ∀ a ∈ t.entries, a ∈ c.commands.entries ∨ a.handle = c.commands.nextHandle)
    (hb : c.registry.bound? h = some e) :
    (destroy { c with commands := t } h).result =
      (Catalog.prune { c with commands := t } e, c.registry.subtreeNatives e.command) := by
  have hc : e.command = h := ((Registry.bound?_eq_some_iff hw.registry).1 hb).2
  rw [hc]
  exact Catalog.result_destroy (c := { c with commands := t }) hw.registry ht
    (fun x hx => hw.nativesOf_eq_nil ht hsub hx.mem) hb

/-- A command without an ensemble goes alone. -/
theorem Wf.erase (hw : c.Wf root) (hb : c.registry.bound? h = none) :
    Wf root { c with commands := c.commands.erase [h] } where
  root := hw.root
  commands := hw.commands.erase _
  registry := hw.registry
  bound a ha ht := hw.bound a (CommandTable.mem_erase.1 ha).1 ht
  owned e he := by
    obtain ⟨a, ha, hh, hr⟩ := hw.owned e he
    refine ⟨a, CommandTable.mem_erase.2 ⟨ha, fun hm => ?_⟩, hh, hr⟩
    have hah : a.handle = h := List.mem_singleton.1 hm
    have hc := (Registry.bound?_eq_some_iff hw.registry).2 ⟨he, hh.symm.trans hah⟩
    rw [hb] at hc
    cases hc

theorem mem_subtree_of_bound (hw : c.Wf root) (hb : c.registry.bound? h = some e) :
    h ∈ (c.registry.subtree e.command).map (·.command) := by
  obtain ⟨he, hc⟩ := (Registry.bound?_eq_some_iff hw.registry).1 hb
  exact (mem_commands_subtree_iff hw.registry).2 ⟨e, .self he rfl, hc⟩

theorem Wf.delete_of_absent (hw : c.Wf root) (hf : c.commands.find? name = none) :
    c.delete name = c.keep false := by
  rw [Catalog.delete, hw.commands.handleOf?_of_absent hf]

theorem Wf.delete_of_unbound (hw : c.Wf root) (hf : c.commands.find? name = some a)
    (hb : c.registry.bound? a.handle = none) :
    c.delete name =
      ⟨.ok true, { c with commands := c.commands.erase [a.handle] }, a.target.natives⟩ := by
  have hd := result_destroy_of_unbound (c := { c with commands := c.commands.remove a.handle }) hb
  rw [Catalog.delete, CommandTable.handleOf?_of_find? hf]
  simp only [Remains.catalog_eq hd, Remains.freed_eq hd, hw.commands.remove_eq,
    CommandTable.nativesOf_of_find? hw.commands hf, List.append_nil]

/-- With its command an ensemble goes, and all below it; what that frees are the natives of all that
goes. -/
theorem Wf.delete_eq (hw : c.Wf root) (hf : c.commands.find? name = some a)
    (hb : c.registry.bound? a.handle = some e) :
    c.delete name = ⟨.ok true, c.prune e, c.registry.subtreeNatives e.command⟩ := by
  obtain ⟨he, hc⟩ := (Registry.bound?_eq_some_iff hw.registry).1 hb
  have hd := hw.result_destroy (hw.commands.remove a.handle)
    (fun b hb => .inl (CommandTable.mem_of_mem_remove hb)) hb
  have hbare := hw.nativesOf_eq_nil hw.commands (fun b => .inl) he
  rw [hc] at hbare
  have hprune : Catalog.prune { c with commands := c.commands.remove a.handle } e = c.prune e := by
    show Catalog.mk ((c.commands.remove a.handle).erase _) _ = Catalog.mk _ _
    rw [hw.commands.remove_eq, CommandTable.erase_erase_of_mem (mem_subtree_of_bound hw hb)]
  rw [Catalog.delete, CommandTable.handleOf?_of_find? hf]
  simp only [Remains.catalog_eq hd, Remains.freed_eq hd, hbare,
    List.nil_append, hprune]

/-- The three ways in which a removal can go. -/
theorem delete_cases (hw : c.Wf root) (name : String) :
    c.commands.find? name = none ∧ (c.delete name).catalog = c ∨
    (∃ a, c.commands.find? name = some a ∧ c.registry.bound? a.handle = none ∧
      (c.delete name).catalog = { c with commands := c.commands.erase [a.handle] }) ∨
    ∃ a e, c.commands.find? name = some a ∧ c.registry.bound? a.handle = some e ∧
      (c.delete name).catalog = c.prune e := by
  cases hf : c.commands.find? name with
  | none => exact .inl ⟨rfl, by rw [hw.delete_of_absent hf]; rfl⟩
  | some a =>
    cases hb : c.registry.bound? a.handle with
    | none => exact .inr (.inl ⟨a, rfl, hb, by rw [hw.delete_of_unbound hf hb]⟩)
    | some e => exact .inr (.inr ⟨a, e, rfl, hb, by rw [hw.delete_eq hf hb]⟩)

theorem Wf.delete (hw : c.Wf root) (name : String) : (c.delete name).catalog.Wf root := by
  obtain ⟨-, hd⟩ | ⟨a, -, hb, hd⟩ | ⟨a, e, -, hb, hd⟩ := delete_cases hw name <;> rw [hd]
  · exact hw
  · exact hw.erase hb
  · exact hw.prune ((Registry.bound?_eq_some_iff hw.registry).1 hb).1

theorem issued_delete (hw : c.Wf root) (name : String) :
    (c.delete name).catalog.commands.issued = c.commands.issued := by
  obtain ⟨-, hd⟩ | ⟨a, -, -, hd⟩ | ⟨a, e, -, -, hd⟩ := delete_cases hw name <;> rw [hd] <;> rfl

theorem Wf.eq_of_name (hw : c.Wf root) {b : CommandEntry} (ha : a ∈ c.commands.entries)
    (hf : c.commands.find? name = some b) (hn : a.name = name) : a = b := by
  obtain ⟨hb, hbn⟩ := (CommandTable.find?_eq_some_iff hw.commands).1 hf
  exact hw.commands.eq_of_name_eq ha hb (hn.trans hbn.symm)

theorem Wf.mem_delete (hw : c.Wf root) (ha : a ∈ (c.delete name).catalog.commands.entries) :
    a ∈ c.commands.entries ∧ a.name ≠ name := by
  obtain ⟨hf, hd⟩ | ⟨b, hf, -, hd⟩ | ⟨b, e, hf, hb, hd⟩ := delete_cases hw name <;> rw [hd] at ha
  · exact ⟨ha, (CommandTable.find?_eq_none_iff hw.commands).1 hf a ha⟩
  · obtain ⟨ha, hh⟩ := CommandTable.mem_erase.1 ha
    refine ⟨ha, fun hn => hh ?_⟩
    rw [hw.eq_of_name ha hf hn]
    exact List.mem_singleton_self _
  · obtain ⟨ha, hu⟩ := hw.mem_prune.1 ha
    obtain ⟨he, hc⟩ := (Registry.bound?_eq_some_iff hw.registry).1 hb
    refine ⟨ha, fun hn => hu e (.self he rfl) ?_⟩
    rw [hw.eq_of_name ha hf hn, hc]

theorem Wf.find?_delete (hw : c.Wf root) : (c.delete name).catalog.commands.find? name = none :=
  (CommandTable.find?_eq_none_iff (hw.delete name).commands).2 fun _ ha => (hw.mem_delete ha).2

/-! ## Arrivals -/

/-- The catalogue with a new command, which replaces none. -/
def install (c : Catalog) (name : String) (target : Target) : Catalog :=
  { c with commands := c.commands.install name target }

/-- A new command takes nothing away where there is none of its name. -/
theorem Wf.put_of_absent (hw : c.Wf root) (hf : c.commands.find? name = none) (target : Target) :
    c.put name target = ⟨.ok c.commands.nextHandle, c.install name target, []⟩ := by
  rw [Catalog.put, hw.commands.handleOf?_of_absent hf]
  simp only [hw.commands.put_of_absent hf]
  rfl

theorem Wf.put_of_unbound (hw : c.Wf root) (hf : c.commands.find? name = some a)
    (hb : c.registry.bound? a.handle = none) (target : Target) :
    c.put name target = ⟨.ok c.commands.nextHandle,
      install { c with commands := c.commands.erase [a.handle] } name target,
      a.target.natives⟩ := by
  have hd := result_destroy_of_unbound (c := { c with commands := c.commands.put name target }) hb
  rw [Catalog.put, CommandTable.handleOf?_of_find? hf]
  simp only [Remains.catalog_eq hd, Remains.freed_eq hd, hw.commands.put_of_found hf,
    CommandTable.nativesOf_of_find? hw.commands hf, List.nil_append]
  rfl

/-- To replace the command of an ensemble frees what its removal does, in the same order. -/
theorem Wf.put_of_bound (hw : c.Wf root) (hf : c.commands.find? name = some a)
    (hb : c.registry.bound? a.handle = some e) (target : Target) :
    c.put name target = ⟨.ok c.commands.nextHandle, (c.prune e).install name target,
      c.registry.subtreeNatives e.command⟩ := by
  obtain ⟨he, hc⟩ := (Registry.bound?_eq_some_iff hw.registry).1 hb
  have hd := hw.result_destroy (hw.commands.put name target)
    (fun b hb => (CommandTable.mem_put hb).symm.imp_right fun h => congrArg _ h) hb
  have hbare := hw.nativesOf_eq_nil hw.commands (fun b => .inl) he
  rw [hc] at hbare
  have hprune : Catalog.prune { c with commands := c.commands.put name target } e =
      (c.prune e).install name target := by
    show Catalog.mk ((c.commands.put name target).erase _) _ = Catalog.mk _ _
    rw [hw.commands.erase_put hf (mem_subtree_of_bound hw hb)]
    · rfl
    · -- The new command is not among those that go: its handle is new.
      show c.commands.nextHandle ∉ (c.registry.subtree e.command).map (·.command)
      rw [mem_commands_subtree_iff hw.registry]
      exact fun ⟨x, hx, hc⟩ => hw.ne_nextHandle hx.mem hc
  rw [Catalog.put, CommandTable.handleOf?_of_find? hf]
  simp only [Remains.catalog_eq hd, Remains.freed_eq hd, hbare, List.append_nil, hprune]

/-- A new command comes where the one of its name has been removed, and frees what that frees. -/
theorem Wf.put_eq (hw : c.Wf root) (name : String) (target : Target) :
    c.put name target = ⟨.ok c.commands.nextHandle, (c.delete name).catalog.install name target,
      (c.delete name).freed⟩ := by
  cases hf : c.commands.find? name with
  | none => rw [hw.put_of_absent hf, hw.delete_of_absent hf, keep]
  | some a =>
    cases hb : c.registry.bound? a.handle with
    | none => rw [hw.put_of_unbound hf hb, hw.delete_of_unbound hf hb]
    | some e => rw [hw.put_of_bound hf hb, hw.delete_eq hf hb]

theorem put_catalog (hw : c.Wf root) (name : String) (target : Target) :
    (c.put name target).catalog = (c.delete name).catalog.install name target := by
  rw [hw.put_eq]

theorem Wf.install (hw : c.Wf root) (hn : c.commands.find? name = none) (ht : target ≠ .ensemble) :
    (c.install name target).Wf root where
  root := hw.root
  commands := hw.commands.install ((CommandTable.find?_eq_none_iff hw.commands).1 hn)
  registry := hw.registry
  bound := List.forall_mem_cons.2 ⟨fun he => absurd he ht, hw.bound⟩
  owned e he := by
    obtain ⟨a, ha, hr⟩ := hw.owned e he
    exact ⟨a, List.mem_cons_of_mem _ ha, hr⟩

theorem Wf.put (hw : c.Wf root) (name : String) (ht : target ≠ .ensemble) :
    (c.put name target).catalog.Wf root := by
  rw [put_catalog hw name target]
  exact (hw.delete name).install hw.find?_delete ht

/-- A new ensemble comes with its command, and leaves the links of the others alone. -/
theorem Wf.found (hw : c.Wf root) (hn : c.commands.find? name = none) {r : Registry} (hr : r.Wf)
    (hroot : r.root = c.registry.root) {e : Ensemble} {f : Ensemble → Ensemble}
    (he : r.ensembles = e :: c.registry.ensembles.map f)
    (hf : ∀ x, (f x).command = x.command ∧ (f x).parent = x.parent)
    (hc : e.command = c.commands.nextHandle)
    (hp : ∀ link, e.parent = some link →
      name = c.registry.privateName link.ensemble link.part) :
    Wf root ⟨c.commands.install name .ensemble, r⟩ where
  root := hroot.trans hw.root
  commands := hw.commands.install ((CommandTable.find?_eq_none_iff hw.commands).1 hn)
  registry := hr
  bound := by
    show ∀ a ∈ _ :: c.commands.entries, a.target = .ensemble →
      ∃ e ∈ r.ensembles, e.command = a.handle
    rw [he, List.forall_mem_cons]
    refine ⟨fun _ => ⟨e, List.mem_cons_self .., hc⟩, fun a ha ht => ?_⟩
    obtain ⟨x, hx, hh⟩ := hw.bound a ha ht
    exact ⟨f x, List.mem_cons_of_mem _ (List.mem_map_of_mem hx), (hf x).1.trans hh⟩
  owned := by
    simp only [Registry.privateName_congr hroot, he, List.forall_mem_cons, List.forall_mem_map]
    refine ⟨⟨_, List.mem_cons_self .., hc.symm, rfl, hp⟩, fun x hx => ?_⟩
    obtain ⟨a, ha, hr⟩ := hw.owned x hx
    rw [(hf x).1, (hf x).2]
    exact ⟨a, List.mem_cons_of_mem _ ha, hr⟩

/-- The catalogue with one more handle and id counted as issued. -/
def skip (c : Catalog) : Catalog :=
  ⟨{ c.commands with issued := c.commands.issued + 1 },
    { c.registry with issued := c.registry.issued + 1 }⟩

theorem Wf.skip (hw : c.Wf root) : c.skip.Wf root :=
  ⟨hw.root, { hw.commands with issued := fun a ha => Nat.le_succ_of_le (hw.commands.issued a ha) },
    { hw.registry with issued := fun e he => Nat.le_succ_of_le (hw.registry.issued e he) },
    hw.bound, hw.owned⟩

end Catalog

end Ensembles
