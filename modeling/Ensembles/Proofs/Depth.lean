import Ensembles.Proofs.Reachable

/-!
# How deep ensembles lie

`Registry.Lies` counts the part names from a top-level ensemble down to another one. An
ensemble never moves: a change of the catalogue removes ensembles and adds new ones, which it
hangs in none or in one that is there (`Registry.GrowsBy`). So the depth of an ensemble is
fixed when it is made (`Registry.GrowsBy.lies_of_le`), and `State.Reaches.grows` says so of all
that runs do.
-/

namespace Ensembles

/-- The same ensemble, with the same command and in the same place; its parts may differ. -/
structure Ensemble.Stays (e x : Ensemble) : Prop where
  id : e.id = x.id
  command : e.command = x.command
  parent : e.parent = x.parent

theorem Ensemble.Stays.trans {e x y : Ensemble} (h : e.Stays x) (h' : x.Stays y) : e.Stays y :=
  ⟨h.id.trans h'.id, h.command.trans h'.command, h.parent.trans h'.parent⟩

theorem Ensemble.stays_without (x e : Ensemble) : x.Stays (x.without e) :=
  ⟨(x.id_without e).symm, (x.command_without e).symm, (x.parent_without e).symm⟩

theorem Ensemble.stays_withParts (x : Ensemble) (id : EnsembleId) (parts : PartTable Handler) :
    x.Stays (x.withParts id parts) :=
  ⟨(x.id_withParts id parts).symm, (x.command_withParts id parts).symm,
    (x.parent_withParts id parts).symm⟩

namespace Registry

variable {r r' r'' : Registry} {links links' : Option ParentLink → Prop} {id : EnsembleId}
  {d d' : Nat} {e : Ensemble}

/-- The ensemble `id` lies `d` part names below its top-level ensemble. -/
inductive Lies (r : Registry) : EnsembleId → Nat → Prop where
  | top {e : Ensemble} : e ∈ r.ensembles → e.parent = none → Lies r e.id 0
  | part {e : Ensemble} {link : ParentLink} {d : Nat} :
    e ∈ r.ensembles → e.parent = some link → Lies r link.ensemble d → Lies r e.id (d + 1)

theorem Lies.exists_mem (h : r.Lies id d) : ∃ e ∈ r.ensembles, e.id = id := by
  cases h with
  | top he _ => exact ⟨_, he, rfl⟩
  | part he _ _ => exact ⟨_, he, rfl⟩

/-- The number of part names is that of the ensemble it hangs in and one more, if it hangs in
one. -/
theorem Wf.lies_iff (hw : r.Wf) (he : e ∈ r.ensembles) :
    r.Lies e.id d ↔ match e.parent with
      | none => d = 0
      | some link => ∃ n, r.Lies link.ensemble n ∧ d = n + 1 := by
  constructor
  · intro h
    generalize hid : e.id = id at h
    cases h with
    | @top x hx hp =>
      rw [← hw.eq_of_id he hx hid] at hp
      rw [hp]
    | @part x link n hx hp hn =>
      rw [← hw.eq_of_id he hx hid] at hp
      rw [hp]
      exact ⟨n, hn, rfl⟩
  · intro h
    cases hp : e.parent with
    | none =>
      rw [hp] at h
      subst h
      exact .top he hp
    | some link =>
      rw [hp] at h
      obtain ⟨n, hn, rfl⟩ := h
      exact .part he hp hn

theorem Wf.lies_unique (hw : r.Wf) (h : r.Lies id d) (h' : r.Lies id d') : d = d' := by
  induction h generalizing d' with
  | @top e he hp =>
    have hd := (hw.lies_iff he).1 h'
    rw [hp] at hd
    exact hd.symm
  | @part e link d he hp _ ih =>
    have hd := (hw.lies_iff he).1 h'
    rw [hp] at hd
    obtain ⟨n, hn, rfl⟩ := hd
    rw [ih hn]

theorem lies_of_path (hw : r.Wf) {top : Ensemble} {names : List String}
    (hp : Path r.ensembles top names e) (ht : top.parent = none) : r.Lies e.id names.length := by
  induction hp with
  | self hm => exact .top hm ht
  | @part names p e name hp hh hm ih =>
    rw [List.length_append]
    exact .part hm (hw.parent_of_holds hp.under.mem hm hh) ih

theorem mem_of_climb {below names : List String} {l : List Ensemble} {top : Ensemble}
    (h : climb below l id = some (top, names)) : ∃ e ∈ l, e.id = id := by
  induction l generalizing below id with
  | nil => cases h
  | cons x l ih =>
    rw [climb] at h
    split at h
    · rename_i hx
      exact ⟨x, List.mem_cons_self .., hx⟩
    · obtain ⟨e, he, hid⟩ := ih h
      exact ⟨e, List.mem_cons_of_mem _ he, hid⟩

/-- The way up from an ensemble is as long as it lies deep. -/
theorem Wf.lies_of_trail (hw : r.Wf) {top : Ensemble} {names : List String}
    (h : r.trail id = some (top, names)) : r.Lies id names.length := by
  obtain ⟨e, he, rfl⟩ := mem_of_climb h
  obtain ⟨top', names', ht, htop, hp⟩ := trail_spec hw he
  rw [h] at ht
  cases ht
  exact lies_of_path hw hp htop

/-! ## Growth -/

/-- The ensembles of `r'` are some of those of `r`, where they were, and new ones with later
ids, which hang as `links` says. -/
structure GrowsBy (links : Option ParentLink → Prop) (r r' : Registry) : Prop where
  issued : r.issued ≤ r'.issued
  ensembles : ∀ x ∈ r'.ensembles, (∃ e ∈ r.ensembles, e.Stays x) ∨
    r.issued < x.id.number ∧ links x.parent

theorem GrowsBy.of_ensembles (hi : r.issued ≤ r'.issued)
    (he : ∀ x ∈ r'.ensembles, ∃ e ∈ r.ensembles, e.Stays x) : r.GrowsBy links r' :=
  ⟨hi, fun x hx => .inl (he x hx)⟩

theorem GrowsBy.refl (r : Registry) : r.GrowsBy links r :=
  .of_ensembles (Nat.le_refl _) fun x hx => ⟨x, hx, rfl, rfl, rfl⟩

theorem GrowsBy.mono (h : r.GrowsBy links r') (hl : ∀ link, links link → links' link) :
    r.GrowsBy links' r' :=
  ⟨h.issued, fun x hx => (h.ensembles x hx).imp_right fun hx => ⟨hx.1, hl _ hx.2⟩⟩

theorem GrowsBy.trans (h : r.GrowsBy links r') (h' : r'.GrowsBy links r'') :
    r.GrowsBy links r'' := by
  refine ⟨Nat.le_trans h.issued h'.issued, fun x hx => ?_⟩
  obtain ⟨y, hy, hyx⟩ | ⟨hlt, hl⟩ := h'.ensembles x hx
  · obtain ⟨z, hz, hzy⟩ | ⟨hlt, hl⟩ := h.ensembles y hy
    · exact .inl ⟨z, hz, hzy.trans hyx⟩
    · exact .inr ⟨hyx.id ▸ hlt, hyx.parent ▸ hl⟩
  · exact .inr ⟨Nat.lt_of_le_of_lt h.issued hlt, hl⟩

/-- An ensemble that was there lies as deep as it did. -/
theorem GrowsBy.lies_of_le (hg : r.GrowsBy links r') (hw : r'.Wf) (h : r'.Lies id d)
    (hid : id.number ≤ r.issued) : r.Lies id d := by
  induction h with
  | @top x hx hp =>
    obtain ⟨e, he, hxid, -, hxp⟩ | ⟨hlt, -⟩ := hg.ensembles x hx
    · exact hxid ▸ .top he (hxp.trans hp)
    · omega
  | @part x link d hx hp _ ih =>
    obtain ⟨e, he, hxid, -, hxp⟩ | ⟨hlt, -⟩ := hg.ensembles x hx
    · obtain ⟨p, -, hpid, hplt, -⟩ := hw.hangs x hx link hp
      rw [hpid] at hplt
      exact hxid ▸ .part he (hxp.trans hp) (ih (by omega))
    · omega

/-- What lies anywhere was there, or is new and hangs as it may. -/
theorem GrowsBy.lies_cases (hg : r.GrowsBy links r') (hw : r.Wf) (hw' : r'.Wf)
    (h : r'.Lies id d) :
    r.Lies id d ∨ links none ∧ d = 0 ∨
      ∃ link n, links (some link) ∧ r'.Lies link.ensemble n ∧ d = n + 1 := by
  obtain ⟨x, hx, rfl⟩ := h.exists_mem
  obtain ⟨e, he, hid, -⟩ | ⟨-, hl⟩ := hg.ensembles x hx
  · exact .inl (hg.lies_of_le hw' h (hid ▸ hw.issued e he))
  · have hd := (hw'.lies_iff hx).1 h
    cases hp : x.parent with
    | none =>
      rw [hp] at hd hl
      exact .inr (.inl ⟨hl, hd⟩)
    | some link =>
      rw [hp] at hd hl
      obtain ⟨n, hn, hd⟩ := hd
      exact .inr (.inr ⟨link, n, hl, hn, hd⟩)

end Registry

/-! ## Changes of the catalogue -/

namespace Catalog

variable {root : String} {c : Catalog} {links : Option ParentLink → Prop} {p : Ensemble}
  {name : String}

theorem Wf.grows_prune (hw : c.Wf root) (e : Ensemble) :
    c.registry.GrowsBy links (c.prune e).registry := by
  refine .of_ensembles (Nat.le_of_eq ?_) fun x hx => ?_
  · rw [Catalog.prune, Registry.prune_eq]
    rfl
  · obtain ⟨y, hy, -, rfl⟩ := (Registry.mem_prune_iff hw.registry).1 hx
    exact ⟨y, hy, y.stays_without e⟩

theorem Wf.grows_delete (hw : c.Wf root) (name : String) :
    c.registry.GrowsBy links (c.delete name).catalog.registry := by
  obtain ⟨-, hd⟩ | ⟨a, -, -, hd⟩ | ⟨a, e, -, -, hd⟩ := delete_cases hw name <;> rw [hd]
  · exact .refl _
  · exact .refl _
  · exact hw.grows_prune e

theorem Wf.grows_put (hw : c.Wf root) (name : String) (target : Target) :
    c.registry.GrowsBy links (c.put name target).catalog.registry := by
  rw [put_catalog hw]
  exact hw.grows_delete name

theorem grows_add (r : Registry) (h : Handle) (link : Option ParentLink) (hl : links link) :
    r.GrowsBy links (r.add h link) := by
  refine ⟨Nat.le_succ _, List.forall_mem_cons.2 ⟨.inr ⟨Nat.lt_succ_self _, hl⟩, fun x hx => ?_⟩⟩
  exact .inl ⟨x, hx, rfl, rfl, rfl⟩

theorem grows_modifyParts (r : Registry) (id : EnsembleId) (parts : PartTable Handler) :
    r.GrowsBy links (r.modifyParts id fun _ => parts) := by
  refine .of_ensembles (Nat.le_refl _) fun x hx => ?_
  rw [Registry.ensembles_modifyParts] at hx
  obtain ⟨y, hy, rfl⟩ := List.mem_map.1 hx
  exact ⟨y, hy, y.stays_withParts id parts⟩

theorem Wf.grows_locateTop (hw : c.Wf root) (name : String) :
    c.registry.GrowsBy (· = none) (c.locateTop name).catalog.registry := by
  unfold Catalog.locateTop
  split
  · unfold Catalog.createTop
    split
    · exact .refl _
    · exact (hw.grows_put name .ensemble).trans (grows_add _ _ _ rfl)
  · split <;> exact .refl _

theorem Wf.grows_locateNested (hw : c.Wf root) (parent : EnsembleId) (name : String) :
    c.registry.GrowsBy (· = some ⟨parent, name⟩) (c.locateNested parent name).catalog.registry := by
  unfold Catalog.locateNested
  split
  · have hd : c.registry.GrowsBy (· = some ⟨parent, name⟩)
        (c.delete (c.registry.privateName parent name)).catalog.registry := hw.grows_delete _
    obtain ⟨-, cause, h⟩ | ⟨p, -, -, -, -, h⟩ | ⟨p, q, parts, -, -, -, -, -, h⟩ :=
      createNested_cases hw parent name <;> rw [h]
    · exact .refl _
    · exact hd.trans (.of_ensembles (Nat.le_succ _) fun x hx => ⟨x, hx, rfl, rfl, rfl⟩)
    · exact (hd.trans (grows_add _ _ _ rfl)).trans (grows_modifyParts ..)
  · split <;> exact .refl _
  · exact .refl _

theorem grows_addPart {id : EnsembleId} {usage : Option String} {handler : Handler} {c' : Catalog}
    (h : c.addPart id name usage handler = .ok c') : c.registry.GrowsBy links c'.registry := by
  obtain ⟨e, parts, -, -, rfl⟩ := addPart_eq_ok h
  exact grows_modifyParts ..

theorem grows_addNative (c : Catalog) (path name : String) (usage : Option String) (h : Hosted) :
    c.registry.GrowsBy links (c.addNative path name usage h).catalog.registry := by
  obtain hc | ⟨id, hc⟩ := addNative_cases c path name usage h
  · rw [hc]
    exact .refl _
  · exact grows_addPart hc

theorem grows_addProcedure {id : EnsembleId} {signature : Signature} {body : String}
    {c' : Catalog} (h : c.addProcedure id name signature body = .ok c') :
    c.registry.GrowsBy links c'.registry := by
  obtain ⟨e, -, ha⟩ := addProcedure_eq_ok h
  exact grows_addPart ha

/-- All that grows from a registry keeps growing from it. -/
theorem preserved_grows (root : String) (r : Registry) :
    Preserved fun c => c.Wf root ∧ r.GrowsBy (fun _ => True) c.registry where
  put name _ hc := ⟨hc.1.put name nofun, hc.2.trans (hc.1.grows_put name _)⟩
  delete name hc := ⟨hc.1.delete name, hc.2.trans (hc.1.grows_delete name)⟩
  locateTop name hc :=
    ⟨hc.1.locateTop name, hc.2.trans ((hc.1.grows_locateTop name).mono fun _ _ => trivial)⟩
  locateNested parent name hc :=
    ⟨hc.1.locateNested parent name,
      hc.2.trans ((hc.1.grows_locateNested parent name).mono fun _ _ => trivial)⟩
  addNative path name usage h hc :=
    ⟨hc.1.addNative path name usage h, hc.2.trans (grows_addNative ..)⟩
  addProcedure h hc := ⟨hc.1.addProcedure h, hc.2.trans (grows_addProcedure h)⟩

end Catalog

/-- No run moves an ensemble. -/
theorem State.Reaches.grows {root : String} {s t : State} (h : s.Reaches t)
    (hw : s.catalog.Wf root) :
    s.catalog.registry.GrowsBy (fun _ => True) t.catalog.registry :=
  (h.catalog (Catalog.preserved_grows root s.catalog.registry) ⟨hw, .refl _⟩).2

end Ensembles
