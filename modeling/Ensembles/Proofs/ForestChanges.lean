import Ensembles.Proofs.Forest

/-!
# Changes of the forest

What a change does to the ensembles and their parts, and that it leaves the registry well
formed:

* `mem_prune_iff`, `Registry.Wf.prune`: cutting off an ensemble with all below it leaves the
  others hanging as they did;
* `Registry.Wf.addTop`, `Registry.Wf.addNested`: a new ensemble, at the top or as a new part;
* `Registry.Wf.insert`: a new part that is no ensemble.
-/

namespace Ensembles

namespace Registry

/-! ## Cutting off -/

/-- The registry without the ensembles of the ids `ids`. -/
def erase (r : Registry) (ids : List EnsembleId) : Registry :=
  { r with
    ensembles := r.ensembles.filter (·.id ∉ ids)
    byCommand := r.byCommand.filter (·.2 ∉ ids) }

/-- The registry without `e` and all ensembles below it. -/
def prune (r : Registry) (e : Ensemble) : Registry :=
  (r.erase ((r.subtree e.command).map (·.id))).detach e

end Registry

/-- The ensemble without the part that is `e`. -/
def Ensemble.without (x e : Ensemble) : Ensemble :=
  match e.parent with
  | none => x
  | some link =>
    if x.id = link.ensemble then { x with parts := Registry.unhang e.command link.part x.parts }
    else x

section Without

variable (x e : Ensemble)

@[simp] theorem Ensemble.id_without : (x.without e).id = x.id := by
  unfold without; split <;> [rfl; split <;> rfl]

@[simp] theorem Ensemble.command_without : (x.without e).command = x.command := by
  unfold without; split <;> [rfl; split <;> rfl]

@[simp] theorem Ensemble.parent_without : (x.without e).parent = x.parent := by
  unfold without; split <;> [rfl; split <;> rfl]

@[simp] theorem Ensemble.home_without : (x.without e).home = x.home := by
  unfold without; split <;> [rfl; split <;> rfl]

end Without

namespace Registry

variable {r r' : Registry} {x y e p : Ensemble} {h : Handle} {id : EnsembleId} {name : String}
  {ids ids' : List EnsembleId}

/-! ### Indexes -/

theorem mem_ensembles_erase : x ∈ (r.erase ids).ensembles ↔ x ∈ r.ensembles ∧ x.id ∉ ids := by
  simp [erase]

theorem erase_erase (r : Registry) (ids ids' : List EnsembleId) :
    (r.erase ids).erase ids' = r.erase (ids ++ ids') := by
  simp only [erase, List.filter_filter, List.mem_append, not_or, Bool.decide_and, Bool.and_comm]

theorem erase_nil (r : Registry) : r.erase [] = r := by
  have hens : r.ensembles.filter (·.id ∉ ([] : List EnsembleId)) = r.ensembles :=
    List.filter_eq_self.2 fun _ _ => decide_eq_true List.not_mem_nil
  have hkeys : r.byCommand.filter (·.2 ∉ ([] : List EnsembleId)) = r.byCommand :=
    List.filter_eq_self.2 fun _ _ => decide_eq_true List.not_mem_nil
  rw [erase, hens, hkeys]

theorem Indexed.erase (hi : r.Indexed) (ids : List EnsembleId) : (r.erase ids).Indexed where
  ids := hi.ids.filter _
  keys := hi.keys.filter _
  bound h id := by
    simp only [mem_ensembles_erase]
    show (h, id) ∈ r.byCommand.filter (·.2 ∉ ids) ↔ _
    rw [List.mem_filter, hi.bound, decide_eq_true_iff]
    exact ⟨fun ⟨⟨e, he, hc, hid⟩, hn⟩ => ⟨e, ⟨he, hid ▸ hn⟩, hc, hid⟩,
      fun ⟨e, ⟨he, hn⟩, hc, hid⟩ => ⟨⟨e, he, hc, hid⟩, hid ▸ hn⟩⟩

/-- To take out one ensemble is to take out what has its id. -/
theorem Indexed.remove_eq (hi : r.Indexed) (he : e ∈ r.ensembles) :
    r.remove e = r.erase [e.id] := by
  have hkeys : r.byCommand.filter (·.1 ≠ e.command) = r.byCommand.filter (·.2 ∉ [e.id]) := by
    refine List.filter_congr fun x hx => ?_
    obtain ⟨y, hy, hc, hid⟩ := (hi.bound x.1 x.2).1 hx
    have hsame : x.1 = e.command ↔ x.2 = e.id := by
      rw [← hc, ← hid]
      exact ⟨fun h => congrArg _ (hi.eq_of_command hy he h),
        fun h => congrArg _ (hi.eq_of_id hy he h)⟩
    simp [hsame]
  rw [remove, Registry.erase, hkeys]
  simp

/-- A change of the parts of ensembles leaves the indexes right. -/
theorem Indexed.map (hi : r.Indexed) {f : Ensemble → Ensemble}
    (hf : ∀ x, (f x).id = x.id ∧ (f x).command = x.command)
    (he : r'.ensembles = r.ensembles.map f) (hk : r'.byCommand = r.byCommand) :
    r'.Indexed where
  ids := by
    rw [he, List.pairwise_map]
    simpa only [hf] using hi.ids
  keys := hk ▸ hi.keys
  bound h id := by
    rw [hk, hi.bound, he]
    simp [hf]

theorem Indexed.add (hi : r.Indexed) (hids : ∀ x ∈ r.ensembles, x.id.number < r.nextId.number)
    (hf : ∀ x ∈ r.ensembles, x.command ≠ h) (link : Option ParentLink) :
    (r.add h link).Indexed where
  ids := List.pairwise_cons.2 ⟨hids, hi.ids⟩
  keys := pairwise_set hi.keys _ _
  bound c id := by
    have hold : (c, id) ∈ r.byCommand → c ≠ h := fun hm => by
      obtain ⟨x, hx, hc, -⟩ := (hi.bound c id).1 hm
      exact hc ▸ hf x hx
    show (c, id) ∈ (h, r.nextId) :: r.byCommand.filter (·.1 ≠ h) ↔ ∃ e ∈ _ :: r.ensembles, _
    rw [List.mem_cons, List.mem_filter, decide_eq_true_iff, and_iff_left_of_imp hold, hi.bound,
      Prod.mk.injEq]
    simp only [List.mem_cons, or_and_right, exists_or, exists_eq_left, eq_comm]

/-! ### What is left -/

theorem prune_eq (r : Registry) (e : Ensemble) :
    r.prune e = { r.erase ((r.subtree e.command).map (·.id)) with
      ensembles := (r.ensembles.filter
        (·.id ∉ (r.subtree e.command).map (·.id))).map (·.without e) } := by
  unfold prune detach Ensemble.without
  cases e.parent with
  | none => simp [erase]
  | some link => rfl

/-- To take an ensemble out of the table it hangs in, and others out of the registry, may be
done in either order. -/
theorem detach_erase (r : Registry) (e : Ensemble) (ids : List EnsembleId) :
    (r.detach e).erase ids = (r.erase ids).detach e := by
  unfold detach
  cases e.parent with
  | none => rfl
  | some link =>
    simp only [modifyParts, erase, List.filter_map, mk.injEq, true_and, and_true]
    congr 2
    funext x
    simp only [Function.comp_apply]
    split <;> rfl

/-- An ensemble whose parent is gone is in no table. -/
theorem detach_of_dead (hd : ∀ link, e.parent = some link → r.get? link.ensemble = none) :
    r.detach e = r := by
  unfold detach
  split
  · rfl
  · rename_i link hl
    have hnone := List.find?_eq_none.1 (hd link hl)
    have hsame : r.ensembles.map (fun x => if x.id = link.ensemble then
        { x with parts := unhang e.command link.part x.parts } else x) = r.ensembles :=
      (List.map_congr_left fun x hx => if_neg fun hid => hnone x hx (decide_eq_true hid)).trans
        (List.map_id _)
    rw [modifyParts, hsame]

theorem sorted_unhang {t : PartTable Handler} (ht : t.Sorted) : (unhang h name t).Sorted := by
  unfold Registry.unhang
  split
  · split
    · exact ht.erase name
    · exact ht
  · exact ht

theorem mem_unhang {t : PartTable Handler} (ht : t.Sorted)
    {item : String × Option String × Handler} :
    item ∈ (unhang h name t).contents ↔
      item ∈ t.contents ∧ ¬ (item.1 = name ∧ item.2.2 = .ensemble h) := by
  have hname : ∀ p, t.find? name = some p → item ∈ t.contents → item.1 = name →
      item = p.content := by
    intro p hp hi hn
    obtain ⟨q, hq, rfl⟩ := PartTable.mem_contents.1 hi
    obtain ⟨hpm, hpn⟩ := PartTable.find?_mem hp
    rw [ht.eq_of_name_eq hq hpm (hn.trans hpn.symm)]
  unfold unhang
  split
  · rename_i n m u c hf
    split
    · rename_i hc
      rw [PartTable.erase_contents ht, List.mem_filter, decide_eq_true_iff]
      refine and_congr_right fun hi => not_congr ⟨fun hn => ⟨hn, ?_⟩, And.left⟩
      rw [hname _ hf hi hn, ← hc]
      rfl
    · rename_i hc
      refine ⟨fun hi => ⟨hi, fun ⟨hn, hh⟩ => hc ?_⟩, And.left⟩
      rw [hname _ hf hi hn] at hh
      exact Handler.ensemble.inj hh
  · rename_i hf
    refine ⟨fun hi => ⟨hi, fun ⟨hn, hh⟩ => ?_⟩, And.left⟩
    obtain ⟨q, hq, rfl⟩ := PartTable.mem_contents.1 hi
    exact hf _ _ _ _ ((PartTable.find?_eq_some_iff ht).2 ⟨hq, hn⟩ |>.trans (by rw [← hh]; rfl))

theorem Wf.sorted_without (hw : r.Wf) (hx : x ∈ r.ensembles) : (x.without e).parts.Sorted := by
  unfold Ensemble.without
  split
  · exact hw.sorted x hx
  · split
    · exact sorted_unhang (hw.sorted x hx)
    · exact hw.sorted x hx

/-- An ensemble hangs in one place, so taking its part out of the table there takes out all
parts that are that ensemble. -/
theorem Wf.mem_without (hw : r.Wf) (he : e ∈ r.ensembles) (hx : x ∈ r.ensembles)
    {item : String × Option String × Handler} :
    item ∈ (x.without e).parts.contents ↔
      item ∈ x.parts.contents ∧ item.2.2 ≠ .ensemble e.command := by
  have hlink (hi : item ∈ x.parts.contents) (hh : item.2.2 = .ensemble e.command) :
      e.parent = some ⟨x.id, item.1⟩ :=
    hw.parent_of_holds hx he ⟨item.2.1, hh ▸ hi⟩
  unfold Ensemble.without
  cases hp : e.parent with
  | none =>
    refine ⟨fun hi => ⟨hi, fun hh => ?_⟩, And.left⟩
    rw [hlink hi hh] at hp
    cases hp
  | some link =>
    rw [hp] at hlink
    show item ∈ (if x.id = link.ensemble then _ else x).parts.contents ↔ _
    split
    · rw [mem_unhang (hw.sorted x hx)]
      refine and_congr_right fun hi => not_congr ⟨And.right, fun hh => ⟨?_, hh⟩⟩
      rw [Option.some.inj (hlink hi hh)]
    · rename_i hid
      refine ⟨fun hi => ⟨hi, fun hh => hid ?_⟩, And.left⟩
      rw [Option.some.inj (hlink hi hh)]

theorem Wf.holds_without (hw : r.Wf) (he : e ∈ r.ensembles) (hx : x ∈ r.ensembles) :
    (x.without e).Holds name h ↔ x.Holds name h ∧ h ≠ e.command := by
  unfold Ensemble.Holds
  constructor
  · rintro ⟨usage, hi⟩
    obtain ⟨hi, hn⟩ := (hw.mem_without he hx).1 hi
    exact ⟨⟨usage, hi⟩, fun hh => hn (congrArg Handler.ensemble hh)⟩
  · rintro ⟨⟨usage, hi⟩, hn⟩
    exact ⟨usage, (hw.mem_without he hx).2 ⟨hi, fun hh => hn (Handler.ensemble.inj hh)⟩⟩

theorem mem_ids_subtree_iff (hw : r.Wf) (hx : x ∈ r.ensembles) :
    x.id ∈ (r.subtree h).map (·.id) ↔ Under r.ensembles h x := by
  rw [List.mem_map, ← mem_subtree_iff hw]
  refine ⟨fun ⟨y, hy, hid⟩ => ?_, fun hu => ⟨x, hu, rfl⟩⟩
  rwa [← hw.eq_of_id ((mem_subtree_iff hw).1 hy).mem hx hid]

/-- What is left is all that was not below the ensemble cut off. -/
theorem mem_prune_iff (hw : r.Wf) :
    x ∈ (r.prune e).ensembles ↔
      ∃ y ∈ r.ensembles, ¬ Under r.ensembles e.command y ∧ y.without e = x := by
  rw [prune_eq, List.mem_map]
  constructor
  · rintro ⟨y, hy, hx⟩
    rw [List.mem_filter, decide_eq_true_iff] at hy
    exact ⟨y, hy.1, fun hu => hy.2 ((mem_ids_subtree_iff hw hy.1).2 hu), hx⟩
  · rintro ⟨y, hy, hu, hx⟩
    refine ⟨y, List.mem_filter.2 ⟨hy, ?_⟩, hx⟩
    exact decide_eq_true fun hm => hu ((mem_ids_subtree_iff hw hy).1 hm)

theorem Wf.prune (hw : r.Wf) (he : e ∈ r.ensembles) : (r.prune e).Wf where
  toIndexed := (hw.toIndexed.erase _).map (fun x => ⟨x.id_without e, x.command_without e⟩)
    (by rw [prune_eq]; rfl) (by rw [prune_eq])
  issued x hx := by
    obtain ⟨y, hy, -, rfl⟩ := (mem_prune_iff hw).1 hx
    rw [prune_eq, Ensemble.id_without]
    exact hw.issued y hy
  sorted x hx := by
    obtain ⟨y, hy, -, rfl⟩ := (mem_prune_iff hw).1 hx
    exact hw.sorted_without hy
  home x hx := by
    obtain ⟨y, hy, -, rfl⟩ := (mem_prune_iff hw).1 hx
    rw [prune_eq, Ensemble.home_without, Ensemble.id_without]
    exact hw.home y hy
  procedures x hx name usage q hi := by
    obtain ⟨y, hy, -, rfl⟩ := (mem_prune_iff hw).1 hx
    rw [Ensemble.home_without]
    exact hw.procedures y hy name usage q ((hw.mem_without he hy).1 hi).1
  hangs x hx link hl := by
    obtain ⟨y, hy, hu, rfl⟩ := (mem_prune_iff hw).1 hx
    rw [Ensemble.parent_without] at hl
    rw [Ensemble.command_without, Ensemble.id_without]
    obtain ⟨p, hp, hid, hlt, hh⟩ := hw.hangs y hy link hl
    have hne : y.command ≠ e.command := fun hc => hu (.self hy hc)
    refine ⟨p.without e, (mem_prune_iff hw).2 ⟨p, hp, fun hup => hu (.part hup hh hy), rfl⟩, ?_⟩
    rw [Ensemble.id_without]
    exact ⟨hid, hlt, (hw.holds_without he hp).2 ⟨hh, hne⟩⟩
  held x hx name c hh := by
    obtain ⟨p, hp, hu, rfl⟩ := (mem_prune_iff hw).1 hx
    obtain ⟨hh, hne⟩ := (hw.holds_without he hp).1 hh
    obtain ⟨y, hy, hc, hl⟩ := hw.held p hp name c hh
    -- Below `e`, and not `e` itself, it would hang in something below `e`.
    refine ⟨y.without e, (mem_prune_iff hw).2 ⟨y, hy, fun huy => hu ?_, rfl⟩, ?_⟩
    · exact hw.under_of_parent hp huy (hc.trans_ne hne) hl
    · rw [Ensemble.command_without, Ensemble.parent_without, Ensemble.id_without]
      exact ⟨hc, hl⟩

end Registry

/-! ## Adding -/

/-- The ensemble with the table `parts`, if it is the one of the id `id`. -/
def Ensemble.withParts (x : Ensemble) (id : EnsembleId) (parts : PartTable Handler) : Ensemble :=
  if x.id = id then { x with parts } else x

section WithParts

variable (x : Ensemble) (id : EnsembleId) (parts : PartTable Handler)

@[simp] theorem Ensemble.id_withParts : (x.withParts id parts).id = x.id := by
  unfold withParts; split <;> rfl

@[simp] theorem Ensemble.command_withParts : (x.withParts id parts).command = x.command := by
  unfold withParts; split <;> rfl

@[simp] theorem Ensemble.parent_withParts : (x.withParts id parts).parent = x.parent := by
  unfold withParts; split <;> rfl

@[simp] theorem Ensemble.home_withParts : (x.withParts id parts).home = x.home := by
  unfold withParts; split <;> rfl

end WithParts

namespace Registry

variable {r : Registry} {x y e p : Ensemble} {h : Handle} {name : String}
  {usage : Option String} {handler : Handler} {parts : PartTable Handler}

/-- The next ensemble. -/
def fresh (r : Registry) (command : Handle) (parent : Option ParentLink) : Ensemble :=
  ⟨r.nextId, command, parent, homeOf r.root r.nextId, .empty⟩

theorem Wf.id_lt_fresh (hw : r.Wf) (hx : x ∈ r.ensembles) : x.id.number < r.nextId.number :=
  Nat.lt_succ_of_le (hw.issued x hx)

theorem not_holds_fresh {parent : Option ParentLink} {c : Handle} :
    ¬ (r.fresh h parent).Holds name c :=
  fun ⟨_, hi⟩ => nomatch hi

theorem Wf.addTop (hw : r.Wf) (hf : ∀ x ∈ r.ensembles, x.command ≠ h) : (r.add h none).Wf where
  toIndexed := hw.toIndexed.add (fun _ hx => hw.id_lt_fresh hx) hf none
  issued := List.forall_mem_cons.2 ⟨Nat.le_refl _, fun x hx => Nat.le_succ_of_le (hw.issued x hx)⟩
  sorted := List.forall_mem_cons.2 ⟨PartTable.sorted_empty, hw.sorted⟩
  home := List.forall_mem_cons.2 ⟨rfl, hw.home⟩
  procedures := List.forall_mem_cons.2 ⟨nofun, hw.procedures⟩
  hangs := by
    refine List.forall_mem_cons.2 ⟨nofun, fun x hx link hl => ?_⟩
    obtain ⟨p, hp, hpx⟩ := hw.hangs x hx link hl
    exact ⟨p, List.mem_cons_of_mem _ hp, hpx⟩
  held := by
    refine List.forall_mem_cons.2 ⟨fun _ _ hh => absurd hh not_holds_fresh, ?_⟩
    intro x hx name c hh
    obtain ⟨y, hy, hyx⟩ := hw.held x hx name c hh
    exact ⟨y, List.mem_cons_of_mem _ hy, hyx⟩

/-- An ensemble that has just been made goes without a trace but its number. -/
theorem Wf.remove_add (hw : r.Wf) (hf : ∀ x ∈ r.ensembles, x.command ≠ h)
    (link : Option ParentLink) :
    (r.add h link).remove (r.fresh h link) = { r with issued := r.issued + 1 } := by
  have hids : r.ensembles.filter (·.id ≠ r.nextId) = r.ensembles :=
    List.filter_eq_self.2 fun x hx => decide_eq_true fun he =>
      Nat.lt_irrefl _ (he ▸ hw.id_lt_fresh hx)
  have hkeys : r.byCommand.filter (·.1 ≠ h) = r.byCommand :=
    List.filter_eq_self.2 fun x hx => decide_eq_true <| by
      obtain ⟨y, hy, hc, -⟩ := (hw.bound x.1 x.2).1 hx
      exact hc ▸ hf y hy
  simp only [remove, add, fresh, ne_eq, not_true_eq_false, decide_false, Bool.false_eq_true,
    not_false_eq_true, List.filter_cons_of_neg, mk.injEq, and_true, true_and]
  exact ⟨hids, (congrArg _ hkeys).trans hkeys⟩

theorem Wf.sorted_withParts (hw : r.Wf) (hp : p ∈ r.ensembles)
    (hi : p.parts.insert? name usage handler = some parts) (hx : x ∈ r.ensembles) :
    (x.withParts p.id parts).parts.Sorted := by
  unfold Ensemble.withParts
  split
  · exact (hw.sorted p hp).insert? hi
  · exact hw.sorted x hx

/-- The ensemble gets the new part, and no other ensemble does. -/
theorem Wf.mem_withParts (hw : r.Wf) (hp : p ∈ r.ensembles)
    (hi : p.parts.insert? name usage handler = some parts) (hx : x ∈ r.ensembles)
    {item : String × Option String × Handler} :
    item ∈ (x.withParts p.id parts).parts.contents ↔
      item ∈ x.parts.contents ∨ x = p ∧ item = (name, usage, handler) := by
  unfold Ensemble.withParts
  split
  · rename_i hid
    have hxp := hw.eq_of_id hx hp hid
    rw [PartTable.mem_insert? (hw.sorted p hp) hi, hxp, or_comm]
    simp
  · rename_i hid
    have hxp : x ≠ p := fun he => hid (congrArg Ensemble.id he)
    simp [hxp]

theorem Wf.holds_withParts (hw : r.Wf) (hp : p ∈ r.ensembles)
    (hi : p.parts.insert? name usage handler = some parts) (hx : x ∈ r.ensembles)
    {n : String} {c : Handle} :
    (x.withParts p.id parts).Holds n c ↔
      x.Holds n c ∨ x = p ∧ n = name ∧ handler = .ensemble c := by
  unfold Ensemble.Holds
  simp only [hw.mem_withParts hp hi hx, Prod.mk.injEq]
  constructor
  · rintro ⟨u, hu | ⟨hxp, hn, -, hh⟩⟩
    · exact .inl ⟨u, hu⟩
    · exact .inr ⟨hxp, hn, hh.symm⟩
  · rintro (⟨u, hu⟩ | ⟨hxp, hn, hh⟩)
    · exact ⟨u, .inl hu⟩
    · exact ⟨usage, .inr ⟨hxp, hn, rfl, hh.symm⟩⟩

theorem Wf.procedures_withParts (hw : r.Wf) (hp : p ∈ r.ensembles)
    (hi : p.parts.insert? name usage handler = some parts)
    (hf : ∀ q, handler = .procedure q →
      q.name = name ∧ q.home = p.home ∧ usage = some q.signature.usage)
    (hx : x ∈ r.ensembles) {n : String} {u : Option String} {q : Procedure}
    (hm : (n, u, Handler.procedure q) ∈ (x.withParts p.id parts).parts.contents) :
    q.name = n ∧ q.home = x.home ∧ u = some q.signature.usage := by
  rcases (hw.mem_withParts hp hi hx).1 hm with hold | ⟨hxp, hnew⟩
  · exact hw.procedures x hx n u q hold
  · simp only [Prod.mk.injEq] at hnew
    obtain ⟨rfl, rfl, hh⟩ := hnew
    rw [hxp]
    exact hf q hh.symm

/-- A new part takes nothing out of the place where it hangs. -/
theorem Wf.hangs_withParts (hw : r.Wf) (hp : p ∈ r.ensembles)
    (hi : p.parts.insert? name usage handler = some parts) (hx : x ∈ r.ensembles)
    {link : ParentLink} (hl : x.parent = some link) :
    ∃ q ∈ r.ensembles.map (·.withParts p.id parts), q.id = link.ensemble ∧
      q.id.number < x.id.number ∧ q.Holds link.part x.command := by
  obtain ⟨q, hq, hid, hlt, hh⟩ := hw.hangs x hx link hl
  refine ⟨q.withParts p.id parts, List.mem_map_of_mem hq, ?_⟩
  rw [Ensemble.id_withParts]
  exact ⟨hid, hlt, (hw.holds_withParts hp hi hq).2 (.inl hh)⟩

theorem Wf.held_withParts (hw : r.Wf) (hx : x ∈ r.ensembles) (hh : x.Holds name h)
    (id : EnsembleId) (parts : PartTable Handler) :
    ∃ e ∈ r.ensembles.map (·.withParts id parts), e.command = h ∧
      e.parent = some ⟨x.id, name⟩ := by
  obtain ⟨y, hy, hc, hl⟩ := hw.held x hx name h hh
  refine ⟨y.withParts id parts, List.mem_map_of_mem hy, ?_⟩
  rw [Ensemble.command_withParts, Ensemble.parent_withParts]
  exact ⟨hc, hl⟩

/-- What the registry demands of a part that is no ensemble. -/
def Fits (p : Ensemble) (name : String) (usage : Option String) : Handler → Prop
  | .native _ => True
  | .procedure q => q.name = name ∧ q.home = p.home ∧ usage = some q.signature.usage
  | .ensemble _ => False

theorem ensembles_modifyParts (r : Registry) (id : EnsembleId) (parts : PartTable Handler) :
    (r.modifyParts id fun _ => parts).ensembles = r.ensembles.map (·.withParts id parts) :=
  rfl

theorem Wf.insert (hw : r.Wf) (hp : p ∈ r.ensembles)
    (hi : p.parts.insert? name usage handler = some parts) (hf : Fits p name usage handler) :
    (r.modifyParts p.id fun _ => parts).Wf := by
  refine ⟨hw.toIndexed.map (fun x => ⟨x.id_withParts p.id parts, x.command_withParts p.id parts⟩)
    rfl rfl, ?issued, ?sorted, ?home, ?procedures, ?hangs, ?held⟩ <;> rw [ensembles_modifyParts]
  case issued =>
    rw [List.forall_mem_map]
    exact fun x hx => (x.id_withParts p.id parts).symm ▸ hw.issued x hx
  case sorted =>
    rw [List.forall_mem_map]
    exact fun x hx => hw.sorted_withParts hp hi hx
  case home =>
    rw [List.forall_mem_map]
    intro x hx
    rw [Ensemble.home_withParts, Ensemble.id_withParts]
    exact hw.home x hx
  case procedures =>
    rw [List.forall_mem_map]
    intro x hx n u q hm
    rw [Ensemble.home_withParts]
    exact hw.procedures_withParts hp hi (fun q hq => by rwa [hq] at hf) hx hm
  case hangs =>
    rw [List.forall_mem_map]
    intro x hx link hl
    rw [Ensemble.parent_withParts] at hl
    rw [Ensemble.id_withParts, Ensemble.command_withParts]
    exact hw.hangs_withParts hp hi hx hl
  case held =>
    rw [List.forall_mem_map]
    intro x hx n c hh
    rw [Ensemble.id_withParts]
    rcases (hw.holds_withParts hp hi hx).1 hh with hh | ⟨-, -, rfl⟩
    · exact hw.held_withParts hx hh p.id parts
    · exact hf.elim

/-- A new ensemble as a part of an ensemble that has been told of it. -/
theorem modifyParts_add (hw : r.Wf) (hp : p ∈ r.ensembles) (h : Handle)
    (link : Option ParentLink) (parts : PartTable Handler) :
    ((r.add h link).modifyParts p.id fun _ => parts).ensembles =
      r.fresh h link :: r.ensembles.map (·.withParts p.id parts) := by
  have hne : (r.fresh h link).id ≠ p.id := fun he => by
    have hlt := hw.id_lt_fresh hp
    rw [← he] at hlt
    exact Nat.lt_irrefl _ hlt
  show (r.fresh h link).withParts p.id parts :: _ = _
  rw [Ensemble.withParts, if_neg hne]
  rfl

theorem Wf.addNested (hw : r.Wf) (hf : ∀ x ∈ r.ensembles, x.command ≠ h) (hp : p ∈ r.ensembles)
    (hi : p.parts.insert? name none (.ensemble h) = some parts) :
    ((r.add h (some ⟨p.id, name⟩)).modifyParts p.id fun _ => parts).Wf := by
  have he := modifyParts_add hw hp h (some ⟨p.id, name⟩) parts
  have hadd := hw.toIndexed.add (fun _ hx => hw.id_lt_fresh hx) hf (some ⟨p.id, name⟩)
  refine ⟨hadd.map (fun x => ⟨x.id_withParts p.id parts, x.command_withParts p.id parts⟩)
    rfl rfl, ?issued, ?sorted, ?home, ?procedures, ?hangs, ?held⟩
  case issued =>
    rw [he, List.forall_mem_cons, List.forall_mem_map]
    refine ⟨Nat.le_refl _, fun x hx => ?_⟩
    rw [Ensemble.id_withParts]
    exact Nat.le_succ_of_le (hw.issued x hx)
  case sorted =>
    rw [he, List.forall_mem_cons, List.forall_mem_map]
    exact ⟨PartTable.sorted_empty, fun x hx => hw.sorted_withParts hp hi hx⟩
  case home =>
    rw [he, List.forall_mem_cons, List.forall_mem_map]
    refine ⟨rfl, fun x hx => ?_⟩
    rw [Ensemble.home_withParts, Ensemble.id_withParts]
    exact hw.home x hx
  case procedures =>
    rw [he, List.forall_mem_cons, List.forall_mem_map]
    refine ⟨nofun, fun x hx n u q hm => ?_⟩
    rw [Ensemble.home_withParts]
    exact hw.procedures_withParts hp hi nofun hx hm
  case hangs =>
    rw [he, List.forall_mem_cons, List.forall_mem_map]
    constructor
    · rintro link ⟨⟩
      refine ⟨p.withParts p.id parts, List.mem_cons_of_mem _ (List.mem_map_of_mem hp), ?_⟩
      rw [Ensemble.id_withParts]
      exact ⟨rfl, hw.id_lt_fresh hp, (hw.holds_withParts hp hi hp).2 (.inr ⟨rfl, rfl, rfl⟩)⟩
    · intro x hx link hl
      rw [Ensemble.parent_withParts] at hl
      rw [Ensemble.id_withParts, Ensemble.command_withParts]
      obtain ⟨q, hq, hqx⟩ := hw.hangs_withParts hp hi hx hl
      exact ⟨q, List.mem_cons_of_mem _ hq, hqx⟩
  case held =>
    rw [he, List.forall_mem_cons, List.forall_mem_map]
    refine ⟨fun _ _ hh => absurd hh not_holds_fresh, fun x hx n c hh => ?_⟩
    rw [Ensemble.id_withParts]
    rcases (hw.holds_withParts hp hi hx).1 hh with hh | ⟨rfl, rfl, hc⟩
    · obtain ⟨y, hy, hyx⟩ := hw.held_withParts hx hh p.id parts
      exact ⟨y, List.mem_cons_of_mem _ hy, hyx⟩
    · exact ⟨_, List.mem_cons_self .., Handler.ensemble.inj hc, rfl⟩

end Registry

end Ensembles
