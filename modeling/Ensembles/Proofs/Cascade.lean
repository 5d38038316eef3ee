import Ensembles.Catalog
import Ensembles.Proofs.CommandTables
import Ensembles.Proofs.ForestChanges
import Mathlib.Data.List.Nodup

/-!
# The cascade

`Catalog.destroy` takes one ensemble after the other out of the maps that it goes through, and looks
each up anew in what is left. `Catalog.result_destroy` says what that comes to where the ensembles
make a forest: what goes is the subtree as it was before, all at once (`Catalog.prune`), and the
natives go in the order of the tables (`Registry.subtreeNatives`).

The induction is on the way down. The catalogue changes on the way, so it is about all catalogues
that still have the rest of the way as it was (`Catalog.Intact`). The destruction of a part leaves
the parts behind it intact, since the way down comes to no ensemble twice
(`Registry.Wf.nodup_descend`).
-/

namespace Ensembles

/-! ## No ensemble twice -/

namespace Registry

variable {r : Registry} {e x y p : Ensemble} {h c₁ c₂ : Handle} {l : List Ensemble}

/-- Nothing is below two ensembles that hang in the same third one. -/
theorem Wf.not_under_both (hw : r.Wf) (hl : ∀ x ∈ l, x ∈ r.ensembles) (he : e ∈ r.ensembles)
    (hel : e ∉ l) {n₁ n₂ : String} (h₁ : e.Holds n₁ c₁) (h₂ : e.Holds n₂ c₂) (hne : c₁ ≠ c₂)
    (hx₁ : Under l c₁ x) (hx₂ : Under l c₂ x) : False := by
  -- On the way up from `x` the two ways meet in ever higher ensembles of `l`, short of `e`.
  induction hx₁ with
  | @self y hy hc =>
    cases hx₂ with
    | self _ hc' => exact hne (hc.symm.trans hc')
    | @part q _ _ hq hh _ =>
      have hey := hw.parent_of_holds he (hl y hy) (hc ▸ h₁)
      have hqy := hw.parent_of_holds (hl q hq.mem) (hl y hy) hh
      have hid := congrArg ParentLink.ensemble (Option.some.inj (hqy.symm.trans hey))
      exact hel (hw.eq_of_id (hl q hq.mem) he hid ▸ hq.mem)
  | @part q y _ hq hh hy ih =>
    have hqy := hw.parent_of_holds (hl q hq.mem) (hl y hy) hh
    cases hx₂ with
    | self _ hc =>
      have hey := hw.parent_of_holds he (hl y hy) (hc ▸ h₂)
      have hid := congrArg ParentLink.ensemble (Option.some.inj (hqy.symm.trans hey))
      exact hel (hw.eq_of_id (hl q hq.mem) he hid ▸ hq.mem)
    | @part q' _ _ hq' hh' _ =>
      have hqy' := hw.parent_of_holds (hl q' hq'.mem) (hl y hy) hh'
      have hid := congrArg ParentLink.ensemble (Option.some.inj (hqy.symm.trans hqy'))
      exact ih (hw.eq_of_id (hl q hq.mem) (hl q' hq'.mem) hid ▸ hq')

/-- No two parts of an ensemble are the same ensemble. -/
theorem Wf.child_ne (hw : r.Wf) (he : e ∈ r.ensembles) {p q : Part Handler}
    (hp : p ∈ e.parts.toList) (hq : q ∈ e.parts.toList) (hn : p.name < q.name)
    (h₁ : p.handler = .ensemble c₁) (h₂ : q.handler = .ensemble c₂) : c₁ ≠ c₂ := by
  rintro rfl
  obtain ⟨x, hx, rfl, hl₁⟩ := hw.held e he _ _ (e.holds_of_part hp h₁)
  have hl₂ := hw.parent_of_holds he hx (e.holds_of_part hq h₂)
  have hname : p.name = q.name := congrArg ParentLink.part (Option.some.inj (hl₁.symm.trans hl₂))
  exact String.lt_irrefl _ (hname ▸ hn)

/-- The way down comes to no ensemble twice. -/
theorem Wf.nodup_descend (hw : r.Wf) (hl : Ordered l) (hsub : ∀ x ∈ l, x ∈ r.ensembles)
    (h : Handle) : (descend l h).Nodup := by
  induction l generalizing h with
  | nil => exact .nil
  | cons e l ih =>
    rw [List.forall_mem_cons] at hsub
    have hel : e ∉ l := fun hm => Nat.lt_irrefl _ ((List.pairwise_cons.1 hl.ids).1 e hm)
    rw [descend]
    split
    · refine List.nodup_cons.2 ⟨fun hm => ?_, List.nodup_flatMap.2 ⟨fun p _ => ?_, ?_⟩⟩
      · obtain ⟨_, _, _, hd⟩ := mem_children.1 hm
        exact hel (under_of_mem_descend hd).mem
      · cases p.handler with
        | ensemble child => exact ih hl.tail hsub.2 child
        | native n => exact .nil
        | procedure q => exact .nil
      · refine (hw.sorted e hsub.1).pairwise_name.imp_of_mem fun {p q} hp hq hn x hx₁ hx₂ => ?_
        cases h₁ : p.handler <;> simp only [h₁, Handler.ensembles, List.not_mem_nil] at hx₁
        cases h₂ : q.handler <;> simp only [h₂, Handler.ensembles, List.not_mem_nil] at hx₂
        exact hw.not_under_both hsub.2 hsub.1 hel (e.holds_of_part hp h₁)
          (e.holds_of_part hq h₂) (hw.child_ne hsub.1 hp hq hn h₁ h₂)
          (under_of_mem_descend hx₁) (under_of_mem_descend hx₂)
    · exact ih hl.tail hsub.2 h

end Registry

namespace Catalog

variable {c c' : Catalog} {h : Handle} {e x : Ensemble} {xs ys : List Ensemble}
  {t : PartTable Handler} {p : Part Handler}

/-! ## One turn -/

/-- The catalogue that is left and the natives that lost their owner. -/
def Remains.result (r : Remains c) : Catalog × List Hosted := (r.catalog, r.freed)

theorem Remains.catalog_eq {r : Remains c} {hs : List Hosted} (hr : r.result = (c', hs)) :
    r.catalog = c' :=
  congrArg Prod.fst hr

theorem Remains.freed_eq {r : Remains c} {hs : List Hosted} (hr : r.result = (c', hs)) :
    r.freed = hs :=
  congrArg Prod.snd hr

theorem result_destroy_of_unbound (hb : c.registry.bound? h = none) :
    (c.destroy h).result = (c, []) := by
  rw [destroy]
  split
  · rfl
  · rename_i hb'
    rw [hb] at hb'
    cases hb'

theorem result_destroy_of_bound (hb : c.registry.bound? h = some e) :
    (c.destroy h).result = ((destroyParts (c.forget e) e.parts).catalog,
      c.commands.nativesOf e.command ++ (destroyParts (c.forget e) e.parts).freed) := by
  rw [destroy]
  split
  · rename_i hb'
    rw [hb] at hb'
    cases hb'
  · rename_i e' hb'
    obtain rfl : e = e' := Option.some.inj (hb.symm.trans hb')
    rfl

theorem result_destroyParts_of_none (hp : t.first? = none) :
    (c.destroyParts t).result = (c, []) := by
  rw [destroyParts]
  split
  · rfl
  · rename_i hp'
    rw [hp] at hp'
    cases hp'

/-- What becomes of a part that has been taken out of its table. -/
def dropped (c : Catalog) : Handler → Catalog × List Hosted
  | .ensemble child => (c.destroy child).result
  | .native n => (c, [n])
  | .procedure _ => (c, [])

theorem result_destroyParts_of_some (hp : t.first? = some p) :
    (c.destroyParts t).result =
      ((destroyParts (c.dropped p.handler).1 t.eraseFirst).catalog,
        (c.dropped p.handler).2 ++ (destroyParts (c.dropped p.handler).1 t.eraseFirst).freed) := by
  rw [destroyParts]
  split
  · rename_i hp'
    rw [hp] at hp'
    cases hp'
  · rename_i p' hp'
    obtain rfl : p = p' := Option.some.inj (hp.symm.trans hp')
    obtain ⟨name, minChars, usage, handler⟩ := p
    cases handler <;> rfl

/-- What stays true when an ensemble is forgotten is still true after a destruction. -/
theorem destroy_preserves {P : Catalog → Prop}
    (hforget : ∀ c h e, c.registry.bound? h = some e → P c → P (c.forget e)) (hc : P c)
    (h : Handle) : P (c.destroy h).catalog := by
  refine destroy.induct (fun c h => P c → P (c.destroy h).catalog)
    (fun c t => P c → P (c.destroyParts t).catalog) ?unbound ?bound ?done ?next c h hc
  case unbound =>
    intro c h hb hc
    rwa [Remains.catalog_eq (result_destroy_of_unbound hb)]
  case bound =>
    intro c h e hb ih hc
    rw [Remains.catalog_eq (result_destroy_of_bound hb)]
    exact ih (hforget c h e hb hc)
  case done =>
    intro c t hp hc
    rwa [Remains.catalog_eq (result_destroyParts_of_none hp)]
  case next =>
    intro c t p hp _ hdestroy _ hrest hc
    rw [Remains.catalog_eq (result_destroyParts_of_some hp)]
    cases hh : p.handler with
    | ensemble child =>
      rw [hh] at hrest
      exact hrest (hdestroy child hc)
    | native n =>
      rw [hh] at hrest
      exact hrest hc
    | procedure q =>
      rw [hh] at hrest
      exact hrest hc

/-! ## What is on the way -/

/-- The catalogue without the ensembles `xs` and their commands. -/
def erase (c : Catalog) (xs : List Ensemble) : Catalog :=
  ⟨c.commands.erase (xs.map (·.command)), c.registry.erase (xs.map (·.id))⟩

theorem erase_nil (c : Catalog) : c.erase [] = c := by
  unfold erase
  rw [List.map_nil, List.map_nil, CommandTable.erase_nil, Registry.erase_nil]

theorem erase_append (c : Catalog) (xs ys : List Ensemble) :
    (c.erase xs).erase ys = c.erase (xs ++ ys) := by
  unfold erase
  rw [List.map_append, List.map_append, CommandTable.erase_erase, Registry.erase_erase]

/-- The catalogue without the ensembles `xs` and their commands, and with `e` taken out of the table
that it hangs in. -/
def cut (c : Catalog) (xs : List Ensemble) (e : Ensemble) : Catalog :=
  { c.erase xs with registry := (c.erase xs).registry.detach e }

theorem erase_cut (c : Catalog) (xs ys : List Ensemble) (e : Ensemble) :
    (c.cut xs e).erase ys = c.cut (xs ++ ys) e := by
  rw [cut, cut, ← erase_append]
  simp only [erase, Registry.detach_erase]

/-- The ensembles `xs` are all there as they are, and their commands own no natives. -/
structure Intact (c : Catalog) (xs : List Ensemble) : Prop where
  commands : c.commands.Wf
  indexed : c.registry.Indexed
  mem : ∀ x ∈ xs, x ∈ c.registry.ensembles
  bare : ∀ x ∈ xs, c.commands.nativesOf x.command = []

theorem Intact.subset (hi : c.Intact xs) (hs : ∀ y ∈ ys, y ∈ xs) : c.Intact ys :=
  ⟨hi.commands, hi.indexed, fun y hy => hi.mem y (hs y hy), fun y hy => hi.bare y (hs y hy)⟩

/-- What others leave behind is as it was. -/
theorem Intact.erase (hi : c.Intact xs) (hd : ∀ x ∈ xs, x.id ∉ ys.map (·.id)) :
    (c.erase ys).Intact xs where
  commands := hi.commands.erase _
  indexed := hi.indexed.erase _
  mem x hx := Registry.mem_ensembles_erase.2 ⟨hi.mem x hx, hd x hx⟩
  bare x hx := by
    have hbare := hi.bare x hx
    show (c.commands.erase (ys.map (·.command))).nativesOf x.command = []
    cases hg : (c.commands.erase (ys.map (·.command))).get? x.command with
    | none =>
      rw [CommandTable.nativesOf, hg]
      rfl
    | some a =>
      obtain ⟨ha, hh⟩ := (CommandTable.get?_eq_some_iff (hi.commands.erase _)).1 hg
      rw [← hh, CommandTable.nativesOf_of_mem hi.commands (CommandTable.mem_erase.1 ha).1] at hbare
      rw [← hh, CommandTable.nativesOf_of_mem (hi.commands.erase _) ha, hbare]

/-- Only an ensemble that others hang in is changed when one of them is taken out of its
table. -/
theorem Intact.detach (hi : c.Intact xs)
    (hp : ∀ link, e.parent = some link → ∀ x ∈ xs, x.id ≠ link.ensemble) :
    Intact { c with registry := c.registry.detach e } xs where
  commands := hi.commands
  indexed := by
    unfold Registry.detach
    split
    · exact hi.indexed
    · exact hi.indexed.map (fun x => by split <;> exact ⟨rfl, rfl⟩) rfl rfl
  mem x hx := by
    unfold Registry.detach
    split
    · exact hi.mem x hx
    · rename_i link hl
      exact List.mem_map.2 ⟨x, hi.mem x hx, if_neg (hp link hl x hx)⟩
  bare := hi.bare

theorem Intact.forget_eq (hi : c.Intact (e :: xs)) : c.forget e = c.cut [e] e := by
  rw [forget, hi.commands.remove_eq, hi.indexed.remove_eq (hi.mem e (List.mem_cons_self ..))]
  rfl

/-- The catalogue without `e`, all ensembles below it and their commands. -/
def prune (c : Catalog) (e : Ensemble) : Catalog :=
  ⟨c.commands.erase ((c.registry.subtree e.command).map (·.command)), c.registry.prune e⟩

end Catalog

/-! ## The way through a table -/

namespace PartTable

variable {t : PartTable Handler}

theorem flatMap_contents {β : Type} (t : PartTable Handler) (f : Handler → List β) :
    t.contents.flatMap (fun item => f item.2.2) = t.toList.flatMap fun p => f p.handler :=
  List.flatMap_map ..

theorem first?_of_contents_nil (hc : t.contents = []) : t.first? = none := by
  rw [contents, List.map_eq_nil_iff] at hc
  rw [first?, ← Array.getElem?_toList, show t.parts.toList = [] from hc]
  rfl

theorem first?_of_contents_cons {item : String × Option String × Handler}
    {items : List (String × Option String × Handler)} (hc : t.contents = item :: items) :
    (∃ p, t.first? = some p ∧ p.content = item) ∧ t.eraseFirst.contents = items := by
  have herase := contents_eraseAt t 0
  rw [hc] at herase
  refine ⟨?_, herase⟩
  rw [contents, List.map_eq_cons_iff] at hc
  obtain ⟨p, ps, hp, hcontent, -⟩ := hc
  refine ⟨p, ?_, hcontent⟩
  rw [first?, ← Array.getElem?_toList, show t.parts.toList = p :: ps from hp]
  rfl

end PartTable

namespace Catalog

variable {c : Catalog} {h : Handle} {id : EnsembleId} {e x : Ensemble} {t : PartTable Handler}

/-- The parts go one after the other, each as it would alone: `f` and `g` say what goes with each
ensemble among them, so long as the ensemble `id` that they hang in is gone. -/
theorem result_destroyParts {f : Handle → List Ensemble} {g : Handle → List Hosted}
    (hchild : ∀ item ∈ t.contents, ∀ child, item.2.2 = .ensemble child →
      ∀ c : Catalog, c.Intact (f child) → c.registry.get? id = none →
        (c.destroy child).result = (c.erase (f child), g child))
    (hi : c.Intact (t.contents.flatMap fun item => item.2.2.ensembles f))
    (hid : c.registry.get? id = none)
    (hn : ((t.contents.flatMap fun item => item.2.2.ensembles f).map (·.id)).Nodup) :
    (c.destroyParts t).result = (c.erase (t.contents.flatMap fun item => item.2.2.ensembles f),
      t.contents.flatMap fun item => item.2.2.freed g) := by
  generalize hitems : t.contents = items at hchild hi hn
  induction items generalizing t c with
  | nil =>
    rw [result_destroyParts_of_none (PartTable.first?_of_contents_nil hitems)]
    exact congrArg (·, []) (c.erase_nil).symm
  | cons item items ih =>
    obtain ⟨⟨p, hp, hcontent⟩, hrest⟩ := PartTable.first?_of_contents_cons hitems
    have hhandler : p.handler = item.2.2 := congrArg (·.2.2) hcontent
    rw [List.flatMap_cons] at hi hn
    rw [List.map_append, List.nodup_append] at hn
    -- What goes with the first part is none of what goes with those behind it.
    have hdisjoint : ∀ x ∈ items.flatMap (fun item => item.2.2.ensembles f),
        x.id ∉ (item.2.2.ensembles f).map (·.id) := fun x hx hm =>
      hn.2.2 _ hm _ (List.mem_map_of_mem hx) rfl
    have hfirst : c.dropped p.handler =
        (c.erase (item.2.2.ensembles f), item.2.2.freed g) := by
      rw [hhandler]
      cases hh : item.2.2 with
      | ensemble child =>
        refine hchild item (List.mem_cons_self ..) child hh c (hi.subset fun x hx => ?_) hid
        exact List.mem_append_left _ (by rw [hh]; exact hx)
      | native n => exact congrArg (·, [n]) (c.erase_nil).symm
      | procedure q => exact congrArg (·, []) (c.erase_nil).symm
    have hgone : (c.erase (item.2.2.ensembles f)).registry.get? id = none :=
      List.find?_eq_none.2 fun x hx =>
        List.find?_eq_none.1 hid x (Registry.mem_ensembles_erase.1 hx).1
    have hlater := ih (c := c.erase (item.2.2.ensembles f)) hgone hrest
      (fun item hm => hchild item (List.mem_cons_of_mem _ hm))
      ((hi.subset fun x hx => List.mem_append_right _ hx).erase hdisjoint) hn.2.1
    rw [result_destroyParts_of_some hp, hfirst,
      Remains.catalog_eq hlater, Remains.freed_eq hlater, erase_append, List.flatMap_cons,
      List.flatMap_cons]

/-! ## The whole cascade -/

theorem get?_detach (hn : c.registry.get? id = none) : (c.registry.detach e).get? id = none := by
  unfold Registry.detach
  split
  · exact hn
  · refine List.find?_eq_none.2 fun y hy => ?_
    obtain ⟨z, hz, rfl⟩ := List.mem_map.1 hy
    have hne := List.find?_eq_none.1 hn z hz
    split <;> exact hne

section Forest

variable {r : Registry} {l : List Ensemble}

/-- The ids on the way down differ. -/
theorem nodup_ids_descend (hw : r.Wf) (hl : l <:+ r.ensembles.reverse) (h : Handle) :
    ((Registry.descend l h).map (·.id)).Nodup := by
  have hmem {x : Ensemble} (hx : x ∈ l) : x ∈ r.ensembles := List.mem_reverse.1 (hl.subset hx)
  have hnodup := hw.nodup_descend (hw.ordered.suffix hl) (fun x hx => hmem hx) h
  refine hnodup.map_on fun x hx y hy => ?_
  exact hw.eq_of_id (hmem (Registry.under_of_mem_descend hx).mem)
    (hmem (Registry.under_of_mem_descend hy).mem)

/-- What an ensemble hangs in is not on the way down from it. -/
theorem ne_parent_of_mem_descend (hw : r.Wf) (hl : l <:+ r.ensembles.reverse) (he : e ∈ l)
    {link : ParentLink} (hlink : e.parent = some link)
    (hx : x ∈ Registry.descend l e.command) : x.id ≠ link.ensemble := by
  have hmem {x : Ensemble} (hx : x ∈ l) : x ∈ r.ensembles := List.mem_reverse.1 (hl.subset hx)
  intro hid
  obtain ⟨p, hp, hpid, -, hh⟩ := hw.hangs e (hmem he) link hlink
  have hu := (Registry.under_of_mem_descend hx).mono fun _ => hmem
  rw [hw.eq_of_id hu.mem hp (hid.trans hpid.symm)] at hu
  exact hw.not_under_of_holds hp (hmem he) hh hu

/-- Where a catalogue has the way down from `e` as it is in the forest, the destruction of `e` takes
just that away, and lets the natives on it go in the order of the tables. -/
theorem result_destroy_of_intact (hw : r.Wf) (hl : l <:+ r.ensembles.reverse) (he : e ∈ l)
    (hi : c.Intact (Registry.descend l e.command)) :
    (c.destroy e.command).result =
      (c.cut (Registry.descend l e.command) e, Registry.descendNatives l e.command) := by
  refine hw.descend_induct (P := fun l e => ∀ c : Catalog,
    c.Intact (Registry.descend l e.command) → (c.destroy e.command).result =
      (c.cut (Registry.descend l e.command) e, Registry.descendNatives l e.command))
    ?here ?past hl he c hi
  case here =>
    intro x l hl hchild c hi
    have hids := nodup_ids_descend hw hl x.command
    have hparent := fun link (hlink : x.parent = some link) y =>
      ne_parent_of_mem_descend (x := y) hw hl (List.mem_cons_self ..) hlink
    rw [Registry.descend, if_pos rfl, ← x.parts.flatMap_contents (·.ensembles _)]
      at hi hids hparent ⊢
    rw [Registry.descendNatives, if_pos rfl, ← x.parts.flatMap_contents (·.freed _)]
    rw [List.map_cons, List.nodup_cons] at hids
    have hx := hi.mem x (List.mem_cons_self ..)
    rw [result_destroy_of_bound (hi.indexed.bound?_eq_some_iff.2 ⟨hx, rfl⟩),
      hi.bare x (List.mem_cons_self ..), hi.forget_eq]
    have hrest : (c.cut [x] x).Intact
        (x.parts.contents.flatMap fun item => item.2.2.ensembles (Registry.descend l)) := by
      refine ((hi.subset fun y hy => List.mem_cons_of_mem x hy).erase fun y hy hm => ?_).detach
        fun link hlink y hy => hparent link hlink y (List.mem_cons_of_mem _ hy)
      rw [List.map_singleton, List.mem_singleton] at hm
      exact hids.1 (hm ▸ List.mem_map_of_mem hy)
    have hgone : (c.cut [x] x).registry.get? x.id = none := by
      refine get?_detach (List.find?_eq_none.2 fun y hy hid => ?_)
      refine (Registry.mem_ensembles_erase.1 hy).2 ?_
      rw [of_decide_eq_true hid]
      exact List.mem_singleton_self _
    have hparts := result_destroyParts (c := c.cut [x] x) (g := Registry.descendNatives l)
      (fun item hm child hh c hi hgone => ?child) hrest hgone hids.2
    · rw [Remains.catalog_eq hparts, Remains.freed_eq hparts, erase_cut]
      rfl
    case child =>
      obtain ⟨p, hp, rfl⟩ := PartTable.mem_contents.1 hm
      obtain ⟨y, -, rfl, hlink, hy⟩ := hchild p hp child hh
      rw [hy c hi, cut, Registry.detach_of_dead fun link hl => ?_]
      rw [hlink] at hl
      cases hl
      exact List.find?_eq_none.2 fun z hz =>
        List.find?_eq_none.1 hgone z (Registry.mem_ensembles_erase.1 hz).1
  case past =>
    intro x l y hne hy c hi
    rw [Registry.descend, if_neg hne] at hi ⊢
    rw [Registry.descendNatives, if_neg hne]
    exact hy c hi

/-- The cascade takes away the subtree as it was before, and lets its natives go in the order of the
tables. -/
theorem result_destroy (hw : c.registry.Wf) (hc : c.commands.Wf)
    (hbare : ∀ x, Under c.registry.ensembles h x → c.commands.nativesOf x.command = [])
    (hb : c.registry.bound? h = some e) :
    (c.destroy h).result = (c.prune e, c.registry.subtreeNatives h) := by
  obtain ⟨he, rfl⟩ := (Registry.bound?_eq_some_iff hw).1 hb
  refine result_destroy_of_intact hw (List.suffix_refl _) (List.mem_reverse.2 he)
    ⟨hc, hw.toIndexed, fun x hx => ?_, fun x hx => hbare x ((Registry.mem_subtree_iff hw).1 hx)⟩
  exact ((Registry.mem_subtree_iff hw).1 hx).mem

end Forest

end Catalog

end Ensembles
