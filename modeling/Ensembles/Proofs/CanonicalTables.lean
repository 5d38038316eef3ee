import Ensembles.Proofs.Abbreviations

/-!
# Tables do not depend on their history

What a table holds under each name (`PartTable.stored?`) determines the order of its parts and their
abbreviations, and so the whole table: `PartTable.Wf.eq_of_stored` says so of any two well-formed
tables. So two sequences of changes leave the same table if and only if they leave the same entries
(`PartTable.tables_are_canonical`), and to compare two histories it is enough to follow the entries:

* `Sorted.stored?_changed_insert`: an insertion sets the entry of its name, unless there is one;
* `Sorted.stored?_erase`: a removal clears the entry of its name.
-/

namespace Ensembles

variable {α : Type}

theorem Part.eq_of_content {p q : Part α} (hc : p.content = q.content)
    (hm : p.minChars = q.minChars) : p = q := by
  obtain ⟨name, minChars, usage, handler⟩ := p
  obtain ⟨name', minChars', usage', handler'⟩ := q
  cases hc
  cases hm
  rfl

namespace PartTable

variable {t t' : PartTable α} {name : String} {usage : Option String} {handler : α}

/-- What the table holds under the name: the summary of the arguments and what runs. -/
def stored? (t : PartTable α) (name : String) : Option (Option String × α) :=
  t.contents.lookup name

/-! ## Entries -/

theorem Sorted.stored?_eq_some_iff (h : t.Sorted) {entry : Option String × α} :
    t.stored? name = some entry ↔ (name, entry) ∈ t.contents := by
  rw [stored?, List.lookup_eq_some_iff]
  constructor
  · rintro ⟨before, after, hc, -⟩
    rw [hc]
    exact List.mem_append_right _ (List.mem_cons_self ..)
  · intro hm
    obtain ⟨before, after, hc⟩ := List.append_of_mem hm
    refine ⟨before, after, hc, fun x hx => ?_⟩
    rw [Sorted, hc, List.pairwise_append] at h
    exact bne_iff_ne.2 (String.ne_of_lt (h.2.2 x hx _ (List.mem_cons_self ..))).symm

theorem Sorted.stored?_eq_none_iff (h : t.Sorted) :
    t.stored? name = none ↔ t.find? name = none := by
  rw [stored?, List.lookup_eq_none_iff, find?_eq_none_iff h]
  exact forall₂_congr fun x _ => bne_iff_ne.trans ne_comm

theorem Sorted.stored?_insert? (h : t.Sorted) (hi : t.insert? name usage handler = some t')
    (other : String) :
    t'.stored? other = if other = name then some (usage, handler) else t.stored? other := by
  refine Option.ext fun entry => ?_
  rw [(h.insert? hi).stored?_eq_some_iff, mem_insert? h hi]
  split
  · rename_i hn
    subst hn
    have hnone := h.stored?_eq_none_iff.2 (absent_of_insert? hi)
    rw [← h.stored?_eq_some_iff, hnone]
    simp [eq_comm]
  · rename_i hn
    rw [h.stored?_eq_some_iff]
    exact or_iff_right fun he => hn (congrArg Prod.fst he)

theorem Sorted.insert?_eq_none_iff_stored (h : t.Sorted) :
    t.insert? name usage handler = none ↔ (t.stored? name).isSome = true := by
  rw [insert?_eq_none_iff, Option.isSome_iff_ne_none, Option.isSome_iff_ne_none]
  exact not_congr h.stored?_eq_none_iff.symm

/-- An insertion sets the entry of its name, unless there is one. -/
theorem Sorted.stored?_changed_insert (h : t.Sorted) (name : String) (usage : Option String)
    (handler : α) (other : String) :
    (t.changed (.insert name usage handler)).stored? other =
      if other = name then some ((t.stored? name).getD (usage, handler)) else t.stored? other := by
  show ((t.insert? name usage handler).getD t).stored? other = _
  cases hi : t.insert? name usage handler with
  | none =>
    obtain ⟨entry, he⟩ := Option.isSome_iff_exists.1 (h.insert?_eq_none_iff_stored.1 hi)
    rw [Option.getD_none, he, Option.getD_some]
    split
    · rename_i hn
      rw [hn, he]
    · rfl
  | some t' =>
    rw [Option.getD_some, h.stored?_insert? hi,
      h.stored?_eq_none_iff.2 (absent_of_insert? hi), Option.getD_none]

/-- A removal clears the entry of its name. -/
theorem Sorted.stored?_erase (h : t.Sorted) (name other : String) :
    (t.erase name).stored? other = if other = name then none else t.stored? other := by
  refine Option.ext fun entry => ?_
  rw [(h.erase name).stored?_eq_some_iff, erase_contents h, List.mem_filter, decide_eq_true_iff]
  split
  · rename_i hn
    exact iff_of_false (fun hm => hm.2 hn) nofun
  · rename_i hn
    rw [h.stored?_eq_some_iff]
    exact and_iff_left hn

/-! ## From entries to tables -/

/-- In order, the same entries are the same list. -/
theorem Sorted.contents_eq (h : t.Sorted) (h' : t'.Sorted)
    (he : ∀ name, t.stored? name = t'.stored? name) : t.contents = t'.contents := by
  have hnodup {t : PartTable α} (h : t.Sorted) : t.contents.Nodup :=
    List.Pairwise.imp (fun hlt heq => String.ne_of_lt hlt (congrArg Prod.fst heq)) h
  have hmem (x : String × Option String × α) : x ∈ t.contents ↔ x ∈ t'.contents := by
    rw [← h.stored?_eq_some_iff, ← h'.stored?_eq_some_iff, he]
  exact ((List.perm_ext_iff_of_nodup (hnodup h) (hnodup h')).2 hmem).eq_of_pairwise
    (fun _ _ _ _ hxy hyx => absurd hyx (String.lt_asymm hxy)) h h'

theorem getElem?_contents (t : PartTable α) (i : Nat) :
    t.contents[i]? = t.parts[i]?.map Part.content := by
  rw [contents, List.getElem?_map, toList, Array.getElem?_toList]

theorem namesNextTo_congr {parts parts' : Array (Part α)}
    (h : ∀ i : Nat, parts[i]?.map Part.name = parts'[i]?.map Part.name) (i : Nat) :
    namesNextTo parts i = namesNextTo parts' i := by
  cases i with
  | zero => rw [namesNextTo_zero, namesNextTo_zero, h]
  | succ i => rw [namesNextTo_succ, namesNextTo_succ, h, h]

/-- Parts with the same contents have the same abbreviations, if these are fresh. -/
theorem eq_of_fresh {parts parts' : Array (Part α)} (hf : ∀ i, FreshAt parts i)
    (hf' : ∀ i, FreshAt parts' i)
    (hc : ∀ i : Nat, parts[i]?.map Part.content = parts'[i]?.map Part.content) :
    parts = parts' := by
  have hname (i : Nat) : parts[i]?.map Part.name = parts'[i]?.map Part.name := by
    have := congrArg (Option.map Prod.fst) (hc i)
    rwa [Option.map_map, Option.map_map] at this
  refine Array.ext_getElem? fun i => ?_
  have hi := hc i
  cases hp : parts[i]? with
  | none =>
    rw [hp] at hi
    exact (Option.map_eq_none_iff.1 hi.symm).symm
  | some p =>
    rw [hp] at hi
    obtain ⟨q, hq, hpq⟩ := Option.map_eq_some_iff.1 hi.symm
    have hn : q.name = p.name := congrArg Prod.fst hpq
    have hmin : q.minChars = p.minChars := by
      rw [hf i p hp, hf' i q hq, namesNextTo_congr hname, hn]
    rw [hq, Part.eq_of_content hpq hmin]

theorem Wf.eq_of_contents (hw : t.Wf) (hw' : t'.Wf) (hc : t.contents = t'.contents) : t = t' := by
  have hparts : t.parts = t'.parts := eq_of_fresh hw.fresh hw'.fresh fun i => by
    rw [← getElem?_contents, ← getElem?_contents, hc]
  cases t
  cases t'
  exact congrArg PartTable.mk hparts

/-- The entries of a table determine the order of its parts and their abbreviations. -/
theorem Wf.eq_of_stored (hw : t.Wf) (hw' : t'.Wf)
    (he : ∀ name, t.stored? name = t'.stored? name) : t = t' :=
  hw.eq_of_contents hw' (hw.sorted.contents_eq hw'.sorted he)

/-! ## Histories -/

theorem ofChanges_append (changes later : List (TableChange α)) :
    ofChanges (changes ++ later) = later.foldl changed (ofChanges changes) :=
  List.foldl_append ..

theorem Wf.changed_insert_comm (hw : t.Wf) {name name' : String} (hn : name ≠ name')
    (usage usage' : Option String) (handler handler' : α) :
    (t.changed (.insert name usage handler)).changed (.insert name' usage' handler') =
      (t.changed (.insert name' usage' handler')).changed (.insert name usage handler) := by
  have hw₁ := hw.changed (.insert name usage handler)
  have hw₂ := hw.changed (.insert name' usage' handler')
  refine (hw₁.changed _).eq_of_stored (hw₂.changed _) fun other => ?_
  simp only [hw₁.sorted.stored?_changed_insert, hw₂.sorted.stored?_changed_insert,
    hw.sorted.stored?_changed_insert, if_neg hn, if_neg hn.symm]
  by_cases h : other = name
  · rw [if_neg (h ▸ hn), if_pos h, if_pos h]
  · rw [if_neg h, if_neg h]

theorem Wf.erase_insert? (hw : t.Wf) (hi : t.insert? name usage handler = some t') :
    t'.erase name = t := by
  refine ((hw.insert? hi).erase name).eq_of_stored hw fun other => ?_
  rw [(hw.insert? hi).sorted.stored?_erase, hw.sorted.stored?_insert? hi]
  split
  · rename_i hn
    rw [hn, hw.sorted.stored?_eq_none_iff.2 (absent_of_insert? hi)]
  · rfl

/-- Changes of the empty table leave the same table if and only if they leave the same entries. In
particular insertions under different names may change places, and neither is refused because of the
other; a removal undoes an insertion; and an insertion is refused exactly if its name has an entry,
and then changes nothing. -/
theorem tables_are_canonical (changes : List (TableChange α)) :
    (∀ others, ofChanges changes = ofChanges others ↔
      ∀ name, (ofChanges changes).stored? name = (ofChanges others).stored? name) ∧
    (∀ {name name' usage usage' handler handler'}, name ≠ name' →
      ofChanges (changes ++ [.insert name usage handler, .insert name' usage' handler']) =
        ofChanges (changes ++ [.insert name' usage' handler', .insert name usage handler]) ∧
      ((ofChanges (changes ++ [.insert name usage handler])).insert? name' usage' handler' = none ↔
        (ofChanges changes).insert? name' usage' handler' = none)) ∧
    (∀ {name usage handler t}, (ofChanges changes).insert? name usage handler = some t →
      t = ofChanges (changes ++ [.insert name usage handler]) ∧
      ofChanges (changes ++ [.insert name usage handler, .erase name]) = ofChanges changes) ∧
    ∀ name usage handler,
      ((ofChanges changes).insert? name usage handler = none ↔
        ((ofChanges changes).stored? name).isSome = true) ∧
      ((ofChanges changes).insert? name usage handler = none →
        ofChanges (changes ++ [.insert name usage handler]) = ofChanges changes) := by
  have hw := wf_ofChanges changes
  simp only [ofChanges_append, List.foldl_cons, List.foldl_nil]
  refine ⟨fun others => ⟨fun h name => h ▸ rfl, hw.eq_of_stored (wf_ofChanges others)⟩,
    fun {name name' usage usage' handler handler'} hn => ⟨?_, ?_⟩,
    fun {name usage handler t} hi => ?_,
    fun name usage handler => ⟨hw.sorted.insert?_eq_none_iff_stored, fun hi => ?_⟩⟩
  · exact hw.changed_insert_comm hn usage usage' handler handler'
  · rw [(hw.changed _).sorted.insert?_eq_none_iff_stored, hw.sorted.stored?_changed_insert,
      if_neg hn.symm, hw.sorted.insert?_eq_none_iff_stored]
  · have ht : t = (ofChanges changes).changed (.insert name usage handler) := by
      show t = ((ofChanges changes).insert? name usage handler).getD _
      rw [hi, Option.getD_some]
    refine ⟨ht, ?_⟩
    rw [← ht]
    exact hw.erase_insert? hi
  · show ((ofChanges changes).insert? name usage handler).getD _ = _
    rw [hi, Option.getD_none]

theorem tables_are_canonical_refilled :
    ofChanges (α := Nat) [.insert "two" none 2, .insert "three" (some "n") 3] =
        ofChanges [.insert "three" (some "n") 3, .insert "one" none 1, .eraseFirst,
          .insert "two" none 2, .insert "two" none 7] ∧
      ("three" ≠ "tree" ∧
        ofChanges (α := Nat) [.insert "two" none 2, .insert "three" none 3, .insert "tree" none 4] =
          ofChanges [.insert "two" none 2, .insert "tree" none 4, .insert "three" none 3]) ∧
      (∃ t, (ofChanges [.insert "two" none 2]).insert? "tree" none 4 = some t ∧
        ofChanges (α := Nat) [.insert "two" none 2, .insert "tree" none 4, .erase "tree"] =
          ofChanges [.insert "two" none 2]) ∧
      (ofChanges [.insert "two" none 2]).insert? "two" none 7 = none ∧
        ofChanges [.insert "two" none 2, .insert "two" none 7] =
          ofChanges [.insert "two" none 2] := by
  have hne : "three" ≠ "tree" := by decide
  have hsome : ((ofChanges [.insert "two" none 2]).insert? "tree" none 4).isSome = true := by
    decide +kernel
  have hnone : (ofChanges [.insert "two" none 2]).insert? "two" none 7 = none :=
    Option.isNone_iff_eq_none.1 (by decide +kernel)
  obtain ⟨t, ht⟩ := Option.isSome_iff_exists.1 hsome
  obtain ⟨-, hcomm, herase, hrefused⟩ := tables_are_canonical (α := Nat) [.insert "two" none 2]
  refine ⟨((tables_are_canonical _).1 _).2 fun name => congrArg (List.lookup name) ?_,
    ⟨hne, (hcomm hne).1⟩, ⟨t, ht, (herase ht).2⟩, hnone, (hrefused "two" none 7).2 hnone⟩
  decide +kernel

end PartTable

end Ensembles
