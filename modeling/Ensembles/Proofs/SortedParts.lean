import Ensembles.PartTable
import Ensembles.Proofs.Search
import Mathlib.Data.List.InsertIdx

/-!
# Sorted tables of parts

What a table holds, abbreviations aside, are its `PartTable.contents`. They are sorted by
name (`PartTable.Sorted`) in the empty table, and insertions and removals keep them so. In a
sorted table halving finds exactly the parts there are:

* `find?_eq_some_iff`, `find?_eq_none_iff`: what is found under a name;
* `mem_insert?`, `insert?_eq_none_iff`: an insertion adds one part, and is refused only if
  there is a part of the name;
* `erase_contents`: a removal takes the part of the name away;
* `mem_of_resolve`: an abbreviation stands for a part of the table.
-/

namespace Ensembles

theorem compare_eq_lt_iff {a b : String} : compare a b = .lt ↔ a < b :=
  compareOfLessAndEq_eq_lt

theorem compare_eq_gt_iff {a b : String} : compare a b = .gt ↔ b < a :=
  compareOfLessAndEq_eq_gt String.le_antisymm String.le_total String.not_le a b

variable {α : Type}

/-- The part without its abbreviation. -/
def Part.content (p : Part α) : String × Option String × α := (p.name, p.usage, p.handler)

namespace PartTable

/-- The parts in table order without their abbreviations. -/
def contents (t : PartTable α) : List (String × Option String × α) := t.toList.map Part.content

/-- The names of the parts ascend. -/
def Sorted (t : PartTable α) : Prop := t.contents.Pairwise fun x y => x.1 < y.1

theorem mem_toList_iff {t : PartTable α} {p : Part α} :
    p ∈ t.toList ↔ ∃ i, ∃ hi : i < t.parts.size, t.parts[i] = p := by
  rw [toList, Array.mem_toList_iff, Array.mem_iff_getElem]

theorem mem_of_getElem? {t : PartTable α} {i : Nat} {p : Part α} (h : t.parts[i]? = some p) :
    p ∈ t.toList :=
  mem_toList_iff.2 ⟨i, Array.getElem?_eq_some_iff.1 h⟩

theorem sorted_empty : (empty : PartTable α).Sorted := List.Pairwise.nil

theorem Sorted.pairwise_name {t : PartTable α} (h : t.Sorted) :
    t.toList.Pairwise fun p q => p.name < q.name := by
  rw [Sorted, contents, List.pairwise_map] at h
  exact h

/-! ## Finding parts -/

section Find

variable {t : PartTable α} {name : String}

theorem Sorted.lt (h : t.Sorted) {i j : Nat} (hi : i < t.parts.size) (hj : j < t.parts.size)
    (hij : i < j) : t.parts[i].name < t.parts[j].name := by
  have := List.pairwise_iff_getElem.1 h i j (by simpa [contents, toList] using hi)
    (by simpa [contents, toList] using hj) hij
  simpa [contents, toList, Part.content] using this

theorem Sorted.ascends (h : t.Sorted) (name : String) :
    Ascends (fun p => compare p.name name) t.parts := by
  intro i j hi hj hij
  have hlt := h.lt hi hj hij
  simp only [compare_eq_lt_iff, compare_eq_gt_iff]
  exact ⟨String.lt_trans hlt, fun hi => String.lt_trans hi hlt⟩

theorem Sorted.eq_of_name_eq (h : t.Sorted) {p q : Part α} (hp : p ∈ t.toList) (hq : q ∈ t.toList)
    (hn : p.name = q.name) : p = q := by
  obtain ⟨i, hi, rfl⟩ := List.mem_iff_getElem.1 hp
  obtain ⟨j, hj, rfl⟩ := List.mem_iff_getElem.1 hq
  rcases Nat.lt_trichotomy i j with hij | rfl | hij
  · exact absurd (hn ▸ h.lt hi hj hij) (String.lt_irrefl _)
  · rfl
  · exact absurd (hn ▸ h.lt hj hi hij) (String.lt_irrefl _)

theorem place_found {i : Nat} (h : t.place name = .found i) :
    ∃ p, t.parts[i]? = some p ∧ p.name = name := by
  obtain ⟨p, hp, hc⟩ := bisect_found h
  exact ⟨p, hp, Std.LawfulEqOrd.eq_of_compare hc⟩

theorem find?_mem {p : Part α} (h : t.find? name = some p) : p ∈ t.toList ∧ p.name = name := by
  unfold find? at h
  split at h
  · rename_i hi
    obtain ⟨q, hq, hn⟩ := place_found hi
    rw [hq] at h
    cases h
    exact ⟨mem_of_getElem? hq, hn⟩
  · cases h

theorem find?_eq_none_iff_place : t.find? name = none ↔ ∃ i, t.place name = .gap i := by
  unfold find?
  cases hp : t.place name with
  | gap i => simp
  | found i =>
    obtain ⟨p, hi, -⟩ := place_found hp
    simp [hi]

theorem Sorted.not_mem_of_place (h : t.Sorted) {i : Nat} (hp : t.place name = .gap i) {p : Part α}
    (hm : p ∈ t.toList) : p.name ≠ name := by
  obtain ⟨-, hg⟩ := bisect_gap (h.ascends name) hp
  obtain ⟨j, hj, rfl⟩ := List.mem_iff_getElem.1 hm
  have hj' : j < t.parts.size := hj
  intro hn
  have he : compare t.parts[j].name name = .eq := by
    rw [show t.parts[j].name = name from hn]
    exact Std.ReflOrd.compare_self
  rcases Nat.lt_or_ge j i with hji | hij
  · rw [(hg j hj').1 hji] at he; cases he
  · rw [(hg j hj').2 hij] at he; cases he

/-- In a sorted table each part is found under its name. -/
theorem find?_eq_some_iff (h : t.Sorted) {p : Part α} :
    t.find? name = some p ↔ p ∈ t.toList ∧ p.name = name := by
  refine ⟨find?_mem, fun ⟨hm, hn⟩ => ?_⟩
  cases hf : t.find? name with
  | none =>
    obtain ⟨i, hi⟩ := find?_eq_none_iff_place.1 hf
    exact absurd hn (h.not_mem_of_place hi hm)
  | some q =>
    obtain ⟨hq, hqn⟩ := find?_mem hf
    rw [h.eq_of_name_eq hq hm (hqn.trans hn.symm)]

theorem find?_eq_none_iff (h : t.Sorted) :
    t.find? name = none ↔ ∀ item ∈ t.contents, item.1 ≠ name := by
  rw [contents, List.forall_mem_map]
  refine ⟨fun hf p hp => ?_, fun hn => ?_⟩
  · obtain ⟨i, hi⟩ := find?_eq_none_iff_place.1 hf
    exact h.not_mem_of_place hi hp
  · cases hf : t.find? name with
    | none => rfl
    | some p => exact absurd (find?_mem hf).2 (hn p (find?_mem hf).1)

theorem find?_empty (name : String) : (empty : PartTable α).find? name = none :=
  (find?_eq_none_iff sorted_empty).2 nofun

end Find

/-! ## Abbreviations do not matter -/

theorem content_refreshAt (parts : Array (Part α)) (i : Nat) :
    (refreshAt parts i).toList.map Part.content = parts.toList.map Part.content := by
  unfold refreshAt
  split
  · rfl
  · rename_i p hp
    rw [← Array.getElem?_toList] at hp
    rw [Array.toList_setIfInBounds, List.map_set]
    obtain ⟨hi, rfl⟩ := List.getElem?_eq_some_iff.1 hp
    have hi' : i < (parts.toList.map Part.content).length := by rwa [List.length_map]
    have hc := List.set_getElem_self hi'
    rwa [List.getElem_map] at hc

theorem content_refreshAround (parts : Array (Part α)) (i : Nat) :
    (refreshAround parts i).toList.map Part.content = parts.toList.map Part.content := by
  rw [refreshAround, content_refreshAt, content_refreshAt, content_refreshAt]

theorem mem_contents {t : PartTable α} {x : String × Option String × α} :
    x ∈ t.contents ↔ ∃ p ∈ t.toList, p.content = x :=
  List.mem_map

/-! ## Insertions -/

/-- A list stays in order when an entry is inserted between the lesser and the greater
ones. -/
theorem pairwise_insertIdx {β : Type} {R : β → β → Prop} {l : List β} {x : β} {i : Nat}
    (hl : l.Pairwise R) (hb : ∀ y ∈ l.take i, R y x) (ha : ∀ y ∈ l.drop i, R x y) :
    (l.insertIdx i x).Pairwise R := by
  induction l generalizing i with
  | nil => cases i <;> simp
  | cons y l ih =>
    rw [List.pairwise_cons] at hl
    cases i with
    | zero =>
      rw [List.insertIdx_zero, List.pairwise_cons]
      exact ⟨ha, List.pairwise_cons.2 hl⟩
    | succ i =>
      rw [List.insertIdx_succ_cons, List.pairwise_cons]
      refine ⟨fun z hz => ?_, ih hl.2 (fun z hz => hb z (List.mem_cons_of_mem _ hz)) ha⟩
      rcases List.eq_or_mem_of_mem_insertIdx hz with rfl | hz
      · exact hb y (List.mem_cons_self ..)
      · exact hl.1 z hz

section Insert

variable {t t' : PartTable α} {name : String} {usage : Option String} {handler : α}

theorem insert?_eq_some (h : t.Sorted) (hi : t.insert? name usage handler = some t') :
    ∃ i, t.place name = .gap i ∧ t'.contents = t.contents.insertIdx i (name, usage, handler) := by
  unfold insert? at hi
  split at hi
  · cases hi
  · rename_i i hp
    cases hi
    refine ⟨i, hp, ?_⟩
    have hle : i ≤ t.parts.size := (bisect_gap (h.ascends name) hp).1
    show (refreshAround _ i).toList.map Part.content = _
    rw [content_refreshAround, Array.insertIdxIfInBounds, dif_pos hle, Array.toList_insertIdx,
      List.map_insertIdx]
    rfl

/-- An insertion is refused only where there is a part of the name. -/
theorem insert?_eq_none_iff :
    t.insert? name usage handler = none ↔ (t.find? name).isSome = true := by
  unfold insert? find?
  cases hp : t.place name with
  | gap i => simp
  | found i =>
    obtain ⟨p, hi, -⟩ := place_found hp
    simp [hi]

theorem absent_of_insert? (hi : t.insert? name usage handler = some t') : t.find? name = none := by
  by_contra hne
  have hnone : t.insert? name usage handler = none :=
    insert?_eq_none_iff.2 (Option.isSome_iff_ne_none.2 hne)
  rw [hi] at hnone
  cases hnone

theorem mem_insert? (h : t.Sorted) (hi : t.insert? name usage handler = some t')
    (x : String × Option String × α) :
    x ∈ t'.contents ↔ x = (name, usage, handler) ∨ x ∈ t.contents := by
  obtain ⟨i, hp, hc⟩ := insert?_eq_some h hi
  have hle : i ≤ t.contents.length := by
    rw [contents, List.length_map]
    exact (bisect_gap (h.ascends name) hp).1
  rw [hc, List.mem_insertIdx hle]

theorem Sorted.insert? (h : t.Sorted) (hi : t.insert? name usage handler = some t') :
    t'.Sorted := by
  obtain ⟨i, hp, hc⟩ := insert?_eq_some h hi
  obtain ⟨-, hg⟩ := bisect_gap (h.ascends name) hp
  rw [Sorted, hc]
  refine pairwise_insertIdx h (fun y hy => ?_) (fun y hy => ?_)
  · obtain ⟨j, hj, rfl⟩ := List.mem_iff_getElem.1 hy
    rw [List.length_take, contents, List.length_map] at hj
    have hlt := (hg j (by simp only [toList, Array.length_toList] at hj; omega)).1 (by omega)
    simpa [contents, Part.content, toList, compare_eq_lt_iff] using hlt
  · obtain ⟨j, hj, rfl⟩ := List.mem_iff_getElem.1 hy
    rw [List.length_drop, contents, List.length_map] at hj
    have hlt := (hg (i + j) (by simp only [toList, Array.length_toList] at hj; omega)).2 (by omega)
    simpa [contents, Part.content, toList, compare_eq_gt_iff] using hlt

end Insert

/-! ## Removals -/

/-- In a sorted list an entry is the only one with its key. -/
theorem eraseIdx_eq_filter {β : Type} {key : β → String} {l : List β} {i : Nat}
    (hl : l.Pairwise fun x y => key x < key y) (hi : i < l.length) :
    l.eraseIdx i = l.filter (key · ≠ key l[i]) := by
  induction l generalizing i with
  | nil => cases hi
  | cons x l ih =>
    rw [List.pairwise_cons] at hl
    cases i with
    | zero =>
      have hk : l.filter (key · ≠ key x) = l :=
        List.filter_eq_self.2 fun y hy => decide_eq_true (String.ne_of_lt (hl.1 y hy)).symm
      rw [List.eraseIdx_zero, List.tail_cons, List.filter_cons_of_neg (by simp)]
      exact hk.symm
    | succ i =>
      have hi : i < l.length := Nat.lt_of_succ_lt_succ hi
      have hx : key x ≠ key l[i] := String.ne_of_lt (hl.1 _ (List.getElem_mem hi))
      simp [ih hl.2 hi, hx]

theorem contents_eraseAt (t : PartTable α) (i : Nat) :
    (t.eraseAt i).contents = t.contents.eraseIdx i := by
  show (refreshAround _ i).toList.map Part.content = _
  rw [content_refreshAround, Array.toList_eraseIdxIfInBounds, ← List.eraseIdx_map]
  rfl

theorem Sorted.eraseAt {t : PartTable α} (h : t.Sorted) (i : Nat) : (t.eraseAt i).Sorted := by
  rw [Sorted, contents_eraseAt]
  exact h.sublist (List.eraseIdx_sublist ..)

/-- In a sorted table a removal takes away the part of the name, and nothing else. -/
theorem erase_contents {t : PartTable α} (h : t.Sorted) (name : String) :
    (t.erase name).contents = t.contents.filter (·.1 ≠ name) := by
  unfold erase
  cases hp : t.place name with
  | gap i =>
    refine (List.filter_eq_self.2 fun x hx => ?_).symm
    obtain ⟨p, hm, rfl⟩ := mem_contents.1 hx
    exact decide_eq_true (h.not_mem_of_place hp hm)
  | found i =>
    obtain ⟨p, hi, hn⟩ := place_found hp
    obtain ⟨hlt, rfl⟩ := Array.getElem?_eq_some_iff.1 hi
    show (t.eraseAt i).contents = _
    rw [contents_eraseAt]
    have hlt' : i < t.contents.length := by rwa [contents, List.length_map]
    have he := eraseIdx_eq_filter h hlt'
    rwa [show t.contents[i].1 = t.parts[i].name by simp [contents, toList, Part.content], hn] at he

theorem Sorted.erase {t : PartTable α} (h : t.Sorted) (name : String) : (t.erase name).Sorted := by
  rw [Sorted, erase_contents h]
  exact h.filter _

/-! ## Abbreviations -/

/-- What an abbreviation selects is a part of the table. -/
theorem mem_of_resolve {t : PartTable α} {text : String} {p : Part α}
    (h : t.resolve text = .found p) : p ∈ t.toList := by
  unfold resolve at h
  split at h
  · cases h
  split at h
  · cases h
  unfold resolveAt at h
  split at h
  · cases h
  · rename_i q hq
    split at h
    · cases h; exact mem_of_getElem? hq
    split at h
    · cases h
    · rename_i r hr
      split at h
      · cases h; exact mem_of_getElem? hr
      · cases h

end PartTable

end Ensembles
