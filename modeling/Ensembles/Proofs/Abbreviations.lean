import Ensembles.Proofs.TextOrder
import Ensembles.Proofs.SortedParts
import Mathlib.Data.Nat.Basic
import Mathlib.Order.MinMax

/-!
# Abbreviations

A change of a table refreshes the abbreviations of at most three parts. `freshAt_insert` and
`freshAt_erase` say that this is enough: afterwards every part has the abbreviation that the
names next to it ask for. So it is after any changes of the empty table (`wf_ofChanges`). In a
sorted table no name shares more with a part than one next to it (`Sorted.exists_next`), and
therefore the abbreviation tells a part from all others (`Wf.minChars_le_iff`,
`Wf.minChars_eq`). `PartTable.abbreviations_ofChanges` says all this of the names and
abbreviations after any changes.
-/

namespace Ensembles

variable {α : Type}

/-- A change of a table of parts. One that is refused leaves the table as it is. -/
inductive TableChange (α : Type) where
  | insert (name : String) (usage : Option String) (handler : α)
  | erase (name : String)
  | eraseFirst

namespace PartTable

/-- The table after a change. -/
def changed (t : PartTable α) : TableChange α → PartTable α
  | .insert name usage handler => (t.insert? name usage handler).getD t
  | .erase name => t.erase name
  | .eraseFirst => t.eraseFirst

/-- The table that the changes make of the empty one. -/
def ofChanges (changes : List (TableChange α)) : PartTable α := changes.foldl changed empty

/-! ## Refreshing -/

section Refresh

variable {parts parts' : Array (Part α)} {i j : Nat}

/-- The part at `i`, if there is one, has the abbreviation that the names next to it ask
for. -/
def FreshAt (parts : Array (Part α)) (i : Nat) : Prop :=
  ∀ p, parts[i]? = some p → p.minChars = charsNeeded p.name (namesNextTo parts i)

theorem namesNextTo_zero (parts : Array (Part α)) :
    namesNextTo parts 0 = (parts[1]?.map Part.name).toList := by
  cases h : parts[1]? <;> simp [namesNextTo, h]

theorem namesNextTo_succ (parts : Array (Part α)) (i : Nat) :
    namesNextTo parts (i + 1) =
      (parts[i]?.map Part.name).toList ++ (parts[i + 2]?.map Part.name).toList := by
  cases h : parts[i]? <;> cases h' : parts[i + 2]? <;> simp [namesNextTo, h, h']

theorem getElem?_refreshAt (parts : Array (Part α)) (i j : Nat) :
    (refreshAt parts i)[j]? =
      if i = j then
        parts[j]?.map fun p => { p with minChars := charsNeeded p.name (namesNextTo parts j) }
      else parts[j]? := by
  unfold refreshAt
  split
  · rename_i h
    split
    · rename_i hij
      rw [← hij, h]
      rfl
    · rfl
  · rename_i p h
    rw [Array.getElem?_setIfInBounds, if_pos (Array.getElem?_eq_some_iff.1 h).1]
    split
    · rename_i hij
      rw [← hij, h]
      rfl
    · rfl

theorem map_name_refreshAt (parts : Array (Part α)) (i j : Nat) :
    (refreshAt parts i)[j]?.map Part.name = parts[j]?.map Part.name := by
  rw [getElem?_refreshAt]
  split
  · cases parts[j]? <;> rfl
  · rfl

theorem namesNextTo_refreshAt (parts : Array (Part α)) (i j : Nat) :
    namesNextTo (refreshAt parts i) j = namesNextTo parts j := by
  cases j with
  | zero => rw [namesNextTo_zero, namesNextTo_zero, map_name_refreshAt]
  | succ j => rw [namesNextTo_succ, namesNextTo_succ, map_name_refreshAt, map_name_refreshAt]

theorem freshAt_refreshAt (h : i = j ∨ FreshAt parts j) : FreshAt (refreshAt parts i) j := by
  intro p hp
  rw [namesNextTo_refreshAt]
  rw [getElem?_refreshAt] at hp
  split at hp
  · obtain ⟨q, -, rfl⟩ := Option.map_eq_some_iff.1 hp
    rfl
  · rename_i hij
    exact h.resolve_left hij p hp

/-- A change at `i` is made good by refreshing there, if it concerns no abbreviation further
than one place off. -/
theorem freshAt_refreshAround
    (h : ∀ j, j + 1 < i ∨ i + 1 < j → FreshAt parts j) (j : Nat) :
    FreshAt (refreshAround parts i) j := by
  by_cases h₃ : i + 1 = j
  · exact freshAt_refreshAt (.inl h₃)
  by_cases h₂ : i = j
  · exact freshAt_refreshAt (.inr (freshAt_refreshAt (.inl h₂)))
  refine freshAt_refreshAt (.inr (freshAt_refreshAt (.inr (freshAt_refreshAt ?_))))
  by_cases h₁ : i - 1 = j
  · exact .inl h₁
  · exact .inr (h j (by omega))

/-- Whether the part at a place is fresh depends on it and the names next to it. -/
theorem freshAt_congr (h : FreshAt parts j) (hp : parts'[i]? = parts[j]?)
    (hn : namesNextTo parts' i = namesNextTo parts j) : FreshAt parts' i := by
  intro p hi
  rw [hn]
  exact h p (hp ▸ hi)

/-- Places that keep their neighbours keep their abbreviations: those before `i`, and those
that move along with all after `i`. -/
theorem freshAt_of_shift {a b : Nat} (h : ∀ j, FreshAt parts j)
    (hbefore : ∀ k, k < i → parts'[k]? = parts[k]?)
    (hafter : ∀ k, i ≤ k → parts'[k + a]? = parts[k + b]?) (hj : j + 1 < i ∨ i + a < j) :
    FreshAt parts' j := by
  rcases hj with hj | hj
  · refine freshAt_congr (h j) (hbefore j (by omega)) ?_
    cases j with
    | zero => rw [namesNextTo_zero, namesNextTo_zero, hbefore 1 hj]
    | succ j =>
      rw [namesNextTo_succ, namesNextTo_succ, hbefore j (by omega), hbefore (j + 2) (by omega)]
  · obtain ⟨k, rfl⟩ : ∃ k, j = k + a + 1 := ⟨j - a - 1, by omega⟩
    have hshift (m : Nat) : parts'[k + a + m]? = parts[k + b + m]? := by
      have := hafter (k + m) (by omega)
      rwa [Nat.add_right_comm, Nat.add_right_comm k m b] at this
    refine freshAt_congr (h (k + b + 1)) (hshift 1) ?_
    rw [namesNextTo_succ, namesNextTo_succ, hshift 2, show parts'[k + a]? = _ from hshift 0]
    rfl

theorem freshAt_insert (h : ∀ j, FreshAt parts j) (p : Part α) (hi : i ≤ parts.size) (j : Nat) :
    FreshAt (refreshAround (parts.insertIdxIfInBounds i p) i) j := by
  rw [Array.insertIdxIfInBounds, dif_pos hi]
  refine freshAt_refreshAround (fun j hj => ?_) j
  refine freshAt_of_shift (a := 1) (b := 0) h (fun k hk => ?_) (fun k hk => ?_) hj
  · rw [Array.getElem?_insertIdx, if_pos hk]
  · rw [Array.getElem?_insertIdx, if_neg (by omega), if_neg (by omega), Nat.add_sub_cancel,
      Nat.add_zero]

theorem freshAt_erase (h : ∀ j, FreshAt parts j) (i j : Nat) :
    FreshAt (refreshAround (parts.eraseIdxIfInBounds i) i) j := by
  have hget (k : Nat) : (parts.eraseIdxIfInBounds i)[k]? =
      if k < i then parts[k]? else parts[k + 1]? := by
    rw [← Array.getElem?_toList, Array.toList_eraseIdxIfInBounds, List.getElem?_eraseIdx,
      Array.getElem?_toList, Array.getElem?_toList]
  refine freshAt_refreshAround (fun j hj => ?_) j
  refine freshAt_of_shift (i := i) (a := 0) (b := 1) h (fun k hk => ?_) (fun k hk => ?_) (by omega)
  · rw [hget, if_pos hk]
  · rw [Nat.add_zero, hget, if_neg (by omega)]

end Refresh

/-! ## Well-formed tables -/

/-- The names ascend, and each part has the abbreviation that the names next to it ask for. -/
structure Wf (t : PartTable α) : Prop where
  sorted : t.Sorted
  fresh : ∀ i, FreshAt t.parts i

variable {t t' : PartTable α} {name : String} {usage : Option String} {handler : α}

theorem wf_empty : (empty : PartTable α).Wf := ⟨sorted_empty, fun _ _ => nofun⟩

theorem Wf.insert? (hw : t.Wf) (hi : t.insert? name usage handler = some t') : t'.Wf := by
  refine ⟨hw.sorted.insert? hi, ?_⟩
  unfold PartTable.insert? at hi
  split at hi
  · cases hi
  · rename_i i hp
    cases hi
    exact freshAt_insert hw.fresh _ (bisect_gap (hw.sorted.ascends name) hp).1

theorem Wf.eraseAt (hw : t.Wf) (i : Nat) : (t.eraseAt i).Wf :=
  ⟨hw.sorted.eraseAt i, freshAt_erase hw.fresh i⟩

theorem Wf.erase (hw : t.Wf) (name : String) : (t.erase name).Wf := by
  unfold PartTable.erase
  split
  · exact hw.eraseAt _
  · exact hw

theorem Wf.changed (hw : t.Wf) (change : TableChange α) : (t.changed change).Wf := by
  cases change with
  | insert name usage handler =>
    show ((t.insert? name usage handler).getD t).Wf
    cases hi : t.insert? name usage handler with
    | none => exact hw
    | some t' => exact hw.insert? hi
  | erase name => exact hw.erase name
  | eraseFirst => exact hw.eraseAt 0

theorem wf_ofChanges (changes : List (TableChange α)) : (ofChanges changes).Wf := by
  have hfold (t : PartTable α) (hw : t.Wf) : (changes.foldl PartTable.changed t).Wf := by
    induction changes generalizing t with
    | nil => exact hw
    | cons change changes ih => exact ih _ (hw.changed change)
  exact hfold empty wf_empty

/-! ## Abbreviations among all parts -/

/-- The length of the longest start that the name shares with another one of the names. -/
def longestShared (name : String) (names : List String) : Nat :=
  ((names.filter (· ≠ name)).map fun other =>
    sharedLength name.toList other.toList).foldr max 0

theorem foldr_max_le_iff {l : List Nat} {n : Nat} : l.foldr max 0 ≤ n ↔ ∀ m ∈ l, m ≤ n := by
  induction l with
  | nil => simp
  | cons m l ih => rw [List.foldr_cons, Nat.max_le, ih, List.forall_mem_cons]

theorem longestShared_le_iff {names : List String} {n : Nat} :
    longestShared name names ≤ n ↔
      ∀ other ∈ names, other ≠ name → sharedLength name.toList other.toList ≤ n := by
  rw [longestShared, foldr_max_le_iff, List.forall_mem_map]
  simp only [List.mem_filter, decide_eq_true_iff, and_imp]

theorem charsNeeded_le_iff {next : List String} {n : Nat} :
    charsNeeded name next ≤ n ↔
      name.length ≤ n ∨ 1 ≤ n ∧ ∀ other ∈ next, sharedLength name.toList other.toList < n := by
  have hfold (m : Nat) : next.foldl
      (fun n other => max n (sharedLength name.toList other.toList + 1)) m ≤ n ↔
        m ≤ n ∧ ∀ other ∈ next, sharedLength name.toList other.toList < n := by
    induction next generalizing m with
    | nil => simp
    | cons other next ih =>
      rw [List.foldl_cons, ih, Nat.max_le, List.forall_mem_cons, and_assoc]
      rfl
  rw [charsNeeded, min_le_iff, hfold]

theorem mem_namesNextTo {parts : Array (Part α)} {i : Nat} {other : String} :
    other ∈ namesNextTo parts i ↔
      ∃ j q, (j + 1 = i ∨ j = i + 1) ∧ parts[j]? = some q ∧ q.name = other := by
  cases i with
  | zero =>
    rw [namesNextTo_zero, Option.mem_toList, Option.map_eq_some_iff]
    constructor
    · rintro ⟨q, hq, hn⟩
      exact ⟨1, q, .inr rfl, hq, hn⟩
    · rintro ⟨j, q, hj, hq, hn⟩
      obtain rfl : j = 1 := by omega
      exact ⟨q, hq, hn⟩
  | succ i =>
    rw [namesNextTo_succ, List.mem_append, Option.mem_toList, Option.mem_toList,
      Option.map_eq_some_iff, Option.map_eq_some_iff]
    constructor
    · rintro (⟨q, hq, hn⟩ | ⟨q, hq, hn⟩)
      · exact ⟨i, q, .inl rfl, hq, hn⟩
      · exact ⟨i + 2, q, .inr rfl, hq, hn⟩
    · rintro ⟨j, q, hj, hq, hn⟩
      obtain rfl | rfl : j = i ∨ j = i + 2 := by omega
      · exact .inl ⟨q, hq, hn⟩
      · exact .inr ⟨q, hq, hn⟩

/-- None shares more with a part than one next to it. -/
theorem Sorted.exists_next (h : t.Sorted) {i j : Nat} (hi : i < t.parts.size)
    (hj : j < t.parts.size) (hij : i ≠ j) :
    ∃ k, ∃ hk : k < t.parts.size, (k + 1 = i ∨ k = i + 1) ∧
      sharedLength t.parts[i].name.toList t.parts[j].name.toList ≤
        sharedLength t.parts[i].name.toList t.parts[k].name.toList := by
  have hlt {a b : Nat} (ha : a < t.parts.size) (hb : b < t.parts.size) (hab : a < b) :
      t.parts[a].name.toList < t.parts[b].name.toList :=
    String.lt_iff.1 (h.lt ha hb hab)
  rcases Nat.lt_or_gt_of_ne hij with hij | hij
  · refine ⟨i + 1, by omega, .inr rfl, ?_⟩
    rcases Nat.lt_or_eq_of_le (show i + 1 ≤ j from hij) with hk | rfl
    · rw [sharedLength_of_lt_of_lt (hlt hi (by omega) (Nat.lt_succ_self i)) (hlt _ hj hk)]
      exact Nat.min_le_left ..
    · exact Nat.le_refl _
  · refine ⟨i - 1, by omega, .inl (by omega), ?_⟩
    rcases Nat.lt_or_eq_of_le (show j ≤ i - 1 by omega) with hk | rfl
    · rw [sharedLength_comm, sharedLength_of_lt_of_lt (hlt hj (by omega) hk) (hlt _ hi (by omega)),
        sharedLength_comm t.parts[i].name.toList]
      exact Nat.min_le_right ..
    · exact Nat.le_refl _

/-- The abbreviation of a part suffices to tell it from all others. -/
theorem Wf.minChars_le_iff (hw : t.Wf) {p : Part α} (hp : p ∈ t.toList) {n : Nat} :
    p.minChars ≤ n ↔ p.name.length ≤ n ∨ 1 ≤ n ∧
      ∀ q ∈ t.toList, q.name ≠ p.name → sharedLength p.name.toList q.name.toList < n := by
  obtain ⟨i, hi, rfl⟩ := mem_toList_iff.1 hp
  rw [hw.fresh i _ (Array.getElem?_eq_getElem hi), charsNeeded_le_iff]
  refine or_congr_right (and_congr_right fun _ => ⟨fun h q hq hn => ?_, fun h other ho => ?_⟩)
  · obtain ⟨j, hj, rfl⟩ := mem_toList_iff.1 hq
    have hij : i ≠ j := fun hij => hn (by subst hij; rfl)
    obtain ⟨k, hk, hki, hle⟩ := hw.sorted.exists_next hi hj hij
    refine Nat.lt_of_le_of_lt hle (h _ (mem_namesNextTo.2 ⟨k, _, hki, ?_, rfl⟩))
    exact Array.getElem?_eq_getElem hk
  · obtain ⟨k, q, hki, hk, rfl⟩ := mem_namesNextTo.1 ho
    have hq := mem_of_getElem? hk
    obtain ⟨hk', rfl⟩ := Array.getElem?_eq_some_iff.1 hk
    refine h _ hq fun hn => ?_
    rcases hki with rfl | rfl
    · exact absurd (hn ▸ hw.sorted.lt hk' hi (Nat.lt_succ_self k)) (String.lt_irrefl _)
    · exact absurd (hn ▸ hw.sorted.lt hi hk' (Nat.lt_succ_self i)) (String.lt_irrefl _)

/-- The abbreviation of a part has the characters of its name up to the first that tells it
from all others. -/
theorem Wf.minChars_eq (hw : t.Wf) {p : Part α} (hp : p ∈ t.toList) :
    p.minChars = min p.name.length (max 1 (1 + longestShared p.name (t.toList.map Part.name))) := by
  refine eq_of_forall_ge_iff fun n => ?_
  rw [hw.minChars_le_iff hp, min_le_iff, Nat.max_le, Nat.add_comm]
  refine or_congr_right (and_congr_right fun hn => ?_)
  obtain ⟨m, rfl⟩ := Nat.exists_eq_succ_of_ne_zero (Nat.pos_iff_ne_zero.1 hn)
  rw [Nat.succ_eq_add_one, Nat.add_le_add_iff_right, longestShared_le_iff, List.forall_mem_map]
  simp only [Nat.lt_succ_iff]

/-- After any changes the names ascend in the order of their UTF-8 bytes, and each part is
selected by the characters of its name up to the first that tells it from all others. -/
theorem abbreviations_ofChanges (changes : List (TableChange α)) :
    (ofChanges changes).toList.Pairwise
        (fun p q => p.name.toUTF8.data.toList < q.name.toUTF8.data.toList) ∧
      ((ofChanges changes).toList.map Part.name).Nodup ∧
      ∀ p ∈ (ofChanges changes).toList, p.minChars = min p.name.length
        (max 1 (1 + longestShared p.name ((ofChanges changes).toList.map Part.name))) := by
  have hw := wf_ofChanges changes
  have hlt := hw.sorted.pairwise_name
  refine ⟨hlt.imp (lt_iff_bytes_lt _ _).1, ?_, fun p hp => hw.minChars_eq hp⟩
  exact List.pairwise_map.2 (hlt.imp String.ne_of_lt)

example : (ofChanges (α := Unit) [.insert "sum" none (), .insert "sub" none (),
    .insert "sum" none (), .insert "add" none (), .eraseFirst]).toList.map
      (fun p => (p.name, p.minChars)) = [("sub", 3), ("sum", 3)] := by
  decide +kernel

end PartTable

end Ensembles
