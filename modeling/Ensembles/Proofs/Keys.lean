import Mathlib.Data.List.Pairwise

/-!
# Lists with keys

A list stands for a finite map where the keys of its entries differ, be they a part of the entries
or the first of two values. Then what is found under a key is all that has it.
-/

namespace Ensembles

section Entries

variable {β κ : Type} [DecidableEq κ] {key : β → κ} {l : List β} {k : κ} {x y : β}

/-- In a list whose keys differ an entry is found under its key. -/
theorem find?_key_eq_some_iff (hl : l.Pairwise fun x y => key x ≠ key y) :
    l.find? (key · = k) = some x ↔ x ∈ l ∧ key x = k := by
  induction l with
  | nil => simp
  | cons y l ih =>
    rw [List.pairwise_cons] at hl
    by_cases hy : key y = k
    · rw [List.find?_cons_of_pos (by simpa using hy)]
      refine ⟨?_, fun ⟨hx, hk⟩ => ?_⟩
      · rintro ⟨⟩
        exact ⟨List.mem_cons_self .., hy⟩
      · rcases List.mem_cons.1 hx with rfl | hx
        · rfl
        · exact absurd (hy.trans hk.symm) (hl.1 x hx)
    · rw [List.find?_cons_of_neg (by simpa using hy), ih hl.2, List.mem_cons]
      refine ⟨fun ⟨hx, hk⟩ => ⟨.inr hx, hk⟩, fun ⟨hx, hk⟩ => ⟨?_, hk⟩⟩
      rcases hx with rfl | hx
      · exact absurd hk hy
      · exact hx

/-- Two entries of such a list with the same key are one. -/
theorem eq_of_key_eq (hl : l.Pairwise fun x y => key x ≠ key y) (hx : x ∈ l) (hy : y ∈ l)
    (hk : key x = key y) : x = y :=
  Option.some.inj
    (((find?_key_eq_some_iff hl).2 ⟨hx, rfl⟩).symm.trans
      ((find?_key_eq_some_iff hl).2 ⟨hy, hk.symm⟩))

end Entries

section Pairs

variable {κ β : Type} [DecidableEq κ] {l : List (κ × β)} {k : κ} {v : β}

/-- In a list whose keys differ a value is found under its key. -/
theorem lookup_eq_some_iff_mem (hl : l.Pairwise fun x y => x.1 ≠ y.1) :
    l.lookup k = some v ↔ (k, v) ∈ l := by
  rw [List.lookup_eq_some_iff]
  constructor
  · rintro ⟨before, after, hc, -⟩
    rw [hc]
    exact List.mem_append_right _ (List.mem_cons_self ..)
  · intro hm
    obtain ⟨before, after, hc⟩ := List.append_of_mem hm
    refine ⟨before, after, hc, fun x hx => ?_⟩
    rw [hc, List.pairwise_append] at hl
    exact bne_iff_ne.2 (hl.2.2 x hx _ (List.mem_cons_self ..)).symm

/-- After a value is set the keys still differ. -/
theorem pairwise_set (hl : l.Pairwise fun x y => x.1 ≠ y.1) (k : κ) (v : β) :
    ((k, v) :: l.filter (·.1 ≠ k)).Pairwise fun x y => x.1 ≠ y.1 :=
  List.pairwise_cons.2
    ⟨fun _ hx => (of_decide_eq_true (List.mem_filter.1 hx).2 : _ ≠ k).symm, hl.filter _⟩

end Pairs

end Ensembles
