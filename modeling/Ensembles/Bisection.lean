/-!
# Search by halving

`bisect` searches a sorted array for an entry that a probe accepts. The probe says of
an entry whether it lies before (`lt`), at (`eq`) or after (`gt`) what is sought.
`bisect_found` says that an entry found is one the probe accepts.
-/

namespace Ensembles

/-- Where a search ends. -/
inductive Landing where
  /-- At an entry that the probe accepts. -/
  | found (i : Nat)
  /-- Between entries, where one that the probe accepts would stand. -/
  | gap (i : Nat)
deriving DecidableEq, Repr

/-- The search among the entries from `lo` on and before `hi`. -/
def bisectBetween {α : Type} (probe : α → Ordering) (xs : Array α) (lo hi : Nat)
    (h : hi ≤ xs.size) : Landing :=
  if hlt : lo < hi then
    match probe (xs[(lo + hi) / 2]) with
    | .lt => bisectBetween probe xs ((lo + hi) / 2 + 1) hi h
    | .eq => .found ((lo + hi) / 2)
    | .gt => bisectBetween probe xs lo ((lo + hi) / 2) (by omega)
  else .gap lo
termination_by hi - lo

/-- The search among all entries. -/
def bisect {α : Type} (probe : α → Ordering) (xs : Array α) : Landing :=
  bisectBetween probe xs 0 xs.size (Nat.le_refl _)

theorem bisectBetween_found {α : Type} {probe : α → Ordering} {xs : Array α} {lo hi i : Nat}
    {h : hi ≤ xs.size} (hf : bisectBetween probe xs lo hi h = .found i) :
    ∃ x, xs[i]? = some x ∧ probe x = .eq := by
  fun_induction bisectBetween probe xs lo hi h with
  | case1 _ _ _ _ _ ih | case3 _ _ _ _ _ ih => exact ih hf
  | case2 lo hi h hlt hp =>
    cases hf
    exact ⟨_, Array.getElem?_eq_getElem _, hp⟩
  | case4 => simp at hf

theorem bisect_found {α : Type} {probe : α → Ordering} {xs : Array α} {i : Nat}
    (hf : bisect probe xs = .found i) : ∃ x, xs[i]? = some x ∧ probe x = .eq :=
  bisectBetween_found hf

end Ensembles
