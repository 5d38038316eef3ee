import Ensembles.Bisection

/-!
# Halving finds what is there

Where a probe ascends along an array (`Ascends`), `bisect` comes to a gap only if no entry
is one that the probe accepts: `bisect_gap` says that all entries before the gap lie before
what is sought, and all others after it.
-/

namespace Ensembles

variable {α : Type}

/-- Along the array, what is sought lies first after, then at and then before the
entries. -/
def Ascends (probe : α → Ordering) (xs : Array α) : Prop :=
  ∀ i j (hi : i < xs.size) (hj : j < xs.size), i < j →
    (probe xs[j] = .lt → probe xs[i] = .lt) ∧ (probe xs[i] = .gt → probe xs[j] = .gt)

theorem bisectBetween_gap {probe : α → Ordering} {xs : Array α} {lo hi i : Nat}
    {h : hi ≤ xs.size} (ha : Ascends probe xs) (hle : lo ≤ hi)
    (hlo : ∀ j (hj : j < xs.size), j < lo → probe xs[j] = .lt)
    (hhi : ∀ j (hj : j < xs.size), hi ≤ j → probe xs[j] = .gt)
    (hg : bisectBetween probe xs lo hi h = .gap i) :
    i ≤ xs.size ∧ ∀ j (hj : j < xs.size),
      (j < i → probe xs[j] = .lt) ∧ (i ≤ j → probe xs[j] = .gt) := by
  fun_induction bisectBetween probe xs lo hi h with
  | case1 lo hi h hlt hp ih =>
    refine ih (by omega) (fun j hj hm => ?_) hhi hg
    by_cases he : j = (lo + hi) / 2
    · subst he; exact hp
    · exact (ha j ((lo + hi) / 2) hj (by omega) (by omega)).1 hp
  | case2 => cases hg
  | case3 lo hi h hlt hp ih =>
    refine ih (by omega) hlo (fun j hj hm => ?_) hg
    by_cases he : j = (lo + hi) / 2
    · subst he; exact hp
    · exact (ha ((lo + hi) / 2) j (by omega) hj (by omega)).2 hp
  | case4 lo hi h hlt =>
    cases hg
    exact ⟨by omega, fun j hj => ⟨hlo j hj, fun hm => hhi j hj (by omega)⟩⟩

/-- A gap parts the entries before what is sought from those after it. -/
theorem bisect_gap {probe : α → Ordering} {xs : Array α} {i : Nat} (ha : Ascends probe xs)
    (hg : bisect probe xs = .gap i) :
    i ≤ xs.size ∧ ∀ j (hj : j < xs.size),
      (j < i → probe xs[j] = .lt) ∧ (i ≤ j → probe xs[j] = .gt) :=
  bisectBetween_gap ha (Nat.zero_le _) (fun j _ hj => absurd hj (Nat.not_lt_zero j))
    (fun _ hj hm => absurd hj (Nat.not_lt.2 hm)) hg

end Ensembles
