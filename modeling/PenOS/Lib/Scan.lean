import Mathlib.Order.Interval.Finset.Nat

/-!
# First index of a range

`firstIn p lo hi` is the loop `for (i = lo; i < hi; ++i) if (p(i)) return i;`: a hit is the
least index of the range satisfying `p`, a miss means that there is none.
-/

namespace PenOS

variable {hi i k lo n : ℕ} {p : ℕ → Bool}

/-- The scan with `n` indices left, standing at `i`. -/
def firstFrom (p : ℕ → Bool) : ℕ → ℕ → Option ℕ
  | 0, _ => none
  | n + 1, i => if p i then some i else firstFrom p n (i + 1)

/-- The first `i` with `lo ≤ i < hi` and `p i`. -/
def firstIn (p : ℕ → Bool) (lo hi : ℕ) : Option ℕ := firstFrom p (hi - lo) lo

theorem firstFrom_eq_some (h : firstFrom p n i = some k) :
    i ≤ k ∧ k < i + n ∧ p k = true ∧ ∀ j, i ≤ j → j < k → p j = false := by
  induction n generalizing i with
  | zero => cases h
  | succ n ih =>
    unfold firstFrom at h
    by_cases hp : p i = true
    · rw [if_pos hp] at h
      obtain rfl := Option.some.inj h
      exact ⟨le_refl _, by omega, hp, fun j h1 h2 => absurd h1 (by omega)⟩
    · rw [if_neg hp] at h
      obtain ⟨hle, hlt, hk, hmin⟩ := ih h
      refine ⟨by omega, by omega, hk, fun j h1 h2 => ?_⟩
      rcases Nat.eq_or_lt_of_le h1 with rfl | hj
      · exact Bool.eq_false_of_not_eq_true hp
      · exact hmin j hj h2

theorem firstFrom_eq_none (h : firstFrom p n i = none) : ∀ j, i ≤ j → j < i + n → p j = false := by
  induction n generalizing i with
  | zero => exact fun j h1 h2 => absurd h1 (by omega)
  | succ n ih =>
    unfold firstFrom at h
    by_cases hp : p i = true
    · rw [if_pos hp] at h
      cases h
    · rw [if_neg hp] at h
      intro j h1 h2
      rcases Nat.eq_or_lt_of_le h1 with rfl | hj
      · exact Bool.eq_false_of_not_eq_true hp
      · exact ih h j hj (by omega)

/-- A hit is the least index of the range with the property. -/
theorem firstIn_eq_some (h : firstIn p lo hi = some k) :
    lo ≤ k ∧ k < hi ∧ p k = true ∧ ∀ j, lo ≤ j → j < k → p j = false := by
  obtain ⟨hle, hlt, hk, hmin⟩ := firstFrom_eq_some h
  exact ⟨hle, by omega, hk, hmin⟩

/-- A miss means that no index of the range has the property. -/
theorem firstIn_eq_none (h : firstIn p lo hi = none) : ∀ j, lo ≤ j → j < hi → p j = false :=
  fun j h1 h2 => firstFrom_eq_none h j h1 (by omega)

/-- The converse of `firstIn_eq_some`: the least index is what is found. -/
theorem firstIn_of_least (hlo : lo ≤ k) (hhi : k < hi)
    (hk : p k = true) (hmin : ∀ j, lo ≤ j → j < k → p j = false) : firstIn p lo hi = some k := by
  rcases h : firstIn p lo hi with _ | k'
  · have := firstIn_eq_none h k hlo hhi
    rw [hk] at this
    cases this
  · obtain ⟨hlo', -, hk', hmin'⟩ := firstIn_eq_some h
    rcases Nat.lt_trichotomy k k' with hlt | rfl | hgt
    · have := hmin' k hlo hlt
      rw [hk] at this
      cases this
    · rfl
    · have := hmin k' hlo' hgt
      rw [hk'] at this
      cases this

theorem firstIn_of_forall (h : ∀ j, lo ≤ j → j < hi → p j = false) : firstIn p lo hi = none := by
  rcases hf : firstIn p lo hi with _ | k
  · rfl
  · obtain ⟨hlo, hhi, hk, -⟩ := firstIn_eq_some hf
    rw [h k hlo hhi] at hk
    cases hk

end PenOS
