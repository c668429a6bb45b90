import Mathlib.Data.Nat.Find
import Mathlib.Tactic.Common

/-!
# The second-chance clock

A hand goes round places that hold an item or nothing. It takes the first item whose reference bit
is clear and clears the bits that it passes. `item k` is what it finds at its `k`-th place, `bits
item ref k` are the bits then. If the places repeat after `n` steps and one holds an item, one is
taken within two rounds.
-/

namespace PenOS

namespace Clock

variable {W : Type} [DecidableEq W] {item : ℕ → Option W} {ref : W → Bool} {w : W} {k m : ℕ}

/-- The reference bits when the hand has passed `k` places. -/
def bits (item : ℕ → Option W) (ref : W → Bool) : ℕ → W → Bool
  | 0 => ref
  | k + 1 =>
    match item k with
    | some w => Function.update (bits item ref k) w false
    | none => bits item ref k

/-- The item `w` is at the `k`-th place, with its bit clear when the hand comes by. -/
def Takes (item : ℕ → Option W) (ref : W → Bool) (k : ℕ) (w : W) : Prop :=
  item k = some w ∧ bits item ref k w = false

theorem bits_succ_of_some (h : item k = some w) :
    bits item ref (k + 1) = Function.update (bits item ref k) w false := by
  simp only [bits, h]

theorem bits_succ_of_none (h : item k = none) : bits item ref (k + 1) = bits item ref k := by
  simp only [bits, h]

/-- A bit that is not passed stays as it is. -/
theorem bits_succ_of_ne (h : item k ≠ some w) : bits item ref (k + 1) w = bits item ref k w := by
  cases hi : item k with
  | none => rw [bits_succ_of_none hi]
  | some v =>
    have hne : w ≠ v := fun heq => h (hi.trans (congrArg some heq.symm))
    rw [bits_succ_of_some hi, Function.update_of_ne hne]

/-- Bits are never set. -/
theorem bits_succ_of_clear (h : bits item ref k w = false) : bits item ref (k + 1) w = false := by
  by_cases hi : item k = some w
  · rw [bits_succ_of_some hi, Function.update_self]
  · rw [bits_succ_of_ne hi, h]

theorem bits_of_clear (hle : k ≤ m) (h : bits item ref k w = false) :
    bits item ref m w = false := by
  induction m, hle using Nat.le_induction with
  | base => exact h
  | succ m _ ih => exact bits_succ_of_clear ih

theorem bits_of_passed (h : item k = some w) (hlt : k < m) : bits item ref m w = false := by
  refine bits_of_clear hlt ?_
  rw [bits_succ_of_some h, Function.update_self]

theorem bits_of_not_passed (h : ∀ i < k, item i ≠ some w) : bits item ref k w = ref w := by
  induction k with
  | zero => rfl
  | succ k ih =>
    rw [bits_succ_of_ne (h k k.lt_succ_self)]
    exact ih fun i hi => h i (Nat.lt_succ_of_lt hi)

/-- **Completeness**: with an item in the first round, one is taken within two rounds. -/
theorem exists_first_taken {n i : ℕ} (hperiod : ∀ i, item (i + n) = item i) (hi : i < n)
    (hw : item i = some w) :
    ∃ k < 2 * n, (∃ v, Takes item ref k v) ∧ ∀ m < k, ∀ v, ¬ Takes item ref m v := by
  classical
  -- at the latest the item itself, when the hand comes by again
  have hagain : ∃ v, Takes item ref (i + n) v :=
    ⟨w, (hperiod i).trans hw, bits_of_passed hw (by omega)⟩
  have hex : ∃ k, ∃ v, Takes item ref k v := ⟨_, hagain⟩
  refine ⟨Nat.find hex, ?_, Nat.find_spec hex, fun m hm v hv => Nat.find_min hex hm ⟨v, hv⟩⟩
  have hle := Nat.find_min' hex hagain
  omega

/-- **Second chance**: an item that is taken although its bit was set has been passed before, and
its bit was cleared then. -/
theorem Takes.second_chance (h : Takes item ref k w) (hset : ref w = true) :
    ∃ m < k, item m = some w ∧ bits item ref m w = true ∧ bits item ref (m + 1) w = false := by
  classical
  have hex : ∃ m, m < k ∧ item m = some w := by
    by_contra hno
    push Not at hno
    have hbit : bits item ref k w = ref w := bits_of_not_passed hno
    rw [h.2, hset] at hbit
    cases hbit
  obtain ⟨hlt, hitem⟩ := Nat.find_spec hex
  refine ⟨Nat.find hex, hlt, hitem, ?_, bits_of_passed hitem (Nat.lt_succ_self _)⟩
  rw [bits_of_not_passed, hset]
  exact fun i hi heq => Nat.find_min hex hi ⟨Nat.lt_trans hi hlt, heq⟩

end Clock

end PenOS
