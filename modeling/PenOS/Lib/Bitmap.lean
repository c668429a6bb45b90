import Mathlib.Data.Finset.Card
import Mathlib.Tactic.Common

/-!
# Packed bitmaps

Bit `i` of the map is bit `i % 8` of byte `i / 8`. The operations are the shift-and-mask
expressions on the byte; the lemmas restore the view of a map from indices to bits.
-/

namespace PenOS

open Finset Function

/-- A packed bitmap, one byte for eight bits. -/
abbrev Bitmap : Type := ℕ → BitVec 8

namespace Bitmap

/-- The mask of bit `i` within its byte. -/
def mask (i : ℕ) : BitVec 8 := 1#8 <<< (i % 8)

/-- `map[i / 8] |= 1 << (i % 8)` -/
def set (b : Bitmap) (i : ℕ) : Bitmap := Function.update b (i / 8) (b (i / 8) ||| mask i)

/-- `map[i / 8] &= ~(1 << (i % 8))` -/
def clear (b : Bitmap) (i : ℕ) : Bitmap := Function.update b (i / 8) (b (i / 8) &&& ~~~mask i)

/-- `map[i / 8] & (1 << (i % 8))`, as a truth value. -/
def test (b : Bitmap) (i : ℕ) : Bool := b (i / 8) &&& mask i != 0#8

theorem getLsbD_mask (i k : ℕ) (hk : k < 8) : (mask i).getLsbD k = decide (k = i % 8) := by
  have hi : i % 8 < 8 := Nat.mod_lt _ (by decide)
  unfold mask
  rw [BitVec.getLsbD_shiftLeft]
  by_cases h : k = i % 8
  · subst h
    simp [hi]
  · rcases Nat.lt_or_ge k (i % 8) with hlt | hge
    · simp [h, hlt]
    · have : k - i % 8 ≠ 0 := by omega
      simp [h, this]

/-- The test reads exactly the addressed bit. -/
theorem test_eq (b : Bitmap) (i : ℕ) : b.test i = (b (i / 8)).getLsbD (i % 8) := by
  have hi : i % 8 < 8 := Nat.mod_lt _ (by decide)
  unfold test
  rcases hbit : (b (i / 8)).getLsbD (i % 8) with _ | _
  · have hz : b (i / 8) &&& mask i = 0#8 := by
      apply BitVec.eq_of_getLsbD_eq
      intro k hk
      rw [BitVec.getLsbD_and, getLsbD_mask i k hk, BitVec.getLsbD_zero]
      by_cases h : k = i % 8
      · subst h
        simp [hbit]
      · simp [h]
    simp [hz]
  · have hne : b (i / 8) &&& mask i ≠ 0#8 := by
      intro hz
      have := congrArg (fun v => BitVec.getLsbD v (i % 8)) hz
      simp [getLsbD_mask i (i % 8) hi, hbit] at this
    simp [hne]

/-- Bytes with the same bits are equal. -/
theorem eq_of_test {b b' : Bitmap} {k : ℕ} (h : ∀ i, i / 8 = k → b.test i = b'.test i) :
    b k = b' k := by
  refine BitVec.eq_of_getLsbD_eq fun i hi => ?_
  have hdiv : (8 * k + i) / 8 = k := by omega
  have hmod : (8 * k + i) % 8 = i := by omega
  have hbit := h (8 * k + i) hdiv
  rwa [test_eq, test_eq, hdiv, hmod] at hbit

theorem test_set (b : Bitmap) (i j : ℕ) : (b.set i).test j = (decide (j = i) || b.test j) := by
  have hj : j % 8 < 8 := Nat.mod_lt _ (by decide)
  rw [test_eq, test_eq]
  unfold set
  by_cases hbyte : j / 8 = i / 8
  · rw [hbyte, update_self, BitVec.getLsbD_or, getLsbD_mask i _ hj, Bool.or_comm]
    congr 1
    exact decide_eq_decide.mpr ⟨fun h => by omega, fun h => by rw [h]⟩
  · rw [update_of_ne hbyte]
    have hne : j ≠ i := fun h => hbyte (by rw [h])
    simp [hne]

theorem test_clear (b : Bitmap) (i j : ℕ) : (b.clear i).test j = (decide (j ≠ i) && b.test j) := by
  have hj : j % 8 < 8 := Nat.mod_lt _ (by decide)
  rw [test_eq, test_eq]
  unfold clear
  by_cases hbyte : j / 8 = i / 8
  · rw [hbyte, update_self, BitVec.getLsbD_and, BitVec.getLsbD_not,
      getLsbD_mask i _ hj, Bool.and_comm]
    congr 1
    by_cases h : j = i
    · simp [h]
    · have : j % 8 ≠ i % 8 := by omega
      simp [h, this, hj]
  · rw [update_of_ne hbyte]
    have hne : j ≠ i := fun h => hbyte (by rw [h])
    simp [hne]

@[simp] theorem test_set_self (b : Bitmap) (i : ℕ) : (b.set i).test i = true := by
  simp [test_set]

@[simp] theorem test_clear_self (b : Bitmap) (i : ℕ) : (b.clear i).test i = false := by
  simp [test_clear]

theorem test_set_of_ne (b : Bitmap) {i j : ℕ} (h : j ≠ i) : (b.set i).test j = b.test j := by
  simp [test_set, h]

theorem test_clear_of_ne (b : Bitmap) {i j : ℕ} (h : j ≠ i) : (b.clear i).test j = b.test j := by
  simp [test_clear, h]

end Bitmap

/-! ## The clear bits of a range -/

/-- The indices of `[lo, hi)` whose bit is clear. -/
def clearBits (b : Bitmap) (lo hi : ℕ) : Finset ℕ :=
  (Finset.range hi).filter fun i => lo ≤ i ∧ b.test i = false

theorem mem_clearBits {b : Bitmap} {lo hi i : ℕ} :
    i ∈ clearBits b lo hi ↔ lo ≤ i ∧ i < hi ∧ b.test i = false := by
  simp only [clearBits, mem_filter, mem_range]
  tauto

theorem clearBits_set (b : Bitmap) (lo hi i : ℕ) :
    clearBits (b.set i) lo hi = (clearBits b lo hi).erase i := by
  ext j
  rw [mem_erase, mem_clearBits, mem_clearBits]
  by_cases hj : j = i
  · subst hj
    simp
  · rw [Bitmap.test_set_of_ne b hj]
    tauto

theorem clearBits_clear (b : Bitmap) {lo hi i : ℕ} (hlo : lo ≤ i) (hhi : i < hi) :
    clearBits (b.clear i) lo hi = insert i (clearBits b lo hi) := by
  ext j
  rw [mem_insert, mem_clearBits, mem_clearBits]
  by_cases hj : j = i
  · subst hj
    simp [hlo, hhi]
  · rw [Bitmap.test_clear_of_ne b hj]
    tauto

end PenOS
