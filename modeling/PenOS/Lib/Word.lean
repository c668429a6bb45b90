import Mathlib.Data.Nat.Bitwise
import Mathlib.Tactic.Common

/-!
# Machine words as naturals

Unsigned machine integers are naturals that `u16`, `u32`, `u64` wrap explicitly.
-/

namespace PenOS

variable {a b k n v x : ℕ}

/-- Wrap to 16 bits. -/
def u16 (n : ℕ) : ℕ := n % 65536

/-- Wrap to 32 bits. -/
def u32 (n : ℕ) : ℕ := n % 4294967296

/-- Wrap to 64 bits. -/
def u64 (n : ℕ) : ℕ := n % 18446744073709551616

/-- A `uint32_t` read as an `int32_t`. -/
def int32 (n : ℕ) : ℤ := if n < 2147483648 then n else n - 4294967296

theorem u16_of_lt (h : n < 65536) : u16 n = n := Nat.mod_eq_of_lt h

theorem u32_of_lt (h : n < 4294967296) : u32 n = n := Nat.mod_eq_of_lt h

theorem u32_lt (n : ℕ) : u32 n < 4294967296 := Nat.mod_lt _ (by decide)

/-- The 32-bit complement `~x`. -/
def not32 (x : ℕ) : ℕ := 4294967295 - x

/-- 32-bit subtraction. -/
def sub32 (a b : ℕ) : ℕ := u32 (a + 4294967296 - b)

theorem sub32_of_le (ha : a < 4294967296) (h : b ≤ a) : sub32 a b = a - b := by
  unfold sub32 u32
  omega

/-- Round `value` up to a multiple of `align`, a power of two, in 32 bits. -/
def alignUp (value align : ℕ) : ℕ := u32 (value + align - 1) &&& not32 (align - 1)

/-! ## Masks -/

theorem and_low (x k : ℕ) : x &&& (2 ^ k - 1) = x % 2 ^ k :=
  Nat.and_two_pow_sub_one_eq_mod x k

/-- Masking with `~(2 ^ k - 1)` clears the low `k` bits. -/
theorem and_not32_low (hx : x < 4294967296) (hk : k ≤ 32) :
    x &&& not32 (2 ^ k - 1) = x / 2 ^ k * 2 ^ k := by
  have hle : 2 ^ k ≤ 2 ^ 32 := Nat.pow_le_pow_right (by decide) hk
  apply Nat.eq_of_testBit_eq
  intro i
  have hnot : not32 (2 ^ k - 1) = 2 ^ 32 - (2 ^ k - 1 + 1) := by
    unfold not32
    omega
  rw [Nat.testBit_and, hnot, Nat.testBit_two_pow_sub_succ (by omega),
    Nat.testBit_two_pow_sub_one, Nat.testBit_mul_two_pow, Nat.testBit_div_two_pow]
  by_cases hi : k ≤ i
  · have hsub : i - k + k = i := by omega
    rw [hsub]
    by_cases h32 : i < 32
    · simp [hi, h32]
    · -- beyond the width the word itself has no bits
      have hbit : x.testBit i = false := by
        apply Nat.testBit_lt_two_pow
        have : 2 ^ 32 ≤ 2 ^ i := Nat.pow_le_pow_right (by decide) (by omega)
        omega
      simp [hbit]
  · simp [hi]
    omega

theorem and_pageMask (hx : x < 4294967296) : x &&& 0xFFFFF000 = x / 4096 * 4096 :=
  and_not32_low (k := 12) hx (by decide)

/-- The offset bits of an address. -/
theorem and_offsetMask (x : ℕ) : x &&& 0xFFF = x % 4096 := and_low x 12

theorem or_offset (a : ℕ) (hb : b < 4096) : a * 4096 ||| b = a * 4096 + b := by
  have h := Nat.two_pow_add_eq_or_of_lt (i := 12) (b := b) (by omega) a
  rw [show (2 : ℕ) ^ 12 * a = a * 4096 by omega] at h
  exact h.symm

/-- Testing one flag of a word. -/
theorem and_flag_ne_zero (x k : ℕ) : x &&& 2 ^ k ≠ 0 ↔ x / 2 ^ k % 2 = 1 := by
  rw [Nat.and_two_pow]
  constructor
  · intro h
    rcases hb : x.testBit k with _ | _
    · simp [hb] at h
    · rw [Nat.testBit_eq_decide_div_mod_eq] at hb
      exact of_decide_eq_true hb
  · intro h
    have hb : x.testBit k = true := by
      rw [Nat.testBit_eq_decide_div_mod_eq]
      exact decide_eq_true h
    simp [hb]

/-- A bit of a union. -/
theorem or_bit (x y k : ℕ) : (x ||| y) / 2 ^ k % 2 = 1 ↔ x / 2 ^ k % 2 = 1 ∨ y / 2 ^ k % 2 = 1 := by
  rw [Nat.or_div_two_pow, Nat.or_mod_two_eq_one]

/-- A bit of an intersection. -/
theorem and_bit (x y k : ℕ) :
    (x &&& y) / 2 ^ k % 2 = 1 ↔ x / 2 ^ k % 2 = 1 ∧ y / 2 ^ k % 2 = 1 := by
  rw [Nat.and_div_two_pow, Nat.and_mod_two_eq_one]

/-- Flags below bit `k` do not reach the bits above. -/
theorem or_div_of_lt (x : ℕ) {y : ℕ} (hy : y < 2 ^ k) : (x ||| y) / 2 ^ k = x / 2 ^ k := by
  rw [Nat.or_div_two_pow, Nat.div_eq_of_lt hy, Nat.or_zero]

/-! ## Rounding -/

theorem alignUp_two_pow (hk : k ≤ 32) (hv : v + (2 ^ k - 1) < 4294967296) :
    alignUp v (2 ^ k) = (v + (2 ^ k - 1)) / 2 ^ k * 2 ^ k := by
  have hpos : 0 < 2 ^ k := Nat.two_pow_pos k
  have hsum : v + 2 ^ k - 1 = v + (2 ^ k - 1) := by omega
  rw [alignUp, hsum, u32_of_lt hv, and_not32_low hv hk]

/-- Rounding up leads to the first multiple at or behind `q`. -/
theorem alignUp_facts {q : ℕ} (hq : q + (2 ^ a - 1) < 4294967296) (ha : a ≤ 32) :
    2 ^ a ∣ alignUp q (2 ^ a) ∧ q ≤ alignUp q (2 ^ a) ∧ alignUp q (2 ^ a) < q + 2 ^ a ∧
      (2 ^ a ∣ q → alignUp q (2 ^ a) = q) := by
  have hpos : 0 < 2 ^ a := Nat.two_pow_pos a
  rw [alignUp_two_pow ha hq]
  have hdiv := Nat.div_add_mod (q + (2 ^ a - 1)) (2 ^ a)
  rw [Nat.mul_comm] at hdiv
  refine ⟨Nat.dvd_mul_left _ _, by omega, by omega, ?_⟩
  rintro ⟨j, rfl⟩
  rw [Nat.mul_add_div hpos, Nat.div_eq_of_lt (by omega), Nat.add_zero, Nat.mul_comm]

theorem alignUp_four (hv : v + 3 < 4294967296) : alignUp v 4 = (v + 3) / 4 * 4 :=
  alignUp_two_pow (k := 2) (by decide) hv

theorem alignUp_page (hv : v + 4095 < 4294967296) : alignUp v 4096 = (v + 4095) / 4096 * 4096 :=
  alignUp_two_pow (k := 12) (by decide) hv

end PenOS
