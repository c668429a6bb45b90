import Mathlib.Data.List.Basic
import Mathlib.Data.List.Infix
import Mathlib.Logic.Function.Basic

/-!
# Rings with free-running counters

A ring of `num` slots between a writer and a reader. Each side counts its entries in a counter that
wraps at `w`; the slot is the counter modulo `num`, which jumps at the wrap if `num` does not divide
`w`. `Carries` ties this to the lists of what was written and read.
-/

namespace PenOS

variable {α : Type*} {w num i j k : ℕ}

/-- The slot of the entry number `i`. -/
def ringSlot (w num i : ℕ) : ℕ := i % w % num

theorem ringSlot_ne_of_dvd (hdvd : num ∣ w) (hij : i < j) (hj : j < i + num) :
    ringSlot w num i ≠ ringSlot w num j := by
  rw [ringSlot, ringSlot, Nat.mod_mod_of_dvd _ hdvd, Nat.mod_mod_of_dvd _ hdvd]
  intro heq
  have hdiff : num ∣ j - i := Nat.dvd_of_mod_eq_zero (Nat.sub_mod_eq_zero_of_mod_eq heq.symm)
  have := Nat.le_of_dvd (by omega) hdiff
  omega

/-- Entries less than `k` apart have different slots, if the jump of the slots at the wrap is at
least `k`. -/
theorem ringSlot_ne_of_rem (hk : k ≤ num) (hkw : k ≤ w) (hrem : w % num = 0 ∨ k ≤ w % num)
    (hij : i < j) (hj : j < i + k) : ringSlot w num i ≠ ringSlot w num j := by
  rw [ringSlot, ringSlot]
  intro heq
  have hi : i % w < w := Nat.mod_lt _ (by omega)
  obtain ⟨δ, rfl, hpos⟩ : ∃ δ, j = i + δ ∧ 0 < δ := ⟨j - i, by omega, by omega⟩
  rw [← Nat.mod_add_mod i w δ] at heq
  generalize i % w = a at heq hi
  rcases Nat.lt_or_ge (a + δ) w with hlt | hge
  · -- no wrap between the two entries
    rw [Nat.mod_eq_of_lt hlt] at heq
    have hdvd := Nat.dvd_of_mod_eq_zero (Nat.sub_mod_eq_zero_of_mod_eq heq.symm)
    rw [Nat.add_sub_cancel_left] at hdvd
    have := Nat.le_of_dvd hpos hdvd
    omega
  · rw [Nat.mod_eq_sub_mod hge, Nat.mod_eq_of_lt (show a + δ - w < w by omega)] at heq
    have hdvd := Nat.dvd_of_mod_eq_zero (Nat.sub_mod_eq_zero_of_mod_eq heq)
    obtain ⟨m, hm⟩ := hdvd
    have hw : w = δ + num * m := by omega
    have hmod : w % num = δ := by rw [hw, Nat.add_mul_mod_self_left, Nat.mod_eq_of_lt (by omega)]
    omega

theorem counter_eq_iff (hij : i ≤ j) (hj : j < i + w) : i % w = j % w ↔ i = j := by
  refine ⟨fun heq => ?_, fun h => by rw [h]⟩
  have hdiff : w ∣ j - i := Nat.dvd_of_mod_eq_zero (Nat.sub_mod_eq_zero_of_mod_eq heq.symm)
  by_contra hne
  have := Nat.le_of_dvd (by omega) hdiff
  omega

/-- The ring between the entries written, `sent`, and read, `got`: the counters are their numbers,
and the entries not read yet are in their slots. -/
structure Carries (w num : ℕ) (ring : ℕ → α) (writeIdx readIdx : ℕ) (sent got : List α) : Prop where
  sound : got <+: sent
  writeIdx_eq : writeIdx = sent.length % w
  readIdx_eq : readIdx = got.length % w
  few : sent.length < got.length + w
  holds : ∀ i x, got.length ≤ i → sent[i]? = some x → ring (ringSlot w num i) = x

namespace Carries

variable {ring : ℕ → α} {writeIdx readIdx : ℕ} {sent got : List α} {x : α}

theorem empty (hw : 0 < w) (ring : ℕ → α) : Carries w num ring 0 0 [] [] :=
  ⟨List.prefix_rfl, (Nat.zero_mod w).symm, (Nat.zero_mod w).symm, by simpa using hw,
    fun i x _ hx => absurd hx (by simp)⟩

section

variable (h : Carries w num ring writeIdx readIdx sent got)

include h

theorem length_le : got.length ≤ sent.length := h.sound.length_le

theorem eq_iff : readIdx = writeIdx ↔ got = sent := by
  rw [h.readIdx_eq, h.writeIdx_eq, counter_eq_iff h.length_le h.few]
  exact ⟨h.sound.eq_of_length, fun heq => heq ▸ rfl⟩

/-- Writing one more entry, to a slot that no unread entry has. -/
theorem send (x : α) (hfew : sent.length + 1 < got.length + w)
    (hslot : ∀ i, got.length ≤ i → i < sent.length →
      ringSlot w num i ≠ ringSlot w num sent.length) :
    Carries w num (Function.update ring (writeIdx % num) x) ((writeIdx + 1) % w) readIdx
      (sent ++ [x]) got := by
  have hlen : (sent ++ [x]).length = sent.length + 1 := by simp
  refine ⟨h.sound.trans (List.prefix_append _ _), ?_, h.readIdx_eq, by omega, fun i y hi hy => ?_⟩
  · rw [hlen, h.writeIdx_eq, Nat.mod_add_mod]
  · have hwrite : writeIdx % num = ringSlot w num sent.length := by rw [h.writeIdx_eq, ringSlot]
    rw [hwrite]
    rcases Nat.lt_or_ge i sent.length with hlt | hge
    · rw [Function.update_of_ne (hslot i hi hlt)]
      rw [List.getElem?_append_left hlt] at hy
      exact h.holds i y hi hy
    · have hi' : i = sent.length := by
        have := (List.getElem?_eq_some_iff.mp hy).1
        omega
      subst hi'
      rw [Function.update_self]
      simpa using hy

/-- Reading the next entry. -/
theorem recv (hne : readIdx ≠ writeIdx) : sent[got.length]? = some (ring (readIdx % num)) ∧
      Carries w num ring writeIdx ((readIdx + 1) % w) sent (got ++ [ring (readIdx % num)]) := by
  have hlt : got.length < sent.length := by
    refine lt_of_le_of_ne h.length_le fun heq => hne (h.eq_iff.mpr ?_)
    exact h.sound.eq_of_length heq
  have hread : readIdx % num = ringSlot w num got.length := by rw [h.readIdx_eq, ringSlot]
  have hget : sent[got.length]? = some sent[got.length] := List.getElem?_eq_getElem hlt
  have hx : sent[got.length]? = some (ring (readIdx % num)) := by
    rw [hread, h.holds _ _ le_rfl hget, hget]
  have hlen : (got ++ [ring (readIdx % num)]).length = got.length + 1 := by simp
  refine ⟨hx, ⟨?_, h.writeIdx_eq, ?_, ?_, fun i y hi hy => ?_⟩⟩
  · obtain ⟨rest, rfl⟩ := h.sound
    rw [List.getElem?_append_right le_rfl, Nat.sub_self] at hx
    obtain ⟨tail, rfl⟩ : ∃ tail, rest = ring (readIdx % num) :: tail := by
      cases rest with
      | nil => exact absurd hx nofun
      | cons y tail => exact ⟨tail, by rw [← Option.some.inj hx]⟩
    exact ⟨tail, by simp⟩
  · rw [hlen, h.readIdx_eq, Nat.mod_add_mod]
  · have := h.few
    omega
  · exact h.holds i y (by omega) hy

end

end Carries

end PenOS
