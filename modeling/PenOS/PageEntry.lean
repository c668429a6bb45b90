import PenOS.Paging

/-!
# Page-table words

Which bits of an entry are flags, which are the frame, and what the three ways in which the code
composes an entry do to both. Tables are 4096-byte aligned blocks of 1024 words, so two words
are apart as soon as block or index differ.
-/

namespace PenOS

variable {base e i phys : ℕ}

/-! ## Flags and frames -/

theorem hasFlag_two_pow (e k : ℕ) : hasFlag e (2 ^ k) = decide (e / 2 ^ k % 2 = 1) := by
  rw [Bool.eq_iff_iff, decide_eq_true_iff, ← and_flag_ne_zero]
  exact bne_iff_ne

@[simp] theorem hasFlag_present (e : ℕ) : hasFlag e pagePresent = decide (e % 2 = 1) := by
  have h := hasFlag_two_pow e 0
  rwa [pow_zero, Nat.div_one] at h

@[simp] theorem hasFlag_user (e : ℕ) : hasFlag e pageUser = decide (e / 4 % 2 = 1) :=
  hasFlag_two_pow e 2

@[simp] theorem hasFlag_accessed (e : ℕ) : hasFlag e pageAccessed = decide (e / 32 % 2 = 1) :=
  hasFlag_two_pow e 5

@[simp] theorem hasFlag_swapped (e : ℕ) : hasFlag e pageSwapped = decide (e / 512 % 2 = 1) :=
  hasFlag_two_pow e 9

theorem frameOf_eq (he : e < 4294967296) : frameOf e = e / 4096 * 4096 := and_pageMask he

/-! ## The entries the code composes -/

theorem pageEntry_lt (phys flags : ℕ) : pageEntry phys flags < 4294967296 := by
  have h1 : phys &&& 0xFFFFF000 < 2 ^ 32 := Nat.and_lt_two_pow _ (by decide)
  have h2 : flags &&& 0xFFF < 2 ^ 32 := Nat.and_lt_two_pow _ (by decide)
  exact Nat.or_lt_two_pow (Nat.or_lt_two_pow h1 (by decide)) h2

/-- A new page entry is present. -/
theorem pageEntry_mod_two (phys flags : ℕ) : pageEntry phys flags % 2 = 1 := by
  unfold pageEntry
  rw [Nat.or_mod_two_eq_one, Nat.or_mod_two_eq_one]
  exact Or.inl (Or.inr rfl)

/-- The frame part of a word has no offset bits. -/
theorem frameOf_mod (e : ℕ) : frameOf e % 4096 = 0 := by
  have h : (e &&& 0xFFFFF000) % 2 ^ 12 = e % 2 ^ 12 &&& 0xFFFFF000 % 2 ^ 12 :=
    Nat.and_mod_two_pow
  rw [show 0xFFFFF000 % 2 ^ 12 = 0 by decide, Nat.and_zero] at h
  exact h

/-- A new page entry names the page it was made for. -/
theorem pageEntry_frame (phys flags : ℕ) : pageEntry phys flags / 4096 * 4096 = frameOf phys := by
  have hf : flags &&& 0xFFF < 2 ^ 12 := Nat.and_lt_two_pow _ (by decide)
  have h1 : pageEntry phys flags / 4096 = (frameOf phys ||| 1) / 4096 :=
    or_div_of_lt (frameOf phys ||| 1) hf
  have h2 : (frameOf phys ||| 1) / 4096 = frameOf phys / 4096 :=
    or_div_of_lt (frameOf phys) (show 1 < 2 ^ 12 by decide)
  have h3 := frameOf_mod phys
  rw [h1, h2]
  omega

theorem pageEntry_div {flags : ℕ} (h : phys < 4294967296) :
    pageEntry phys flags / 4096 = phys / 4096 := by
  have h1 := pageEntry_frame phys flags
  rw [frameOf_eq h] at h1
  omega

/-- The User bit of a new page entry is the one asked for. -/
theorem pageEntry_user (phys flags : ℕ) : pageEntry phys flags / 4 % 2 = 1 ↔ flags / 4 % 2 = 1 := by
  have h1 : pageEntry phys flags / 4 % 2 = 1 ↔
      (frameOf phys ||| 1) / 4 % 2 = 1 ∨ (flags &&& 0xFFF) / 4 % 2 = 1 := or_bit _ _ 2
  have h2 : (frameOf phys ||| 1) / 4 % 2 = 1 ↔ frameOf phys / 4 % 2 = 1 ∨ 1 / 4 % 2 = 1 :=
    or_bit _ _ 2
  have h3 := frameOf_mod phys
  have h4 := and_offsetMask flags
  rw [h1, h2, h4]
  omega

theorem tableFlags_cases (flags : ℕ) :
    (flags / 4 % 2 = 1 ∧ tableFlags flags = 7) ∨ (flags / 4 % 2 ≠ 1 ∧ tableFlags flags = 3) := by
  unfold tableFlags
  rw [hasFlag_user]
  by_cases h : flags / 4 % 2 = 1
  · exact Or.inl ⟨h, by rw [decide_eq_true h]; rfl⟩
  · exact Or.inr ⟨h, by rw [decide_eq_false h]; rfl⟩

/-- A new directory entry: the address of the table plus its flags. -/
theorem or_tableFlags (f flags : ℕ) : f * 4096 ||| tableFlags flags = f * 4096 + tableFlags flags :=
  or_offset f (by rcases tableFlags_cases flags with ⟨-, h⟩ | ⟨-, h⟩ <;> omega)

/-- Adding the User bit keeps frame and presence. -/
theorem or_user_facts (he : e < 4294967296) :
    (e ||| pageUser) < 4294967296 ∧ (e ||| pageUser) / 4096 = e / 4096 ∧
      (e ||| pageUser) % 2 = e % 2 ∧ (e ||| pageUser) / 4 % 2 = 1 := by
  refine ⟨Nat.or_lt_two_pow (n := 32) he (by decide), or_div_of_lt e (k := 12) (by decide), ?_,
    (or_bit e 4 2).mpr (Or.inr rfl)⟩
  have h : (e ||| 4) % 2 = 1 ↔ e % 2 = 1 ∨ 4 % 2 = 1 := Nat.or_mod_two_eq_one
  change (e ||| 4) % 2 = e % 2
  omega

theorem clearAccessed_lt (e : ℕ) : clearAccessed e < 4294967296 :=
  Nat.and_lt_two_pow (n := 32) _ (by decide)

theorem clearAccessed_div (he : e < 4294967296) : clearAccessed e / 4096 = e / 4096 := by
  have hc : not32 pageAccessed / 2 ^ 12 = 2 ^ 20 - 1 := by decide
  have h : clearAccessed e / 2 ^ 12 = e / 2 ^ 12 % 2 ^ 20 := by
    unfold clearAccessed
    rw [Nat.and_div_two_pow, hc, and_low]
  refine h.trans (Nat.mod_eq_of_lt ?_)
  omega

/-- The bits of an entry after the Accessed bit is cleared. -/
theorem clearAccessed_bit (e k : ℕ) (hk : not32 pageAccessed / 2 ^ k % 2 = 1) :
    clearAccessed e / 2 ^ k % 2 = e / 2 ^ k % 2 := by
  have h : clearAccessed e / 2 ^ k % 2 = 1 ↔ e / 2 ^ k % 2 = 1 := by
    unfold clearAccessed
    rw [and_bit, hk]
    exact and_iff_left rfl
  omega

theorem clearAccessed_mod_two (e : ℕ) : clearAccessed e % 2 = e % 2 := by
  have h := clearAccessed_bit e 0 (by decide)
  rwa [pow_zero, Nat.div_one, Nat.div_one] at h

theorem clearAccessed_accessed (e : ℕ) : clearAccessed e / 32 % 2 = 0 := by
  have h : ¬ clearAccessed e / 2 ^ 5 % 2 = 1 := by
    unfold clearAccessed
    rw [and_bit]
    exact fun h => absurd h.2 (by decide)
  change ¬ clearAccessed e / 32 % 2 = 1 at h
  omega

theorem clearAccessed_idem (e : ℕ) : clearAccessed (clearAccessed e) = clearAccessed e := by
  rw [clearAccessed, clearAccessed, Nat.and_assoc, Nat.and_self]

/-! ## Words in memory -/

namespace Paging

variable {D : Type}

theorem entry_lt (s : Paging D) (base i : ℕ) : s.entry base i < 4294967296 := Mem.load32_lt _ _

/-- The frame an entry names, as an address. -/
theorem frameOf_entry (s : Paging D) (base i : ℕ) :
    frameOf (s.entry base i) = s.entry base i / 4096 * 4096 := frameOf_eq (s.entry_lt base i)

@[simp] theorem setEntry_pmm (s : Paging D) (base i v : ℕ) :
    (s.setEntry base i v).pmm = s.pmm := rfl

/-- Reading back the word just written. -/
theorem entry_setEntry_self (s : Paging D) (base i v : ℕ) :
    (s.setEntry base i v).entry base i = u32 v := Mem.load32_store32_self _ _ _

theorem entry_setEntry_of_ne (s : Paging D) {base' j : ℕ} (v : ℕ)
    (hb : base % 4096 = 0) (hb' : base' % 4096 = 0) (hi : i < 1024) (hj : j < 1024)
    (h : base' ≠ base ∨ j ≠ i) : (s.setEntry base i v).entry base' j = s.entry base' j :=
  Mem.load32_store32_of_apart (by omega)

/-- A zeroed frame holds no entries. -/
theorem entry_zeroFrame_self (s : Paging D) (phys : ℕ) (hi : i < 1024) :
    (s.zeroFrame phys).entry phys i = 0 := Mem.load32_fill_zero (by omega) (by omega)

theorem entry_zeroFrame_of_ne (s : Paging D) (hp : phys % 4096 = 0)
    (hb : base % 4096 = 0) (hi : i < 1024) (h : base ≠ phys) :
    (s.zeroFrame phys).entry base i = s.entry base i := 
  Mem.load32_congr fun _ hx hx' => Mem.fill_of_not_mem (by omega)

end Paging

end PenOS
