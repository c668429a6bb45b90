import PenOS.Lib.Clock
import PenOS.SlotRuns

/-!
# The clock of `paging_evict_page`

The hand is a position in the user half; the loop jumps over missing tables, where there is no page.
So the facts about the second-chance clock apply, the items being the words of present pages, their
reference bits the Accessed bits. A word whose table is named by two entries is passed at each of
its positions.
-/

namespace PenOS

open Function

variable {b i m v : ℕ}

namespace Paging

variable {D : Type} {s t : Paging D} {k x : ℕ}

/-! ## Positions -/

/-- The position of the hand. -/
def hand (s : Paging D) : ℕ := s.evictPdIdx * 1024 + s.evictPtIdx

/-- The hand is moved to the position `x`, counted round the user half. -/
def handAt (s : Paging D) (x : ℕ) : Paging D :=
  { s with evictPdIdx := x / 1024 % 768, evictPtIdx := x % 1024 }

/-- The word of the page at a position. -/
def wordAt (s : Paging D) (x : ℕ) : ℕ := s.pte s.currentPd (x / 1024 % 768) (x % 1024)

/-- Where that word is: the frame of the table and the index. -/
def placeAt (s : Paging D) (x : ℕ) : ℕ × ℕ :=
  (s.entry s.currentPd (x / 1024 % 768) / 4096, x % 1024)

/-- The hand comes to the position `x`; a page that has been used gets its second chance. -/
def secondChance (s : Paging D) (x : ℕ) : Paging D :=
  if s.wordAt x % 2 = 1 ∧ s.wordAt x / 32 % 2 = 1 then
    (s.handAt x).setEntry ((s.placeAt x).1 * 4096) (x % 1024) (clearAccessed (s.wordAt x))
  else s.handAt x

/-- The state when the hand has passed `k` positions and evicted nothing. -/
def passed (s : Paging D) : ℕ → Paging D
  | 0 => s
  | k + 1 => (s.passed k).secondChance (s.hand + k + 1)

/-- The page at the next position is present, and its Accessed bit is clear when it is visited. -/
def Victim (s : Paging D) (k : ℕ) : Prop :=
  (s.passed k).wordAt (s.hand + k + 1) % 2 = 1 ∧
    (s.passed k).wordAt (s.hand + k + 1) / 32 % 2 ≠ 1

instance (s : Paging D) (k : ℕ) : Decidable (s.Victim k) := inferInstanceAs (Decidable (_ ∧ _))

/-- The same words, up to the Accessed bit. -/
structure SameButUsed (s t : Paging D) : Prop where
  currentPd : t.currentPd = s.currentPd
  swap : t.swap = s.swap
  words : ∀ b, b % 4096 = 0 → ∀ i < 1024, clearAccessed (t.entry b i) = clearAccessed (s.entry b i)

theorem SameButUsed.refl (s : Paging D) : s.SameButUsed s := ⟨rfl, rfl, fun _ _ _ _ => rfl⟩

theorem SameButUsed.mod_two (h : s.SameButUsed t) (hb : b % 4096 = 0) (hi : i < 1024) :
    t.entry b i % 2 = s.entry b i % 2 := by
  rw [← clearAccessed_mod_two (t.entry b i), h.words b hb i hi, clearAccessed_mod_two]

theorem SameButUsed.div (h : s.SameButUsed t) (hb : b % 4096 = 0) (hi : i < 1024) :
    t.entry b i / 4096 = s.entry b i / 4096 := by
  rw [← clearAccessed_div (t.entry_lt b i), h.words b hb i hi, clearAccessed_div (s.entry_lt b i)]

/-- The words are at the same places. -/
theorem SameButUsed.placeAt (h : s.SameButUsed t) (hs : s.currentPd % 4096 = 0) (x : ℕ) :
    t.placeAt x = s.placeAt x := by
  rw [Paging.placeAt, Paging.placeAt, h.currentPd, h.div hs (by omega)]

theorem SameButUsed.present (h : s.SameButUsed t) (hs : s.currentPd % 4096 = 0) (x : ℕ) :
    t.wordAt x % 2 = s.wordAt x % 2 := by
  have hi : x / 1024 % 768 < 1024 := by omega
  rw [wordAt, wordAt, h.currentPd, pte, pte, h.mod_two hs hi, h.div hs hi]
  split_ifs
  · exact h.mod_two (Nat.mul_mod_left _ _) (by omega)
  · rfl

theorem wordAt_of_present (hp : s.wordAt x % 2 = 1) :
    s.wordAt x = s.entry ((s.placeAt x).1 * 4096) (s.placeAt x).2 :=
  pte_of_present (entry_of_pte hp) _

/-! ## The general clock -/

/-- What the hand finds at its `k`-th position. -/
def itemAt (s : Paging D) (k : ℕ) : Option (ℕ × ℕ) :=
  if s.wordAt (s.hand + k + 1) % 2 = 1 then some (s.placeAt (s.hand + k + 1)) else none

/-- The Accessed bit of a word. -/
def used (s : Paging D) (w : ℕ × ℕ) : Bool := hasFlag (s.entry (w.1 * 4096) w.2) pageAccessed

theorem used_placeAt (hp : s.wordAt x % 2 = 1) :
    s.used (s.placeAt x) = decide (s.wordAt x / 32 % 2 = 1) := by
  rw [used, hasFlag_accessed, wordAt_of_present hp]

theorem itemAt_period (s : Paging D) (k : ℕ) : s.itemAt (k + 786432) = s.itemAt k := by
  have hpd : (s.hand + (k + 786432) + 1) / 1024 % 768 = (s.hand + k + 1) / 1024 % 768 := by omega
  have hpt : (s.hand + (k + 786432) + 1) % 1024 = (s.hand + k + 1) % 1024 := by omega
  rw [itemAt, itemAt, wordAt, wordAt, placeAt, placeAt, hpd, hpt]

theorem exists_itemAt (hpd : s.evictPdIdx < 768) (hpt : s.evictPtIdx < 1024) {j : ℕ}
    (hi : i < 768) (hj : j < 1024) (hp : s.pte s.currentPd i j % 2 = 1) :
    ∃ k < 786432, ∃ w, s.itemAt k = some w := by
  have hround : ∃ k < 786432, (s.hand + k + 1) / 1024 % 768 = i ∧ (s.hand + k + 1) % 1024 = j := by
    have hh : s.hand < 786432 := by
      rw [hand]
      omega
    by_cases hlt : s.hand < i * 1024 + j
    · exact ⟨i * 1024 + j - s.hand - 1, by omega, by omega, by omega⟩
    · exact ⟨786432 + (i * 1024 + j) - s.hand - 1, by omega, by omega, by omega⟩
  obtain ⟨k, hk, hki, hkj⟩ := hround
  refine ⟨k, hk, s.placeAt (s.hand + k + 1), ?_⟩
  rw [itemAt, wordAt, hki, hkj, if_pos hp]

theorem passed_once (hlt : m < k) (hk : k < 2 * 786432)
    (hm : s.wordAt (s.hand + m + 1) % 2 = 1) (hp : s.wordAt (s.hand + k + 1) % 2 = 1)
    (hplace : s.placeAt (s.hand + m + 1) = s.placeAt (s.hand + k + 1))
    (hsingle : ∀ i < 768, ∀ i' < 768, s.entry s.currentPd i % 2 = 1 →
      s.entry s.currentPd i' % 2 = 1 →
      s.entry s.currentPd i / 4096 = s.entry s.currentPd i' / 4096 → i = i') : m + 786432 = k := by
  obtain ⟨htable, hindex⟩ := Prod.mk.inj hplace
  have hdir := hsingle _ (Nat.mod_lt _ (by decide)) _ (Nat.mod_lt _ (by decide))
    (entry_of_pte hm) (entry_of_pte hp) htable
  omega

/-- The states of the code are those of the general clock: only Accessed bits change. -/
structure Follows (s t : Paging D) (k : ℕ) : Prop extends s.SameButUsed t where
  used_eq : ∀ w : ℕ × ℕ, w.2 < 1024 → t.used w = Clock.bits s.itemAt s.used k w

theorem Follows.secondChance (h : s.Follows t k) (hs : s.currentPd % 4096 = 0) :
    s.Follows (t.secondChance (s.hand + k + 1)) (k + 1) := by
  generalize hx : s.hand + k + 1 = x
  have hplace := h.placeAt hs x
  have hpresent := h.present hs x
  have hj : x % 1024 < 1024 := by omega
  rw [Paging.secondChance]
  by_cases hp : s.wordAt x % 2 = 1
  · have hitem : s.itemAt k = some (s.placeAt x) := by rw [itemAt, hx, if_pos hp]
    have hused := used_placeAt (hpresent.trans hp)
    rw [hplace] at hused
    by_cases hacc : t.wordAt x / 32 % 2 = 1
    · -- the bit of this word is cleared, and no other
      rw [if_pos ⟨hpresent.trans hp, hacc⟩, hplace]
      have hself : ((t.handAt x).setEntry ((s.placeAt x).1 * 4096) (x % 1024)
          (clearAccessed (t.wordAt x))).entry ((s.placeAt x).1 * 4096) (s.placeAt x).2 =
          clearAccessed (t.wordAt x) :=
        (entry_setEntry_self _ _ _ _).trans (u32_of_lt (clearAccessed_lt _))
      have hother : ∀ b, b % 4096 = 0 → ∀ i < 1024, b ≠ (s.placeAt x).1 * 4096 ∨ i ≠ x % 1024 →
          ((t.handAt x).setEntry ((s.placeAt x).1 * 4096) (x % 1024)
            (clearAccessed (t.wordAt x))).entry b i = t.entry b i :=
        fun b hb i hi hne => entry_setEntry_of_ne _ _ (Nat.mul_mod_left _ _) hb hj hi hne
      refine ⟨⟨h.currentPd, h.swap, fun b hb i hi => ?_⟩, fun w hw => ?_⟩
      · by_cases heq : b = (s.placeAt x).1 * 4096 ∧ i = x % 1024
        · rw [heq.1, heq.2]
          change clearAccessed (Paging.entry _ _ (s.placeAt x).2) = _
          rw [hself, ← h.words _ (Nat.mul_mod_left _ _) _ hj,
            wordAt_of_present (hpresent.trans hp), hplace]
          exact clearAccessed_idem _
        · rw [hother b hb i hi (by omega)]
          exact h.words b hb i hi
      · rw [Clock.bits_succ_of_some hitem]
        by_cases heq : w = s.placeAt x
        · rw [heq, update_self, used, hasFlag_accessed]
          exact decide_eq_false (by rw [hself, clearAccessed_accessed]; decide)
        · rw [update_of_ne heq, ← h.used_eq w hw, used, used, hother _
            (Nat.mul_mod_left _ _) _ hw]
          by_contra hboth
          push Not at hboth
          exact heq (Prod.ext (Nat.eq_of_mul_eq_mul_right (by decide) hboth.1) hboth.2)
    · -- the bit was clear
      rw [if_neg fun hand => hacc hand.2]
      rw [decide_eq_false hacc] at hused
      refine ⟨⟨h.currentPd, h.swap, h.words⟩, fun w hw => ?_⟩
      rw [Clock.bits_succ_of_some hitem]
      by_cases heq : w = s.placeAt x
      · rw [heq, update_self]
        exact hused
      · rw [update_of_ne heq]
        exact h.used_eq w hw
  · rw [if_neg fun hand => hp (hpresent.symm.trans hand.1)]
    refine ⟨⟨h.currentPd, h.swap, h.words⟩, fun w hw => ?_⟩
    rw [Clock.bits_succ_of_none (by rw [itemAt, hx, if_neg hp])]
    exact h.used_eq w hw

/-- **The hand follows the general clock.** -/
theorem follows_passed (hs : s.currentPd % 4096 = 0) (k : ℕ) : s.Follows (s.passed k) k := by
  induction k with
  | zero => exact ⟨SameButUsed.refl s, fun _ _ => rfl⟩
  | succ k ih => exact ih.secondChance hs

/-- The victims are the items the clock takes. -/
theorem victim_iff (hs : s.currentPd % 4096 = 0) (k : ℕ) :
    s.Victim k ↔ Clock.Takes s.itemAt s.used k (s.placeAt (s.hand + k + 1)) := by
  have hf := follows_passed hs k
  have hpresent := hf.present hs (s.hand + k + 1)
  rw [Victim, Clock.Takes, itemAt, hpresent]
  by_cases hp : s.wordAt (s.hand + k + 1) % 2 = 1
  · have hused := used_placeAt (hpresent.trans hp)
    rw [hf.placeAt hs, hf.used_eq _ (by rw [placeAt]; omega)] at hused
    rw [hused, if_pos hp, decide_eq_false_iff_not, and_iff_right hp, and_iff_right rfl]
  · rw [if_neg hp]
    exact iff_of_false (fun h => hp h.1) fun h => Option.some_ne_none _ h.1.symm

/-! ## The loop of `paging_evict_page` -/

/-- `get_virt_from_indices` of a position. -/
def virtAt (x : ℕ) : ℕ := getVirtFromIndices (x / 1024 % 768) (x % 1024)

theorem advanceHand_handAt (hpd : t.evictPdIdx = x / 1024 % 768) (hpt : t.evictPtIdx = x % 1024) :
    t.advanceHand = t.handAt (x + 1) := by
  rw [advanceHand, handAt, hpd, hpt]
  split_ifs <;> congr 1 <;> omega

/-- The last entry of the table at a position. -/
theorem handAt_last (t : Paging D) (x : ℕ) : t.handAt (x + (1023 - x % 1024)) =
    { t with evictPdIdx := x / 1024 % 768, evictPtIdx := 1023 } := by
  have hpd : (x + (1023 - x % 1024)) / 1024 % 768 = x / 1024 % 768 := by omega
  have hpt : (x + (1023 - x % 1024)) % 1024 = 1023 := by omega
  rw [handAt, hpd, hpt]

theorem passed_hand (hpd : s.evictPdIdx < 768) (hpt : s.evictPtIdx < 1024) (k : ℕ) :
    (s.passed k).evictPdIdx = (s.hand + k) / 1024 % 768 ∧
      (s.passed k).evictPtIdx = (s.hand + k) % 1024 := by
  cases k with
  | zero =>
    rw [passed, hand]
    omega
  | succ k =>
    rw [← Nat.add_assoc]
    rw [passed, secondChance]
    split_ifs <;> exact ⟨rfl, rfl⟩

theorem wordAt_of_noTable (h : t.entry t.currentPd (x / 1024 % 768) % 2 ≠ 1) : t.wordAt x = 0 :=
  pte_of_absent h _

theorem secondChance_of_absent (h : t.wordAt x % 2 ≠ 1) : t.secondChance x = t.handAt x :=
  if_neg fun hand => h hand.1

theorem passed_noTable (hx : s.hand + k + 1 = x)
    (hdir : (s.passed k).entry (s.passed k).currentPd (x / 1024 % 768) % 2 ≠ 1)
    (hm : x % 1024 + m < 1024) : s.passed (k + 1 + m) = (s.passed k).handAt (x + m) := by
  induction m with
  | zero =>
    rw [Nat.add_zero, Nat.add_zero, passed, hx]
    exact secondChance_of_absent (by rw [wordAt_of_noTable hdir]; decide)
  | succ m ih =>
    have hnext : s.hand + (k + 1 + m) + 1 = x + (m + 1) := by omega
    have hsame : (x + (m + 1)) / 1024 % 768 = x / 1024 % 768 := by omega
    have habsent : (s.passed k).wordAt (x + (m + 1)) = 0 :=
      wordAt_of_noTable (by rw [hsame]; exact hdir)
    rw [← Nat.add_assoc (k + 1), passed, hnext, ih (by omega)]
    exact secondChance_of_absent (by
      change (s.passed k).wordAt (x + (m + 1)) % 2 ≠ 1
      rw [habsent]
      decide)

theorem Victim.after_noTable (hv : s.Victim v) (hkv : k ≤ v) (hx : s.hand + k + 1 = x)
    (hdir : (s.passed k).entry (s.passed k).currentPd (x / 1024 % 768) % 2 ≠ 1) :
    1024 ≤ x % 1024 + (v - k) := by
  by_contra hlt
  have hsame : (s.hand + v + 1) / 1024 % 768 = x / 1024 % 768 := by omega
  have hword : (s.passed v).wordAt (s.hand + v + 1) = (s.passed k).wordAt (s.hand + v + 1) := by
    rcases Nat.eq_or_lt_of_le hkv with rfl | hlt'
    · rfl
    · have hpassed := passed_noTable (m := v - k - 1) hx hdir (by omega)
      rw [show k + 1 + (v - k - 1) = v by omega] at hpassed
      rw [hpassed]
      rfl
  have hp := hv.1
  rw [hword, wordAt_of_noTable (by rw [hsame]; exact hdir)] at hp
  cases hp

variable [Disk D]

/-- **The loop finds the first victim**, if it is within its checks. -/
theorem evictLoop_passed (hpd : s.evictPdIdx < 768) (hpt : s.evictPtIdx < 1024)
    (hv : s.Victim v) (hfirst : ∀ m < v, ¬ s.Victim m)
    (hout : (((s.passed v).handAt (s.hand + v + 1)).pagingSwapOut
      (virtAt (s.hand + v + 1))).2 = true) : ∀ n k, k ≤ v → v < k + n → evictLoop n (s.passed k) =
      ((((s.passed v).handAt (s.hand + v + 1)).pagingSwapOut
      (virtAt (s.hand + v + 1))).1, true) := by
  intro n
  induction n with
  | zero => exact fun k h1 h2 => absurd h2 (by omega)
  | succ n ih =>
    intro k hkv hlt
    obtain ⟨hpdk, hptk⟩ := passed_hand hpd hpt k
    rw [evictLoop, advanceHand_handAt hpdk hptk]
    generalize hx : s.hand + k + 1 = x
    have hpdx : ((s.passed k).handAt x).evictPdIdx = x / 1024 % 768 := rfl
    have hptx : ((s.passed k).handAt x).evictPtIdx = x % 1024 := rfl
    have hentry : ∀ b i, ((s.passed k).handAt x).entry b i = (s.passed k).entry b i :=
      fun _ _ => rfl
    have hcur : ((s.passed k).handAt x).currentPd = (s.passed k).currentPd := rfl
    simp only [hpdx, hptx, hentry, hcur, hasFlag_present, hasFlag_accessed, frameOf_entry,
      decide_eq_true_eq]
    by_cases hdir : (s.passed k).entry (s.passed k).currentPd (x / 1024 % 768) % 2 = 1
    · rw [if_pos hdir]
      have hword : (s.passed k).wordAt x = (s.passed k).entry
          ((s.passed k).entry (s.passed k).currentPd (x / 1024 % 768) / 4096 * 4096) (x % 1024) :=
        pte_of_present hdir _
      rw [← hword]
      by_cases hpage : (s.passed k).wordAt x % 2 = 1
      · rw [if_pos hpage]
        by_cases hacc : (s.passed k).wordAt x / 32 % 2 = 1
        · -- used: the hand passes
          have hne : k ≠ v := by
            rintro rfl
            exact hv.2 (hx ▸ hacc)
          have hnext : s.passed (k + 1) = ((s.passed k).handAt x).setEntry
              ((s.passed k).entry (s.passed k).currentPd (x / 1024 % 768) / 4096 * 4096) (x % 1024)
              (clearAccessed ((s.passed k).wordAt x)) := by
            rw [passed, hx, secondChance, if_pos ⟨hpage, hacc⟩]
            rfl
          rw [if_pos hacc, ← hnext]
          exact ih (k + 1) (by omega) (by omega)
        · -- the victim
          have hvk : s.Victim k := by
            rw [Victim, hx]
            exact ⟨hpage, hacc⟩
          obtain rfl : k = v := by
            by_contra hne
            exact hfirst k (by omega) hvk
          rw [hx] at hout ⊢
          rw [if_neg hacc]
          change (if (((s.passed k).handAt x).pagingSwapOut (virtAt x)).2 = true then _ else _) = _
          rw [if_pos hout]
          rfl
      · -- no page here
        have hne : k ≠ v := by
          rintro rfl
          exact hpage (hx ▸ hv.1)
        have hnext : s.passed (k + 1) = (s.passed k).handAt x := by
          rw [passed, hx, secondChance_of_absent hpage]
        rw [if_neg hpage, ← hnext]
        exact ih (k + 1) (by omega) (by omega)
    · -- no table: on to its last entry
      have hafter := hv.after_noTable hkv hx hdir
      have hj : x % 1024 < 1024 := Nat.mod_lt _ (by decide)
      rw [if_neg hdir]
      have hskip := handAt_last (s.passed k) x
      rw [← passed_noTable hx hdir (by omega)] at hskip
      exact hskip ▸ ih _ (by omega) (by omega)

theorem evictLoop_of_empty (hnone : ∀ i < 768, ∀ j < 1024, s.pte s.currentPd i j % 2 ≠ 1) :
    ∀ n pd pt, pd < 768 → ∃ pd' pt', evictLoop n { s with evictPdIdx := pd, evictPtIdx := pt } =
      ({ s with evictPdIdx := pd', evictPtIdx := pt' }, false) := by
  intro n
  induction n with
  | zero => exact fun pd pt _ => ⟨pd, pt, rfl⟩
  | succ n ih =>
    intro pd pt hpd
    obtain ⟨pd', pt', hadv, hpt', hpd'⟩ :=
      advanceHand_eq { s with evictPdIdx := pd, evictPtIdx := pt }
    have habsent := hnone pd' (hpd' hpd) pt' hpt'
    rw [evictLoop, hadv]
    simp only [hasFlag_present, hasFlag_accessed, frameOf_entry, decide_eq_true_eq]
    by_cases hdir : s.entry s.currentPd pd' % 2 = 1
    · rw [pte_of_present hdir] at habsent
      exact (if_pos hdir).trans (if_neg habsent) ▸ ih pd' pt' (hpd' hpd)
    · exact if_neg hdir ▸ ih pd' 1023 (hpd' hpd)

omit [Disk D] in
/-- If a page is present the hand comes to a victim within two rounds. -/
theorem exists_first_victim (hpd : s.evictPdIdx < 768) (hpt : s.evictPtIdx < 1024)
    (haligned : s.currentPd % 4096 = 0)
    (hpage : ∃ i < 768, ∃ j < 1024, s.pte s.currentPd i j % 2 = 1) :
    ∃ k < 2 * 786432, s.Victim k ∧ (∀ m < k, ¬ s.Victim m) ∧
      Clock.Takes s.itemAt s.used k (s.placeAt (s.hand + k + 1)) ∧
      s.wordAt (s.hand + k + 1) % 2 = 1 := by
  obtain ⟨i, hi, j, hj, hp⟩ := hpage
  obtain ⟨n, hn, w, hw⟩ := exists_itemAt hpd hpt hi hj hp
  obtain ⟨k, hk, ⟨v, hv⟩, hfirst⟩ : ∃ k < 2 * 786432,
      (∃ v, Clock.Takes s.itemAt s.used k v) ∧ ∀ m < k, ∀ v, ¬ Clock.Takes s.itemAt s.used m v :=
    Clock.exists_first_taken s.itemAt_period hn hw
  have hplace : s.wordAt (s.hand + k + 1) % 2 = 1 ∧ v = s.placeAt (s.hand + k + 1) := by
    have hitem := hv.1
    rw [itemAt] at hitem
    split_ifs at hitem with hpresent
    exact ⟨hpresent, (Option.some.inj hitem).symm⟩
  obtain ⟨hpresent, rfl⟩ := hplace
  exact ⟨k, hk, (victim_iff haligned k).mpr hv,
    fun m hm hvm => hfirst m hm _ ((victim_iff haligned m).mp hvm), hv, hpresent⟩

/-- A page the hand has come to can be swapped out if the swap area takes any page. -/
theorem exists_swapOut_passed (haligned : s.currentPd % 4096 = 0)
    (hswap : ∀ buffer, (s.swap.swapOut buffer).2 ≠ none) {k x : ℕ}
    (hp : (s.passed k).wordAt x % 2 = 1) :
    ∃ s' slot port, ((s.passed k).handAt x).pagingSwapOut (virtAt x) = (s', true) ∧
      ((s.passed k).handAt x).SwappedOut s' (x / 1024 % 768) (x % 1024) slot port := by
  have hj : x % 1024 < 1024 := Nat.mod_lt _ (by decide)
  obtain ⟨hi', hj'⟩ := index_of_virt (i := x / 1024 % 768) hj
  have hvirt : virtAt x = x / 1024 % 768 * 4194304 + x % 1024 * 4096 :=
    getVirtFromIndices_eq (by omega) hj
  have hsw : ((s.passed k).handAt x).swap = s.swap := (follows_passed haligned k).swap
  obtain ⟨s', slot, port, hout, h⟩ := exists_swapOut (s := (s.passed k).handAt x) (virtAt x)
    (by omega) (by rw [hvirt, hi', hj']; exact hp) (hsw ▸ hswap _)
  rw [hvirt, hi', hj'] at h
  exact ⟨s', slot, port, hout, h⟩

/-- **Eviction succeeds** if a page is present and the swap area takes any page: after some steps of
the hand one page is swapped out. -/
theorem pagingEvictPage_of_page (hpd : s.evictPdIdx < 768) (hpt : s.evictPtIdx < 1024)
    (haligned : s.currentPd % 4096 = 0) (hswap : ∀ buffer, (s.swap.swapOut buffer).2 ≠ none)
    (hpage : ∃ i < 768, ∃ j < 1024, s.pte s.currentPd i j % 2 = 1) :
    ∃ k x s' slot port, s.pagingEvictPage = (s', true) ∧
      ((s.passed k).handAt x).SwappedOut s' (x / 1024 % 768) (x % 1024) slot port := by
  obtain ⟨k, hk, hv, hfirst, -⟩ := exists_first_victim hpd hpt haligned hpage
  obtain ⟨s', slot, port, hout, h⟩ := exists_swapOut_passed haligned hswap hv.1
  have hloop := evictLoop_passed hpd hpt hv hfirst (by rw [hout]) (768 * 1024 * 2) 0
    (Nat.zero_le k) (by omega)
  rw [hout] at hloop
  exact ⟨k, _, s', slot, port, hloop, h⟩

/-- **Clock eviction.** If a page is present and can be swapped out, `paging_evict_page` swaps out
the first one after the hand whose Accessed bit was clear when visited; one whose bit was set at the
start has been passed before. Otherwise only the hand moves. -/
theorem clock_evicts_first_unused (hpd : s.evictPdIdx < 768) (hpt : s.evictPtIdx < 1024)
    (haligned : s.currentPd % 4096 = 0) (hwilling : ∀ k x, (s.passed k).wordAt x % 2 = 1 →
      (((s.passed k).handAt x).pagingSwapOut (virtAt x)).2 = true) :
    ((∃ i < 768, ∃ j < 1024, s.pte s.currentPd i j % 2 = 1) →
      ∃ k < 768 * 1024 * 2, s.Victim k ∧ (∀ m < k, ¬ s.Victim m) ∧
        s.pagingEvictPage = ((((s.passed k).handAt (s.hand + k + 1)).pagingSwapOut
          (virtAt (s.hand + k + 1))).1, true) ∧ (s.wordAt (s.hand + k + 1) / 32 % 2 = 1 →
          ∃ m < k, s.placeAt (s.hand + m + 1) = s.placeAt (s.hand + k + 1) ∧
            (s.passed m).wordAt (s.hand + k + 1) / 32 % 2 = 1 ∧
            (s.passed (m + 1)).wordAt (s.hand + k + 1) / 32 % 2 ≠ 1 ∧
            ((∀ i < 768, ∀ i' < 768, s.entry s.currentPd i % 2 = 1 →
              s.entry s.currentPd i' % 2 = 1 →
              s.entry s.currentPd i / 4096 = s.entry s.currentPd i' / 4096 → i = i') →
              m + 768 * 1024 = k))) ∧ ((∀ i < 768, ∀ j < 1024, s.pte s.currentPd i j % 2 ≠ 1) →
      ∃ pd pt, s.pagingEvictPage = ({ s with evictPdIdx := pd, evictPtIdx := pt }, false)) := by
  constructor
  · intro hpage
    obtain ⟨k, hk, hvictim, hnone, hv, hpresent⟩ := exists_first_victim hpd hpt haligned hpage
    refine ⟨k, by omega, hvictim, hnone, ?_, fun hset => ?_⟩
    · exact evictLoop_passed hpd hpt hvictim hnone (hwilling k _ hvictim.1) _ 0 (Nat.zero_le k)
        (by omega)
    · -- the bit was cleared when the hand came by the first time
      have hbit : s.used (s.placeAt (s.hand + k + 1)) = true := by
        rw [used_placeAt hpresent]
        exact decide_eq_true hset
      obtain ⟨m, hm, hitem, hbefore, hafter⟩ := hv.second_chance hbit
      have hat : s.wordAt (s.hand + m + 1) % 2 = 1 ∧
          s.placeAt (s.hand + m + 1) = s.placeAt (s.hand + k + 1) := by
        rw [itemAt] at hitem
        split_ifs at hitem with hpm
        exact ⟨hpm, Option.some.inj hitem⟩
      have hread : ∀ n, Clock.bits s.itemAt s.used n (s.placeAt (s.hand + k + 1)) =
          decide ((s.passed n).wordAt (s.hand + k + 1) / 32 % 2 = 1) := by
        intro n
        have hf := follows_passed haligned n
        rw [← hf.used_eq _ (Nat.mod_lt _ (by decide)), ← hf.placeAt haligned,
          used_placeAt ((hf.present haligned _).trans hpresent)]
      rw [hread] at hbefore hafter
      exact ⟨m, hm, hat.2, of_decide_eq_true hbefore, of_decide_eq_false hafter,
        fun hsingle => passed_once hm (by omega) hat.1 hpresent hat.2 hsingle⟩
  · exact fun hnone => evictLoop_of_empty hnone _ s.evictPdIdx s.evictPtIdx hpd

/-- After the start of the small machine, with an empty swap area, a page is evicted. -/
theorem clock_evicts_first_unused_start : ∃ (s : Paging DiskImage) (k : ℕ), s.Victim k ∧
    (∀ m < k, ¬ s.Victim m) ∧ s.pagingEvictPage.2 = true := by
  obtain ⟨pmm, s, -, -, hstart, -⟩ :=
    exists_small_start (D := DiskImage) (fun _ => 0) (fun _ _ _ => 0)
  obtain ⟨own, hpages⟩ := hstart.pageInv
  obtain ⟨z, hz, hswap, hhand⟩ : ∃ z : Paging DiskImage, z.PageInv z.currentPd [z.currentPd] own ∧
      z.swap = blankSwap ∧ z.evictPdIdx = 0 ∧ z.evictPtIdx = 0 ∧
      z.pte z.currentPd 0 0 = s.pte s.currentPd 0 0 :=
    ⟨{ s with swap := blankSwap }, hpages.congr rfl rfl, rfl, hstart.hand.1, hstart.hand.2, rfl⟩
  obtain ⟨hpd, hpt, hpte⟩ := hhand
  have haligned := hz.dir_aligned _ (List.mem_singleton_self _)
  have hwilling : ∀ k x, (z.passed k).wordAt x % 2 = 1 →
      (((z.passed k).handAt x).pagingSwapOut (virtAt x)).2 = true := by
    intro k x hp
    obtain ⟨s', slot, port, hout, -⟩ := exists_swapOut_passed haligned (fun buffer => by
      rw [hswap, blankSwap_swapOut]
      exact Option.some_ne_none _) hp
    rw [hout]
  obtain ⟨hevict, -⟩ := clock_evicts_first_unused (by rw [hpd]; decide) (by rw [hpt]; decide)
    haligned hwilling
  obtain ⟨k, -, hv, hnone, hrun, -⟩ := hevict ⟨0, by decide, 0, by decide, by
    rw [hpte, hstart.identity 0 (by decide)]
    exact pageEntry_mod_two _ _⟩
  exact ⟨z, k, hv, hnone, by rw [hrun]⟩

end Paging

end PenOS
