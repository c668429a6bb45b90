import PenOS.PageOwn
import Mathlib.Logic.Relation

/-!
# Swapping out and eviction

`paging_evict_page` is a sequence of three kinds of steps: the hand moves, an Accessed bit is
cleared, a page is swapped out. An allocation that finds no free frame evicts first, so it is some
of these steps and then one with a free frame at hand.
-/

namespace PenOS

variable {D : Type} [Disk D]
variable {d i j k l pd port slot virt : ℕ}

/-- The slot `swap_out` chose and what it did to the statics and the disk. -/
structure SwapWritten (s s' : Swap D) (buffer : ℕ → UInt8) (slot port : ℕ) : Prop where
  port_eq : s.swapPort = some port
  slot_lt : slot < swapSizePages
  was_free : s.swapBitmap.test slot = false
  written : (Disk.ahciWrite s.disk port (slotLba slot) buffer).2 = true
  result : s' = ⟨s.swapBitmap.set slot, s.swapPort,
    (Disk.ahciWrite s.disk port (slotLba slot) buffer).1⟩

/-- The disk after a page was not written: it was not asked, or it refused. -/
def NotWritten (disk disk' : D) : Prop :=
  disk' = disk ∨ ∃ port lba buffer, Disk.ahciWrite disk port lba buffer = (disk', false)

theorem Swap.swapOut_cases (s : Swap D) (buffer : ℕ → UInt8) :
    (∃ disk, NotWritten s.disk disk ∧ s.swapOut buffer = ({ s with disk := disk }, none)) ∨
    ∃ s' slot port, s.swapOut buffer = (s', some slot) ∧ SwapWritten s s' buffer slot port := by
  obtain ⟨p, hport⟩ : ∃ p, s.swapPort = p := ⟨_, rfl⟩
  rcases p with _ | port
  · refine .inl ⟨s.disk, .inl rfl, ?_⟩
    exact show s.swapOut buffer = (s, none) by simp only [swapOut, hport]
  rcases hslot : s.findFreeSlot with _ | slot
  · refine .inl ⟨s.disk, .inl rfl, ?_⟩
    exact show s.swapOut buffer = (s, none) by simp only [swapOut, hport, hslot]
  rcases hw : (Disk.ahciWrite s.disk port (slotLba slot) buffer).2 with _ | _
  · refine .inl ⟨(Disk.ahciWrite s.disk port (slotLba slot) buffer).1,
      .inr ⟨port, slotLba slot, buffer, Prod.ext rfl hw⟩, ?_⟩
    simp only [swapOut, hport, hslot, hw, Bool.not_false, if_true]
  · obtain ⟨-, hlt, hfree, -⟩ := firstIn_eq_some hslot
    refine .inr ⟨_, slot, port, ?_, hport, hlt, by simpa using hfree, hw, rfl⟩
    simp only [swapOut, hport, hslot, hw, markSlot, Bool.not_true, if_true]
    rfl

namespace Paging

variable {s s' : Paging D} {boot : ℕ} {live : List ℕ} {own own' : ℕ → Role}

/-! ## `paging_swap_out` -/

section

omit [Disk D]

theorem pdIndex_page (hv : virt < 4294967296) : pdIndex (virt &&& 0xFFFFF000) = pdIndex virt := by
  rw [and_pageMask hv, pdIndex, pdIndex]
  omega

theorem ptIndex_page (hv : virt < 4294967296) : ptIndex (virt &&& 0xFFFFF000) = ptIndex virt := by
  rw [and_pageMask hv, ptIndex, ptIndex]
  omega

theorem virtToPhys_page (hv : virt < 4294967296)
    (hp : s.pte s.currentPd (pdIndex virt) (ptIndex virt) % 2 = 1) :
    s.pagingVirtToPhys (virt &&& 0xFFFFF000) =
      s.pte s.currentPd (pdIndex virt) (ptIndex virt) / 4096 * 4096 := by
  rw [pagingVirtToPhys_eq, pdIndex_page hv, ptIndex_page hv, if_pos hp, and_pageMask hv]
  omega

end

/-- What a successful `paging_swap_out` leaves: the word of the page names the slot,
and its frame is back with the manager. -/
structure SwappedOut (s s' : Paging D) (i j slot port : ℕ) : Prop where
  present : s.pte s.currentPd i j % 2 = 1
  swap : SwapWritten s.swap s'.swap (s.pageAt (s.pte s.currentPd i j / 4096 * 4096)) slot port
  result : s' =
    { s.setEntry (s.entry s.currentPd i / 4096 * 4096) j (slot * 4096 + 512) with
      swap := s'.swap
      pmm := pmmFreeFrame s.pmm (s.pte s.currentPd i j / 4096 * 4096) }

theorem pagingSwapOut_cases (hv : virt < 4294967296) : (∃ disk, NotWritten s.swap.disk disk ∧
      s.pagingSwapOut virt = ({ s with swap := { s.swap with disk := disk } }, false) ∧
      (s.pte s.currentPd (pdIndex virt) (ptIndex virt) % 2 = 1 → (s.swap.swapOut (s.pageAt
        (s.pte s.currentPd (pdIndex virt) (ptIndex virt) / 4096 * 4096))).2 = none)) ∨
    ∃ s' slot port, s.pagingSwapOut virt = (s', true) ∧
      s.SwappedOut s' (pdIndex virt) (ptIndex virt) slot port := by
  by_cases hp : s.pte s.currentPd (pdIndex virt) (ptIndex virt) % 2 = 1
  · have htable := entry_of_pte hp
    have hfind : s.findPageTable (virt &&& 0xFFFFF000) =
        some (s.entry s.currentPd (pdIndex virt) / 4096 * 4096) := by
      rw [findPageTable_eq, pdIndex_page hv, if_pos htable]
    have hword := pte_of_present htable (ptIndex virt)
    simp only [pagingSwapOut, hfind, ptIndex_page hv, ← hword, hasFlag_present, decide_eq_true hp,
      Bool.not_true, Bool.false_eq_true, if_false, virtToPhys_page hv hp]
    rcases s.swap.swapOut_cases (s.pageAt
      (s.pte s.currentPd (pdIndex virt) (ptIndex virt) / 4096 * 4096)) with
      ⟨disk, hdisk, hout⟩ | ⟨sw, slot, port, hout, hw⟩
    · exact .inl ⟨disk, hdisk, by rw [hout], fun _ => by rw [hout]⟩
    · have hlt : slot < 4096 := hw.slot_lt
      have hslot : u32 (slot * 4096) ||| pageSwapped = slot * 4096 + 512 := by
        rw [u32_of_lt (by omega)]
        exact or_offset slot (by decide)
      refine .inr ⟨{ s.setEntry (s.entry s.currentPd (pdIndex virt) / 4096 * 4096) (ptIndex virt)
        (slot * 4096 + 512) with
        swap := sw
        pmm := pmmFreeFrame s.pmm
          (s.pte s.currentPd (pdIndex virt) (ptIndex virt) / 4096 * 4096) }, slot, port, ?_,
        hp, hw, rfl⟩
      simp only [hout, hslot, frameOf_eq (s.pte_lt _ _ _)]
      rfl
  · refine .inl ⟨s.swap.disk, .inl rfl, ?_, fun h => absurd h hp⟩
    simp only [pagingSwapOut, findPageTable_eq, pdIndex_page hv, ptIndex_page hv]
    by_cases htable : s.entry s.currentPd (pdIndex virt) % 2 = 1
    · rw [pte_of_present htable] at hp
      simp [htable, hp]
    · simp [htable]

theorem exists_swapOut (virt : ℕ) (hv : virt < 4294967296)
    (hp : s.pte s.currentPd (pdIndex virt) (ptIndex virt) % 2 = 1) (hout : (s.swap.swapOut (s.pageAt
      (s.pte s.currentPd (pdIndex virt) (ptIndex virt) / 4096 * 4096))).2 ≠ none) :
    ∃ s' slot port, s.pagingSwapOut virt = (s', true) ∧
      s.SwappedOut s' (pdIndex virt) (ptIndex virt) slot port := by
  rcases pagingSwapOut_cases (s := s) hv with ⟨-, -, -, hnone⟩ | h
  · exact absurd (hnone hp) hout
  · exact h

/-! ## The steps of the clock -/

/-- One step of `paging_evict_page` in the user half of the current directory. -/
inductive EvictStep (s : Paging D) : Paging D → Prop where
  /-- the hand moves -/
  | hand (pd pt : ℕ) (hpd : pd < 768) :
      EvictStep s { s with evictPdIdx := pd, evictPtIdx := pt }
  /-- second chance: the Accessed bit is cleared -/
  | clear (i j : ℕ) (hi : i < 768) (hj : j < 1024) (hp : s.pte s.currentPd i j % 2 = 1) :
      EvictStep s (s.setEntry (s.entry s.currentPd i / 4096 * 4096) j
        (clearAccessed (s.pte s.currentPd i j)))
  /-- the transfer of a page failed -/
  | failed (disk : D) (h : NotWritten s.swap.disk disk) :
      EvictStep s { s with swap := { s.swap with disk := disk } }
  /-- a page is swapped out -/
  | swapped {s' : Paging D} (i j slot port : ℕ) (hi : i < 768) (hj : j < 1024)
      (h : s.SwappedOut s' i j slot port) : EvictStep s s'

/-- Any number of steps. -/
abbrev EvictSteps : Paging D → Paging D → Prop := Relation.ReflTransGen EvictStep

omit [Disk D] in
theorem getVirtFromIndices_eq {pt : ℕ} (hpd : pd < 1024) (hpt : pt < 1024) :
    getVirtFromIndices pd pt = pd * 4194304 + pt * 4096 := by
  rw [getVirtFromIndices, u32_of_lt (by omega), u32_of_lt (by omega)]
  have h : 4194304 * pd + pt * 4096 = 4194304 * pd ||| pt * 4096 :=
    Nat.two_pow_add_eq_or_of_lt (i := 22) (by omega) pd
  rw [mul_comm pd, h]

omit [Disk D] in
theorem index_of_virt (hj : j < 1024) :
    pdIndex (i * 4194304 + j * 4096) = i ∧ ptIndex (i * 4194304 + j * 4096) = j := by
  simp only [pdIndex, ptIndex]
  omega

theorem evictStep_swapOut (hi : i < 768) (hj : j < 1024) :
    EvictStep s (s.pagingSwapOut (i * 4194304 + j * 4096)).1 := by
  obtain ⟨hpd, hpt⟩ := index_of_virt hj
  have hv : i * 4194304 + j * 4096 < 4294967296 := by omega
  rcases pagingSwapOut_cases (s := s) hv with ⟨disk, hdisk, hout, -⟩ | ⟨s', slot, port, hout, h⟩
  · rw [hout]
    exact .failed disk hdisk
  · rw [hout]
    rw [hpd, hpt] at h
    exact .swapped i j slot port hi hj h

omit [Disk D] in
theorem advanceHand_eq (s : Paging D) : ∃ pd pt,
    s.advanceHand = { s with evictPdIdx := pd, evictPtIdx := pt } ∧ pt < 1024 ∧
      (s.evictPdIdx < 768 → pd < 768) := by
  simp only [advanceHand]
  split_ifs with h1 h2
  · exact ⟨0, 0, rfl, by decide, fun _ => by decide⟩
  · exact ⟨s.evictPdIdx + 1, 0, rfl, by decide, fun _ => by omega⟩
  · exact ⟨s.evictPdIdx, s.evictPtIdx + 1, rfl, by omega, id⟩

/-- **Eviction is a sequence of steps.** If it reports success, the last one swapped a
page out. -/
theorem evictLoop_steps (n : ℕ) (hhand : s.evictPdIdx < 768) :
    EvictSteps s (evictLoop n s).1 ∧ ((evictLoop n s).2 = true →
      ∃ s1 i j slot port, EvictSteps s s1 ∧ i < 768 ∧ j < 1024 ∧
        s1.SwappedOut (evictLoop n s).1 i j slot port) := by
  induction n generalizing s with
  | zero => exact ⟨.refl, fun h => absurd h Bool.false_ne_true⟩
  | succ n ih =>
    obtain ⟨pd, pt, hadv, hpt, hpd⟩ := s.advanceHand_eq
    have hpd := hpd hhand
    have hmove : EvictSteps s s.advanceHand := hadv ▸ .single (.hand pd pt hpd)
    -- what follows the first moves of the hand
    have hgo : ∀ s1 : Paging D, EvictSteps s s1 → s1.evictPdIdx < 768 →
        EvictSteps s (evictLoop n s1).1 ∧ ((evictLoop n s1).2 = true →
          ∃ s2 i j slot port, EvictSteps s s2 ∧ i < 768 ∧ j < 1024 ∧
            s2.SwappedOut (evictLoop n s1).1 i j slot port) := by
      intro s1 hs1 hh
      obtain ⟨h1, h2⟩ := ih hh
      refine ⟨hs1.trans h1, fun ht => ?_⟩
      obtain ⟨s2, i, j, slot, port, hs2, h⟩ := h2 ht
      exact ⟨s2, i, j, slot, port, hs1.trans hs2, h⟩
    have hpd' : s.advanceHand.evictPdIdx = pd := by rw [hadv]
    have hpt' : s.advanceHand.evictPtIdx = pt := by rw [hadv]
    rw [evictLoop]
    simp only [hpd', hpt', hasFlag_present, hasFlag_accessed, frameOf_entry, decide_eq_true_eq]
    generalize s.advanceHand = s1 at hmove hpd' hpt' ⊢
    split_ifs with hdir hpage hacc hout
    · -- the page was used: clear the bit and go on
      have hpte := pte_of_present hdir pt
      rw [← hpte] at hpage ⊢
      exact hgo _ (hmove.tail (.clear pd pt hpd hpt hpage)) (hpd' ▸ hpd)
    · -- a victim, and the transfer succeeded
      rw [getVirtFromIndices_eq (by omega) hpt] at hout ⊢
      refine ⟨hmove.tail (evictStep_swapOut hpd hpt), fun _ => ?_⟩
      have hv : pd * 4194304 + pt * 4096 < 4294967296 := by omega
      obtain ⟨hi, hj⟩ := index_of_virt hpt
      rcases pagingSwapOut_cases (s := s1) hv with ⟨disk, -, hres, -⟩ | ⟨s', slot, port, hres, h⟩
      · rw [hres] at hout
        cases hout
      · rw [hi, hj] at h
        rw [hres]
        exact ⟨s1, pd, pt, slot, port, hmove, hpd, hpt, h⟩
    · -- a victim that could not be written
      rw [getVirtFromIndices_eq (by omega) hpt] at hout ⊢
      have hv : pd * 4194304 + pt * 4096 < 4294967296 := by omega
      rcases pagingSwapOut_cases (s := s1) hv with
        ⟨disk, hdisk, hres, -⟩ | ⟨s', slot, port, hres, h⟩
      · rw [hres]
        exact hgo _ (hmove.tail (.failed disk hdisk)) (hpd' ▸ hpd)
      · rw [hres] at hout
        exact absurd rfl hout
    · exact hgo s1 hmove (hpd' ▸ hpd)
    · -- no table: skip to its last entry
      exact hgo _ (hmove.tail (.hand pd 1023 hpd)) hpd

theorem allocFrameZero_steps (hs : s.pmm.Inv) (hhand : s.evictPdIdx < 768) {r : Paging D × ℕ}
    (h : s.allocFrameZero = .ok r) (hinv : ∀ s1, EvictSteps s s1 → s1.pmm.Inv) :
    ∃ s1, EvictSteps s s1 ∧ s1.pmm.freeSet.Nonempty ∧ s1.allocFrameZero = .ok r := by
  by_cases hne : s.pmm.freeSet.Nonempty
  · exact ⟨s, .refl, hne, h⟩
  have he := Finset.not_nonempty_iff_eq_empty.mp hne
  obtain ⟨hsteps, -⟩ := evictLoop_steps (768 * 1024 * 2) hhand
  have hs1 := hinv _ hsteps
  simp only [allocFrameZero, pmmAllocFrame_of_empty hs he, if_true, pagingEvictPage] at h
  generalize evictLoop (768 * 1024 * 2) s = out at hsteps hs1 h
  split_ifs at h with hout hz
  refine ⟨out.1, hsteps, ?_, ?_⟩
  · by_contra hno
    rw [pmmAllocFrame_of_empty hs1 (Finset.not_nonempty_iff_eq_empty.mp hno)] at hz
    exact hz rfl
  · simp only [allocFrameZero, if_neg hz]
    exact h

/-- An eviction frees one frame at most. -/
theorem evictLoop_pmm (n : ℕ) (s : Paging D) :
    (evictLoop n s).1.pmm = s.pmm ∨ ∃ addr, (evictLoop n s).1.pmm = pmmFreeFrame s.pmm addr := by
  induction n generalizing s with
  | zero => exact .inl rfl
  | succ n ih =>
    have hadv : s.advanceHand.pmm = s.pmm := by
      simp only [advanceHand]
      split_ifs <;> rfl
    -- a page that is not swapped out leaves the frames alone
    have hout : ∀ (t : Paging D) virt, ((t.pagingSwapOut virt).2 = true →
        ∃ addr, (t.pagingSwapOut virt).1.pmm = pmmFreeFrame t.pmm addr) ∧
        ((t.pagingSwapOut virt).2 ≠ true → (t.pagingSwapOut virt).1.pmm = t.pmm) := by
      intro t virt
      simp only [pagingSwapOut]
      rcases t.findPageTable (virt &&& 0xFFFFF000) with _ | table
      · simp
      dsimp only
      split_ifs
      · simp
      split
      · simp
      · simp only [ne_eq, not_true_eq_false, false_implies, and_true, forall_const]
        exact ⟨_, rfl⟩
    simp only [evictLoop]
    split_ifs with h1 h2 h3 h4
    · rw [← hadv]
      exact ih _
    · rw [← hadv]
      exact .inr ((hout _ _).1 h4)
    · rw [← hadv, ← (hout _ _).2 h4]
      exact ih _
    · rw [← hadv]
      exact ih _
    · rw [← hadv]
      exact ih _

theorem allocFrameZero_card {a : ℕ} (hs : s.pmm.Inv) (h : s.allocFrameZero = .ok (s', a)) :
    s'.pmm.Inv ∧ s'.pmm.freeSet.card ≤ s.pmm.freeSet.card - 1 := by
  have hinv := pmmAllocFrame_inv hs
  obtain ⟨hcard, hzero⟩ := card_pmmAllocFrame hs
  simp only [allocFrameZero] at h
  split_ifs at h with h0 <;> cases h
  · -- what an eviction frees is taken again
    have hnone : s.pmm.freeSet.card = 0 := Finset.card_eq_zero.mpr (hzero.mp h0)
    have hfreed : (pagingEvictPage { s with pmm := (pmmAllocFrame s.pmm).1 }).1.pmm.Inv ∧
        (pagingEvictPage { s with pmm := (pmmAllocFrame s.pmm).1 }).1.pmm.freeSet.card ≤ 1 := by
      rcases evictLoop_pmm (768 * 1024 * 2) { s with pmm := (pmmAllocFrame s.pmm).1 } with
        heq | ⟨addr, heq⟩ <;> rw [pagingEvictPage, heq]
      · exact ⟨hinv, hcard.le.trans (by omega)⟩
      · exact ⟨pmmFreeFrame_inv hinv addr, (card_pmmFreeFrame_le hinv addr).trans (by omega)⟩
    refine ⟨pmmAllocFrame_inv hfreed.1, ?_⟩
    change (pmmAllocFrame _).1.freeSet.card ≤ _
    rw [(card_pmmAllocFrame hfreed.1).1]
    omega
  · exact ⟨hinv, hcard.le⟩

/-! ## What eviction keeps -/

section

omit [Disk D]

/-- Eviction in a directory whose pages have no other use: pages of the current user half may lose
their frame, and no other frame changes its role. -/
structure Evicted (s s' : Paging D) (boot : ℕ) (live : List ℕ) (own own' : ℕ → Role) : Prop where
  inv : s'.PageInv boot live own'
  currentPd : s'.currentPd = s.currentPd
  hand : s.evictPdIdx < 768 → s'.evictPdIdx < 768
  range : s'.pmm.baseUsableFrame = s.pmm.baseUsableFrame ∧ s'.pmm.totalFrames = s.pmm.totalFrames
  own_kept : ∀ g, (∀ d i j, own g ≠ .userPage d i j) → own' g = own g
  own_page : ∀ g, own' g = own g ∨ own' g = .free
  bytes : ∀ x, (own (x / 4096)).Loose → s'.mem x = s.mem x
  entry_eq : ∀ d ∈ live, ∀ i < 1024, s'.entry d i = s.entry d i
  pte_other : ∀ d ∈ live, ∀ i < 1023, ∀ j < 1024, d ≠ s.currentPd ∨ 768 ≤ i →
    s'.pte d i j = s.pte d i j
  pte_absent : ∀ d ∈ live, ∀ i < 1023, ∀ j < 1024, s.pte d i j % 2 ≠ 1 →
    s'.pte d i j = s.pte d i j

theorem Evicted.refl (hs : s.PageInv boot live own) : s.Evicted s boot live own own :=
  ⟨hs, rfl, id, ⟨rfl, rfl⟩, fun _ _ => rfl, fun _ => .inl rfl, fun _ _ => rfl,
    fun _ _ _ _ => rfl, fun _ _ _ _ _ _ _ => rfl, fun _ _ _ _ _ _ _ => rfl⟩

theorem Evicted.trans {s1 : Paging D} {own1 : ℕ → Role} (h : s.Evicted s1 boot live own own1)
    (h' : s1.Evicted s' boot live own1 own') : s.Evicted s' boot live own own' where
  inv := h'.inv
  currentPd := h'.currentPd.trans h.currentPd
  hand := h'.hand ∘ h.hand
  range := ⟨h'.range.1.trans h.range.1, h'.range.2.trans h.range.2⟩
  own_kept g hg := by
    have h1 := h.own_kept g hg
    rw [h'.own_kept g (by rw [h1]; exact hg), h1]
  own_page g := by
    rcases h'.own_page g with h1 | h1
    · rw [h1]
      exact h.own_page g
    · exact .inr h1
  bytes x hl := by
    have hl1 : (own1 (x / 4096)).Loose := by
      rcases h.own_page (x / 4096) with h1 | h1
      · rw [h1]
        exact hl
      · rw [h1]
        trivial
    rw [h'.bytes x hl1, h.bytes x hl]
  entry_eq d hd i hi := (h'.entry_eq d hd i hi).trans (h.entry_eq d hd i hi)
  pte_other d hd i hi j hj hne :=
    (h'.pte_other d hd i hi j hj (h.currentPd ▸ hne)).trans (h.pte_other d hd i hi j hj hne)
  pte_absent d hd i hi j hj ha := by
    have h1 := h.pte_absent d hd i hi j hj ha
    rw [h'.pte_absent d hd i hi j hj (by rw [h1]; exact ha), h1]

/-- Changes to hand and disk only. -/
theorem Evicted.of_same (hs : s.PageInv boot live own) (hmem : s'.mem = s.mem)
    (hpmm : s'.pmm = s.pmm) (hcur : s'.currentPd = s.currentPd)
    (hhand : s.evictPdIdx < 768 → s'.evictPdIdx < 768) : s.Evicted s' boot live own own :=
  ⟨hs.congr hmem hpmm, hcur, hhand, by rw [hpmm]; exact ⟨rfl, rfl⟩, fun _ _ => rfl,
    fun _ => .inl rfl, fun _ _ => by rw [hmem],
    fun _ _ _ _ => entry_congr hmem _ _, fun _ _ _ _ _ _ _ => pte_congr hmem _ _ _,
    fun _ _ _ _ _ _ _ => pte_congr hmem _ _ _⟩

theorem exclusive_user (hne : d ≠ boot) (hi : i < 768) : Exclusive boot d i :=
  .inl ⟨hi, .inl hne⟩

theorem PageInv.evictClear (hs : s.PageInv boot live own) (hcur : s.currentPd ∈ live)
    (hi : i < 768) (hj : j < 1024) (hp : s.pte s.currentPd i j % 2 = 1) :
    s.Evicted (s.setEntry (s.entry s.currentPd i / 4096 * 4096) j
      (clearAccessed (s.pte s.currentPd i j))) boot live own own := by
  have htable := entry_of_pte hp
  have hword : u32 (clearAccessed (s.pte s.currentPd i j)) =
      clearAccessed (s.pte s.currentPd i j) := u32_of_lt (clearAccessed_lt _)
  refine ⟨hs.setPte hcur (by omega) hj htable fun _ he => ?_, rfl, id, ⟨rfl, rfl⟩, fun _ _ => rfl,
    fun _ => .inl rfl, hs.bytes_setPte hcur (by omega) hj htable,
    fun d hd k hk => hs.entry_setPte hcur (by omega) hj htable hd hk,
    fun d hd k hk l hl hne => ?_, fun d hd k hk l hl ha => ?_⟩
  · rw [hword, clearAccessed_div (s.pte_lt _ _ _)]
    exact hs.page_own _ hcur i (by omega) j hj he hp
  · rw [hs.pte_setPte_user hcur hi hj htable hd hk hl, if_neg]
    rintro ⟨rfl, rfl, -⟩
    exact hne.elim (fun h => h rfl) fun h => absurd h (by omega)
  · rw [hs.pte_setPte_user hcur hi hj htable hd hk hl, if_neg]
    rintro ⟨rfl, rfl, rfl⟩
    exact ha hp

end

theorem SwappedOut.words (hs : s.TableInv live own) (hcur : s.currentPd ∈ live)
    (hi : i < 1023) (hj : j < 1024) (h : s.SwappedOut s' i j slot port)
    (hd : d ∈ live) (hk : k < 1023) (hl : l < 1024) :
    s'.pte d k l = if l = j ∧ s.entry d k % 2 = 1 ∧ s.entry d k / 4096 =
      s.entry s.currentPd i / 4096
      then slot * 4096 + 512 else s.pte d k l := by
  have hlt : slot < 4096 := h.swap.slot_lt
  have hmem : s'.mem = (s.setEntry (s.entry s.currentPd i / 4096 * 4096) j
      (slot * 4096 + 512)).mem := by rw [h.result]
  rw [pte_congr hmem, hs.pte_setPte hcur hi hj (entry_of_pte h.present) hd hk hl,
    u32_of_lt (by omega)]

/-- In the user half the table is not shared. -/
theorem SwappedOut.pte_eq (hs : s.TableInv live own) (hcur : s.currentPd ∈ live)
    (hi : i < 768) (hj : j < 1024) (h : s.SwappedOut s' i j slot port)
    (hd : d ∈ live) (hk : k < 1023) (hl : l < 1024) :
    s'.pte d k l = if d = s.currentPd ∧ k = i ∧ l = j then slot * 4096 + 512 else s.pte d k l := by
  have htable := entry_of_pte h.present
  rw [h.words hs hcur (by omega) hj hd hk hl]
  refine if_congr ⟨?_, ?_⟩ rfl rfl
  · rintro ⟨rfl, hp, hsame⟩
    obtain ⟨rfl, hdd⟩ := hs.table_inj hd hcur hk (by omega) hp htable hsame
    exact ⟨hdd hi, rfl, rfl⟩
  · rintro ⟨rfl, rfl, rfl⟩
    exact ⟨rfl, htable, rfl⟩

/-- **Swapping out an exclusive page** frees its frame, which no other word names. -/
theorem PageInvOn.swapOut {ex : ℕ → ℕ → Prop} (hs : s.PageInvOn ex live own)
    (hex : ∀ d d' i, 768 ≤ i → ex d i → ex d' i) (hcur : s.currentPd ∈ live)
    (hi : i < 1023) (hj : j < 1024) (hexcl : ex s.currentPd i) (h : s.SwappedOut s' i j slot port) :
    ∃ own', s'.PageInvOn ex live own' ∧ (∀ g, g ≠ s.pte s.currentPd i j / 4096 → own' g = own g) ∧
      own' (s.pte s.currentPd i j / 4096) = .free ∧
      ∀ d ∈ live, ∀ k < 1024, s'.entry d k = s.entry d k := by
  have hlt : slot < 4096 := h.swap.slot_lt
  have htable := entry_of_pte h.present
  have hrole := hs.page_own _ hcur i hi j hj hexcl h.present
  have hword : u32 (slot * 4096 + 512) = slot * 4096 + 512 := u32_of_lt (by omega)
  -- the word of the page becomes absent
  have hset := hs.setPte hcur hi hj htable (fun d => hex d _ _)
    fun hv _ => by
      rw [hword] at hv
      omega
  -- so no word names the frame any more
  obtain ⟨own', hrel, hkept, hfree⟩ := hset.release (s.pte s.currentPd i j / 4096 * 4096)
    (by rw [frame_div, hrole]; exact pageRole_loose _ _ _ _)
    fun d hd k hk l hl he hp heq => by
      rw [frame_div] at heq
      rw [hs.pte_setPte hcur hi hj htable hd hk hl, hword] at hp heq
      split at hp
      · omega
      · rename_i hother
        rw [if_neg hother] at heq
        obtain ⟨hl', -, hsame, -⟩ := hs.page_inj hd hcur hk hi hl hj he hexcl hp h.present heq
        exact hother ⟨hl', entry_of_pte hp, hsame⟩
  rw [frame_div] at hkept hfree
  rw [h.result]
  exact ⟨own', hrel.congr rfl rfl, hkept, hfree (by rw [hrole]; exact pageRole_ne_other _ _ _ _),
    fun d hd k hk => hs.entry_setPte hcur hi hj htable hd hk⟩

section

variable (hs : s.PageInv boot live own) (hcur : s.currentPd ∈ live) (hne : s.currentPd ≠ boot)

include hs hcur hne

/-- Swapping out a page of a process. -/
theorem PageInv.evictSwapped (hi : i < 768) (hj : j < 1024)
    (h : s.SwappedOut s' i j slot port) : ∃ own', s.Evicted s' boot live own own' := by
  have htable := entry_of_pte h.present
  have hexcl := exclusive_user hne hi
  have hrole := hs.page_own _ hcur i (by omega) j hj hexcl h.present
  rw [pageRole, if_pos hi] at hrole
  have hpte := fun d hd k hk l hl =>
    h.pte_eq hs.toTableInv hcur hi hj (d := d) (k := k) (l := l) hd hk hl
  obtain ⟨own', hinv, hkept, hfree, hentry⟩ :=
    PageInvOn.swapOut hs (fun _ d' _ hk he => he.kernel d' hk) hcur (by omega) hj hexcl h
  have hrange : s'.pmm.baseUsableFrame = s.pmm.baseUsableFrame ∧
      s'.pmm.totalFrames = s.pmm.totalFrames := by
    rw [h.result]
    exact ⟨pmmFreeFrame_base _ _, pmmFreeFrame_total _ _⟩
  have hmem : s'.mem = (s.setEntry (s.entry s.currentPd i / 4096 * 4096) j
      (slot * 4096 + 512)).mem := by rw [h.result]
  refine ⟨own', hinv, by rw [h.result]; rfl, fun hhand => by rw [h.result]; exact hhand, hrange,
    fun g hg => hkept g ?_, fun g => ?_, fun x hl => ?_, hentry,
    fun d hd k hk l hl hn => (hpte d hd k hk l hl).trans (if_neg ?_),
    fun d hd k hk l hl ha => (hpte d hd k hk l hl).trans (if_neg ?_)⟩
  · rintro rfl
    exact hg _ _ _ hrole
  · by_cases hg : g = s.pte s.currentPd i j / 4096
    · exact .inr (hg ▸ hfree)
    · exact .inl (hkept g hg)
  · rw [hmem]
    exact hs.bytes_setPte hcur (by omega) hj htable x hl
  · rintro ⟨rfl, rfl, -⟩
    exact hn.elim (fun h => h rfl) fun h => absurd h (by omega)
  · rintro ⟨rfl, rfl, rfl⟩
    exact ha h.present

theorem PageInv.evictStep (h : EvictStep s s') : ∃ own', s.Evicted s' boot live own own' := by
  cases h with
  | hand pd pt hpd => exact ⟨own, .of_same hs rfl rfl rfl fun _ => hpd⟩
  | clear i j hi hj hp => exact ⟨own, hs.evictClear hcur hi hj hp⟩
  | failed disk _ => exact ⟨own, .of_same hs rfl rfl rfl id⟩
  | swapped i j slot port hi hj h => exact hs.evictSwapped hcur hne hi hj h

/-- **Eviction** in a directory whose pages have no other use. -/
theorem PageInv.evictSteps (h : EvictSteps s s') : ∃ own', s.Evicted s' boot live own own' := by
  induction h with
  | refl => exact ⟨own, .refl hs⟩
  | tail _ hstep ih =>
    obtain ⟨own1, he1⟩ := ih
    obtain ⟨own2, he2⟩ := he1.inv.evictStep (he1.currentPd ▸ hcur) (he1.currentPd ▸ hne) hstep
    exact ⟨own2, he1.trans he2⟩

end

/-! ## Allocating and mapping -/

/-- Whatever is evicted has no other use: a frame is free, or the current directory is
not the boot directory. -/
def Room (s : Paging D) (boot : ℕ) : Prop := s.pmm.freeSet.Nonempty ∨ s.currentPd ≠ boot

section

variable (hs : s.PageInv boot live own) (hcur : s.currentPd ∈ live) (hhand : s.evictPdIdx < 768)

include hs hcur hhand

/-- **`alloc_frame_zero`**, if it returns: some pages are evicted, then a frame is taken. -/
theorem PageInv.allocFrameZero_ok (hroom : s.Room boot) {addr : ℕ}
    (h : s.allocFrameZero = .ok (s', addr)) :
    ∃ s1 own1 f, s.Evicted s1 boot live own own1 ∧ EvictSteps s s1 ∧ addr = f * 4096 ∧
      s1.FreshFrame s' live own1 f := by
  have hex : ∃ s1 own1, s.Evicted s1 boot live own own1 ∧ EvictSteps s s1 ∧
      s1.pmm.freeSet.Nonempty ∧ s1.allocFrameZero = .ok (s', addr) := by
    rcases hroom with hne | hne
    · exact ⟨s, own, .refl hs, .refl, hne, h⟩
    · obtain ⟨s1, hsteps, hfree, halloc⟩ := allocFrameZero_steps hs.pmm hhand h fun s1 h1 => by
        obtain ⟨own1, he⟩ := hs.evictSteps hcur hne h1
        exact he.inv.pmm
      obtain ⟨own1, he⟩ := hs.evictSteps hcur hne hsteps
      exact ⟨s1, own1, he, hsteps, hfree, halloc⟩
  obtain ⟨s1, own1, he, hsteps, hfree, halloc⟩ := hex
  obtain ⟨s2, f, hrun, -, hfresh⟩ := he.inv.toTableInv.allocFrameZero hfree
  rw [hrun] at halloc
  cases halloc
  exact ⟨s1, own1, f, he, hsteps, rfl, hfresh⟩

/-- **`paging_create_directory`**, if it returns: some pages are evicted, then the
directory is made. -/
theorem PageInv.createDirectory_ok (hroom : s.Room boot)
    (h : s.pagingCreateDirectory = .ok (s', pd)) :
    ∃ s1 own1 f, s.Evicted s1 boot live own own1 ∧ EvictSteps s s1 ∧ pd = f * 4096 ∧
      s1.Created s' live own1 f := by
  rw [pagingCreateDirectory] at h
  rcases halloc : s.allocFrameZero with e | ⟨s2, addr⟩
  · rw [halloc] at h
    cases h
  rw [halloc] at h
  obtain ⟨rfl, rfl⟩ := ok_pair h
  obtain ⟨s1, own1, f, he, hsteps, rfl, hfresh⟩ := hs.allocFrameZero_ok hcur hhand hroom halloc
  exact ⟨s1, own1, f, he, hsteps, rfl, hfresh.created he.inv.toTableInv (he.currentPd ▸ hcur)
    ((he.inv.free_iff f).mp hfresh.was_free)⟩

/-- **`paging_map`**, if it returns: some pages are evicted, then the page is mapped. -/
theorem PageInv.pagingMap_ok {phys flags : ℕ} (hv : pdIndex virt < 1023)
    (hroom : s.entry s.currentPd (pdIndex virt) % 2 = 1 ∨ s.Room boot)
    (h : s.pagingMap virt phys flags = .ok s') :
    ∃ s1 own1 own', s.Evicted s1 boot live own own1 ∧ EvictSteps s s1 ∧
      s1.Mapped s' live own1 own' virt (pageEntry phys flags) flags := by
  -- with a table or a free frame nothing is evicted
  have hdirect : ∀ {s1 own1}, s.Evicted s1 boot live own own1 → EvictSteps s s1 →
      (s1.entry s1.currentPd (pdIndex virt) % 2 = 1 ∨ s1.pmm.freeSet.Nonempty) →
      s1.pagingMap virt phys flags = .ok s' → ∃ s1 own1 own', s.Evicted s1 boot live own own1 ∧
        EvictSteps s s1 ∧ s1.Mapped s' live own1 own' virt (pageEntry phys flags) flags := by
    intro s1 own1 he hsteps havail hmap
    obtain ⟨s2, own', hrun, hm⟩ := he.inv.toTableInv.pagingMap (he.currentPd ▸ hcur) hv phys flags
      havail
    rw [hrun] at hmap
    cases hmap
    exact ⟨s1, own1, own', he, hsteps, hm⟩
  by_cases havail : s.entry s.currentPd (pdIndex virt) % 2 = 1 ∨ s.pmm.freeSet.Nonempty
  · exact hdirect (.refl hs) .refl havail h
  obtain ⟨habs, hempty⟩ := not_or.mp havail
  have hne : s.currentPd ≠ boot := (hroom.resolve_left habs).resolve_left hempty
  -- the table is made after an eviction
  have halloc : ∃ r, s.allocFrameZero = .ok r := by
    simp only [pagingMap, getPageTable, hasFlag_present, decide_eq_false habs, Bool.not_false,
      if_true] at h
    rcases hr : s.allocFrameZero with e | r
    · rw [hr] at h
      cases h
    · exact ⟨r, rfl⟩
  obtain ⟨r, hr⟩ := halloc
  obtain ⟨s1, hsteps, hfree, hr1⟩ := allocFrameZero_steps hs.pmm hhand hr fun s1 h1 => by
    obtain ⟨own1, he⟩ := hs.evictSteps hcur hne h1
    exact he.inv.pmm
  obtain ⟨own1, he⟩ := hs.evictSteps hcur hne hsteps
  have hentry : s1.entry s1.currentPd (pdIndex virt) = s.entry s.currentPd (pdIndex virt) := by
    rw [he.currentPd]
    exact he.entry_eq _ hcur _ (by omega)
  refine hdirect he hsteps (.inr hfree) ?_
  rw [← h]
  simp only [pagingMap, getPageTable, hentry, hr, hr1, hasFlag_present, decide_eq_false habs,
    Bool.not_false, if_true]

end

end Paging

end PenOS
