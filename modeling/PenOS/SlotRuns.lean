import PenOS.SlotCount
import PenOS.SwapPages

/-!
# Swap slots over whole runs

`paging_unmap` and `paging_map` overwrite a page-table word without looking at it, and
`paging_destroy_directory` skips words that are not present; a slot that the word named stays
marked.
-/

namespace PenOS

open Finset

variable {D : Type}
variable {e k pd virt : ℕ} {syms : Paging.LinkerSymbols}

namespace Paging

variable {s s' : Paging D} {live live' : List ℕ} {own own' : ℕ → Role} {ex : ℕ → ℕ → Prop}

/-! ## Unmapping -/

/-- Unmapping a page that is not in the swap area. -/
theorem SlotsExact.unmapped (hx : s.SlotsExact live) (hs : s.TableInv live own)
    (hcur : s.currentPd ∈ live) (hv : pdIndex virt < 1023)
    (hword : ¬ Swapped (s.pte s.currentPd (pdIndex virt) (ptIndex virt))) :
    (s.pagingUnmap virt).SlotsExact live := by
  by_cases hp : s.entry s.currentPd (pdIndex virt) % 2 = 1
  · rw [pagingUnmap_of_present hp]
    exact hx.wordSet (hs.wordSet hcur hv (ptIndex_lt virt) hp 0) (not_mem_swappedWords hp hword)
      (fun h => absurd h.2 (by decide)) rfl
  · rw [pagingUnmap_of_absent hp]
    exact hx

theorem shrinkPage_mem (s : Paging D) (page : ℕ) :
    (s.shrinkPage page).mem = (s.pagingUnmap page).mem ∧
      (s.shrinkPage page).swap = (s.pagingUnmap page).swap := by
  simp only [shrinkPage]
  split <;> exact ⟨rfl, rfl⟩

theorem SlotsExact.shrinkDown (hx : s.SlotsExact live) (hs : s.PageInvOn ex live own)
    (hex : ∀ d d' i, 768 ≤ i → ex d i → ex d' i) (hheap : ∀ d i, InWindow d i → ex d i)
    (hcur : s.currentPd ∈ live) (hlo : heapStart + k * 4096 ≤ e) (hhi : e ≤ heapEnd)
    (haligned : e % 4096 = 0) (hwords : ∀ v, heapStart ≤ v → v < e →
      ¬ Swapped (s.pte s.currentPd (pdIndex v) (ptIndex v))) :
    (shrinkDown k s e).SlotsExact live := by
  induction k generalizing s e own with
  | zero => exact hx
  | succ k ih =>
    obtain ⟨own1, hwin, hg, h1, h2, h3⟩ := hs.shrink_succ hex hheap hcur hlo hhi haligned
    rw [Paging.shrinkDown]
    obtain ⟨hmem, hswap⟩ := s.shrinkPage_mem (e - 4096)
    refine ih ((hx.unmapped hs.toTableInv hcur hwin.lt (hwords _ (by omega) (by omega))).congr hmem
      (by rw [hswap])) hg.inv (hg.currentPd ▸ hcur) h1 h2 h3 fun v hv hlt hsw => ?_
    rw [hg.currentPd] at hsw
    by_cases hpage : pdIndex v = pdIndex (e - 4096) ∧ ptIndex v = ptIndex (e - 4096)
    · rw [hpage.1, hpage.2, hg.pte_page] at hsw
      exact absurd hsw.2 (by decide)
    · obtain ⟨hwin', -⟩ := inWindow_of_range (v := v) s.currentPd hv (by omega)
      rw [hg.pte_other _ hcur _ hwin'.lt _ (ptIndex_lt v) (not_and_or.mp hpage)] at hsw
      exact hwords v hv (by omega) hsw

/-! ## New pages of the heap -/

variable [Disk D]

/-- `map_new_page` takes a frame and maps it. -/
theorem TableInv.growPage_mapped {page : ℕ} (hs : s.TableInv live own) (hcur : s.currentPd ∈ live)
    (hv : pdIndex page < 1023) (hready : s.Ready page) (h : s.growPage page = .ok s') :
    ∃ own1 own2 phys flags, { s with pmm := (pmmAllocFrame s.pmm).1 }.TableInv live own1 ∧
      { s with pmm := (pmmAllocFrame s.pmm).1 }.Mapped s' live own1 own2 page
        (pageEntry phys flags) flags := by
  simp only [growPage] at h
  split_ifs at h with h0
  have hne : s.pmm.freeSet.Nonempty := by
    by_contra hno
    rw [pmmAllocFrame_of_empty hs.pmm (Finset.not_nonempty_iff_eq_empty.mp hno)] at h0
    exact h0 rfl
  obtain ⟨f, -, -, hinv⟩ := hs.pmmAlloc hne
  obtain ⟨s1, own2, hrun, hm⟩ :=
    hinv.pagingMap hcur hv (pmmAllocFrame s.pmm).2 (pageRw ||| pagePresent) hready
  obtain rfl := Except.ok.inj (hrun.symm.trans h)
  exact ⟨_, own2, _, _, hinv, hm⟩

theorem SlotsExact.growUp (hx : s.SlotsExact live) (hs : s.PageInvOn ex live own)
    (hcur : s.currentPd ∈ live) (hlo : heapStart ≤ e) (hhi : e + k * 4096 ≤ heapEnd)
    (hsup : s.Supply k)
    (hwords : ∀ v, e ≤ v → v < heapEnd → ¬ Swapped (s.pte s.currentPd (pdIndex v) (ptIndex v)))
    (h : growUp k s e = .ok s') : s'.SlotsExact live := by
  induction k generalizing s e own with
  | zero =>
    cases h
    exact hx
  | succ k ih =>
    obtain ⟨s1, own1, f, hwin, hready, hgrow, hg, -, hsup1, h⟩ :=
      hs.growUp_succ hcur hlo (by omega) hsup h
    obtain ⟨own3, own4, phys, flags, htaken, hm⟩ :=
      hs.toTableInv.growPage_mapped hcur hwin.lt hready hgrow
    have hx' : { s with pmm := (pmmAllocFrame s.pmm).1 }.SlotsExact live := hx.congr rfl rfl
    refine ih (hx'.mapped htaken hcur hwin.lt (hwords e le_rfl (by omega)) hm) hg.inv
      (hg.currentPd ▸ hcur) (by omega) (by omega) hsup1 (fun v hv hlt hsw => ?_) h
    rw [hg.currentPd] at hsw
    by_cases hpage : pdIndex v = pdIndex e ∧ ptIndex v = ptIndex e
    · rw [hpage.1, hpage.2] at hsw
      exact hsw.1 hg.pte_page.1
    · obtain ⟨hwin', -⟩ := inWindow_of_range (v := v) s.currentPd (by omega) hlt
      rw [hg.pte_other _ hcur _ hwin'.lt _ (ptIndex_lt v) (not_and_or.mp hpage)] at hsw
      exact hwords v (by omega) hlt hsw

/-! ## Faults -/

omit [Disk D] in
/-- What is written outside the tables is no word. -/
theorem WordSet.congr {s'' : Paging D} {t0 j0 v : ℕ} (h : s.WordSet s' live t0 j0 v)
    (hentry : ∀ d ∈ live, ∀ i < 1024, s''.entry d i = s'.entry d i)
    (hpte : ∀ d ∈ live, ∀ i < 1023, ∀ j < 1024, s''.pte d i j = s'.pte d i j) :
    s.WordSet s'' live t0 j0 v := by
  refine ⟨fun d hd i hi hp => ?_, fun d hd i hi j hj => ?_⟩
  · rw [hentry d hd i (by omega)]
    exact h.tables d hd i hi hp
  · rw [hpte d hd i hi j hj, hentry d hd i (by omega)]
    exact h.pte d hd i hi j hj

/-- **A page fault** on a page that is not present: demand paging uses no slot, swapping in
frees the one the word named. -/
theorem SlotsExact.fault {boot cr2 errCode : ℕ} (hx : s.SlotsExact live)
    (hs : s.PageInv boot live own) (hcur : s.currentPd ∈ live) (hhand : s.evictPdIdx < 768)
    (hroom : s.currentPd ≠ boot ∨ 2 ≤ s.pmm.freeSet.card) (hcr2 : cr2 < 0xFFC00000)
    (habs : s.pte s.currentPd (pdIndex cr2) (ptIndex cr2) % 2 ≠ 1)
    (h : s.pageFaultHandler cr2 errCode = .ok s') : s'.SlotsExact live := by
  have hlt : cr2 < 4294967296 := by omega
  have hpd : pdIndex (cr2 &&& 0xFFFFF000) < 1023 := by
    rw [pdIndex_page hlt, pdIndex]
    omega
  have hpt := ptIndex_lt (cr2 &&& 0xFFFFF000)
  obtain ⟨s4, hmap, hcase⟩ := pageFaultHandler_cases hlt h
  obtain ⟨s1, s2, s3, own1, own3, own4, f, hnew, hclear1, hclear2⟩ :=
    hs.newPage_cleared hcur hhand hroom hpd hmap
  rw [← pdIndex_page hlt, ← ptIndex_page hlt] at habs hcase
  have hcur1 : s1.currentPd ∈ live := hclear1.currentPd ▸ hcur
  have hcur2 : s2.currentPd ∈ live := hnew.fresh.currentPd ▸ hcur1
  have hcur3 : s3.currentPd = s.currentPd := hnew.currentPd₃
  have hx1 := hx.cleared hs hcur hclear1
  have hx2 := hx1.fresh hclear1.inv.toTableInv hnew.fresh
  have hx3 := hx2.cleared (FreshFrame.pageInv hclear1.inv hnew.fresh) hcur2 hclear2
  -- the word is still the one that was found
  have hword : s3.pte s3.currentPd (pdIndex (cr2 &&& 0xFFFFF000)) (ptIndex (cr2 &&& 0xFFFFF000)) =
      s.pte s.currentPd (pdIndex (cr2 &&& 0xFFFFF000)) (ptIndex (cr2 &&& 0xFFFFF000)) := by
    rw [hcur3]
    exact hnew.pte_absent hcur hpd hpt habs
  rcases hcase with ⟨hsw, rfl⟩ | ⟨hsw, rfl⟩
  · rw [← hword] at hsw
    exact hx3.mapped hclear2.inv.toTableInv (hcur3 ▸ hcur) hpd hsw hnew.mapped
  · have hpage : (cr2 &&& 0xFFFFF000) % 4096 = 0 := by rw [and_pageMask hlt, Nat.mul_mod_left]
    rw [← hword] at hsw ⊢
    obtain ⟨-, hentry, hpte⟩ := hnew.readBack_inv hcur hpage
      (s3.pte s3.currentPd (pdIndex (cr2 &&& 0xFFFFF000)) (ptIndex (cr2 &&& 0xFFFFF000)) / 4096)
    have hset := (hnew.mapped.wordSet (hcur3 ▸ hcur) hpd).congr hentry hpte
    have htable := hsw.entry_present
    have hframe := ((hnew.mapped.wordSet (hcur3 ▸ hcur) hpd).tables _ (hcur3 ▸ hcur) _ hpd htable).2
    have hmem : (s4.entry s3.currentPd (pdIndex (cr2 &&& 0xFFFFF000)) / 4096,
        ptIndex (cr2 &&& 0xFFFFF000)) ∈ s3.swappedWords live := by
      rw [hframe]
      exact mem_swappedWords.mpr ⟨_, hcur3 ▸ hcur, _, hpd, _, hpt, hsw, rfl⟩
    have hslot : s3.slotOf (s4.entry s3.currentPd (pdIndex (cr2 &&& 0xFFFFF000)) / 4096,
        ptIndex (cr2 &&& 0xFFFFF000)) =
        s3.pte s3.currentPd (pdIndex (cr2 &&& 0xFFFFF000))
        (ptIndex (cr2 &&& 0xFFFFF000)) / 4096 := by
      rw [hframe, slotOf_table htable]
    have hused := hx3.mapsTo hmem
    refine hx3.wordIn hset hmem (fun h => h.1 (pageEntry_mod_two _ _)) ?_
    rw [hslot] at hused ⊢
    rw [← hnew.mapped.swap] at hused ⊢
    exact Swap.usedSlots_swapFree hused

/-! ## Directories -/

section

omit [Disk D]

theorem SlotsExact.created {f : ℕ} (hx : s.SlotsExact live) (hcur : s.currentPd ∈ live)
    (h : s.Created s' live own f) (hlive : ∀ d, d ∈ live' ↔ d = f * 4096 ∨ d ∈ live) :
    s'.SlotsExact live' := by
  have hmem : ∀ w, w ∈ s'.swappedWords live' ↔ w ∈ s.swappedWords live := fun w => by
    simp only [mem_swappedWords, hlive]
    constructor
    · rintro ⟨d, rfl | hd, i, hi, j, hj, hsw, rfl⟩
      · rcases Nat.lt_or_ge i 768 with hlo | hlo
        · rw [pte_of_absent (by rw [h.user i hlo]; decide)] at hsw
          exact absurd hsw.2 (by decide)
        · -- the entry is that of the current directory
          have hentry : s'.entry (f * 4096) i = s'.entry s.currentPd i := by
            rw [h.kernel i hlo hi, h.entry_eq _ hcur i (by omega)]
          have hpte : s'.pte (f * 4096) i j = s.pte s.currentPd i j := by
            rw [← h.pte_eq _ hcur i hi j hj]
            simp only [pte, hentry]
          rw [hpte] at hsw
          exact ⟨_, hcur, i, hi, j, hj, hsw, by rw [hentry, h.entry_eq _ hcur i (by omega)]⟩
      · rw [h.pte_eq d hd i hi j hj] at hsw
        exact ⟨d, hd, i, hi, j, hj, hsw, by rw [h.entry_eq d hd i (by omega)]⟩
    · rintro ⟨d, hd, i, hi, j, hj, hsw, rfl⟩
      rw [← h.pte_eq d hd i hi j hj] at hsw
      exact ⟨d, Or.inr hd, i, hi, j, hj, hsw, by rw [h.entry_eq d hd i (by omega)]⟩
  refine hx.kept hmem (fun w hw => ?_) (congrArg Swap.usedSlots h.swap)
  obtain ⟨d, hd, i, hi, j, hj, hsw, rfl⟩ := mem_swappedWords.mp hw
  have hp := hsw.entry_present
  have hentry := h.entry_eq d hd i (by omega)
  rw [slotOf_table hp, ← hentry, slotOf_table (by rw [hentry]; exact hp), h.pte_eq d hd i hi j hj]

/-- Every page in the swap area that `pd` has is below a shared table of the kernel half. -/
def SlotsShared (s : Paging D) (live : List ℕ) (pd : ℕ) : Prop :=
  ∀ i < 1023, ∀ j < 1024, Swapped (s.pte pd i j) → ∃ d ∈ live, d ≠ pd ∧ ∃ i' < 1023,
    s.entry d i' % 2 = 1 ∧ s.entry d i' / 4096 = s.entry pd i / 4096

/-- A directory goes. -/
theorem SlotsExact.destroyed (hx : s.SlotsExact live) (hshared : s.SlotsShared live pd)
    (hlive : ∀ d, d ∈ live' ↔ d ∈ live ∧ d ≠ pd) : s.SlotsExact live' := by
  refine hx.kept (fun w => ?_) (fun _ _ => rfl) rfl
  simp only [mem_swappedWords, hlive]
  constructor
  · rintro ⟨d, ⟨hd, -⟩, hw⟩
    exact ⟨d, hd, hw⟩
  · rintro ⟨d, hd, i, hi, j, hj, hsw, rfl⟩
    by_cases heq : d = pd
    · subst heq
      obtain ⟨d', hd', hne, i', hi', hp', hframe⟩ := hshared i hi j hj hsw
      rw [pte_of_present hsw.entry_present, ← hframe, ← pte_of_present hp'] at hsw
      exact ⟨d', ⟨hd', hne⟩, i', hi', j, hj, hsw, by rw [hframe]⟩
    · exact ⟨d, ⟨hd, heq⟩, i, hi, j, hj, hsw, rfl⟩

end

theorem pagingInit_not_swapped {s0 : Paging D} {syms : LinkerSymbols} (hs : s0.pmm.Inv)
    (hport : s0.swap.swapPort = none) (hsyms : LinkerSymbols.Placed syms)
    (hrun : s0.pagingInit syms = .ok s) : s.swappedWords [s.currentPd] = ∅ := by
  have h : ∀ i < 1023, ∀ j < 1024, ¬ Swapped (s.pte s.currentPd i j) := by
    refine pagingInit_induct (I := fun t => ∀ i < 1023, ∀ j < 1024,
      ¬ Swapped (t.pte t.currentPd i j)) hs hport hsyms (fun t own _ _ hzero i hi j _ hsw => ?_)
      (fun t t' own own' virt phys flags hold _ _ hm i hi j hj hsw => ?_) hrun
    · have hp := hsw.entry_present
      rw [hzero i hi] at hp
      cases hp
    · rw [hm.currentPd] at hsw
      by_cases hij : i = pdIndex virt ∧ j = ptIndex virt
      · obtain ⟨rfl, rfl⟩ := hij
        rw [hm.pte_current (List.mem_singleton_self _)] at hsw
        exact hsw.1 (pageEntry_mod_two _ _)
      · rw [hm.pte_other _ (List.mem_singleton_self _) i hi j hj (not_and_or.mp hij)] at hsw
        exact hold i hi j hj hsw
  refine eq_empty_of_forall_notMem fun w => ?_
  rw [mem_swappedWords]
  rintro ⟨d, hd, i, hi, j, hj, hsw, -⟩
  rw [List.mem_singleton.mp hd] at hsw
  exact h i hi j hj hsw

end Paging

/-! ## Runs -/

namespace Kernel

variable {a b : Kernel D} {own : ℕ → Role}

/-- The page at `virt` is in the swap area. -/
def InSwap (a : Kernel D) (virt : ℕ) : Prop :=
  Paging.Swapped (a.paging.pte a.paging.currentPd (pdIndex virt) (ptIndex virt))

/-- No word of a page in the swap area is overwritten, and no directory destroyed that has such
pages. Besides, frames mapped or freed are the caller's, a page swapped out has no other use, and
nothing is evicted from the boot directory. -/
def SlotSafe (a : Kernel D) : KernelCall → Prop
  | .pmmAlloc => True
  | .pmmFree phys => phys / 4096 ∈ a.held
  | .map virt phys _ => ¬ a.InSwap virt ∧ virt < 0xFFC00000 ∧ phys < 4294967296 ∧
      a.MayMap virt phys ∧
      (a.paging.entry a.paging.currentPd (pdIndex virt) % 2 = 1 ∨ a.paging.Room a.boot)
  | .unmap virt => ¬ a.InSwap virt ∧ virt < 0xFFC00000
  | .kmalloc want => want ≤ heapSize ∧ Unevicted a.heap want ∧
      ∀ v, a.heap.heapMappedEnd ≤ v → v < heapEnd → ¬ a.InSwap v
  | .kfree ptr => (∃ n, (ptr, n) ∈ a.heap.liveBlocks) ∧
      ∀ v, heapStart ≤ v → v < a.heap.heapMappedEnd → ¬ a.InSwap v
  | .fault cr2 _ => cr2 < 0xFFC00000 ∧
      a.paging.pte a.paging.currentPd (pdIndex cr2) (ptIndex cr2) % 2 ≠ 1 ∧
      (a.paging.currentPd ≠ a.boot ∨ 2 ≤ a.paging.pmm.freeSet.card)
  | .swapOut virt => virt < 0xFFC00000 ∧ Exclusive a.boot a.paging.currentPd (pdIndex virt)
  | .create => a.paging.Room a.boot
  | .switch pd => pd ∈ a.live
  | .destroy pd => pd ∈ a.dirs ∧ (pd = a.paging.currentPd ∨ a.paging.SlotsShared a.live pd)

/-- The frames have roles, and the slots in use are those of the pages in the swap area. -/
structure SlotInv (a : Kernel D) (own : ℕ → Role) : Prop extends a.Inv (Exclusive a.boot) own where
  slots : a.paging.SlotsExact a.live

variable [Disk D]

namespace SlotInv

theorem map (hs : a.SlotInv own) {phys flags : ℕ} (hv : pdIndex virt < 1023)
    (hword : ¬ a.InSwap virt)
    (hroom : a.paging.entry a.paging.currentPd (pdIndex virt) % 2 = 1 ∨ a.paging.Room a.boot)
    (h : a.exec (.map virt phys flags) = .ok b) : b.paging.SlotsExact b.live := by
  simp only [exec] at h
  rcases hrun : a.paging.pagingMap virt phys flags with e | p <;> rw [hrun] at h
  · cases h
  cases h
  obtain ⟨s1, own1, own2, hclear, hquiet, hm⟩ :=
    hs.pageInv.map_cleared hs.current hs.hand hv hroom hrun
  refine (hs.slots.cleared hs.pageInv hs.current hclear).mapped hclear.inv.toTableInv
    (hclear.currentPd ▸ hs.current) hv ?_ hm
  -- with a table nothing was evicted, and without one there is no word
  by_cases hp : a.paging.entry a.paging.currentPd (pdIndex virt) % 2 = 1
  · rw [(hquiet hp).1]
    exact hword
  · rw [hclear.currentPd]
    intro hsw
    have hp1 := hsw.entry_present
    rw [hclear.entry_eq _ hs.current _ (by omega)] at hp1
    exact hp hp1

theorem create (hs : a.SlotInv own) (hroom : a.paging.Room a.boot) (h : a.exec .create = .ok b) :
    b.paging.SlotsExact b.live := by
  simp only [exec] at h
  rcases hrun : a.paging.pagingCreateDirectory with e | ⟨p, pd⟩ <;> rw [hrun] at h
  · cases h
  cases h
  obtain ⟨s1, own1, f, hclear, rfl, hcreated⟩ :=
    hs.pageInv.create_cleared hs.current hs.hand hroom hrun
  refine (hs.slots.cleared hs.pageInv hs.current hclear).created (hclear.currentPd ▸ hs.current)
    hcreated fun d => ?_
  change d ∈ a.boot :: f * 4096 :: a.dirs ↔ d = f * 4096 ∨ d ∈ a.boot :: a.dirs
  rw [(List.Perm.swap _ _ _).mem_iff, List.mem_cons]

theorem swapOut (hs : a.SlotInv own) (hv : virt < 0xFFC00000)
    (h : a.exec (.swapOut virt) = .ok b) : b.paging.SlotsExact b.live := by
  cases h
  have hpd : pdIndex virt < 1023 := by
    rw [pdIndex]
    omega
  rcases Paging.pagingSwapOut_cases (s := a.paging) (show virt < 4294967296 by omega) with
    ⟨disk, -, hout, -⟩ | ⟨p, slot, port, hout, hswapped⟩
  · rw [hout]
    exact hs.slots.congr rfl rfl
  · rw [hout]
    exact hs.slots.swappedOut hs.pages.toTableInv hs.current hpd (Paging.ptIndex_lt virt) hswapped

theorem destroy (hs : a.SlotInv own) (hpd : pd ∈ a.dirs)
    (hshared : pd = a.paging.currentPd ∨ a.paging.SlotsShared a.live pd)
    (h : a.exec (.destroy pd) = .ok b) : b.paging.SlotsExact b.live := by
  cases h
  by_cases hcur : pd = a.paging.currentPd
  · rw [if_pos hcur, show a.paging.pagingDestroyDirectory pd = a.paging by
      simp only [Paging.pagingDestroyDirectory, if_pos hcur]]
    exact hs.slots
  · rw [if_neg hcur, Paging.pagingDestroyDirectory_eq hcur]
    have hnodup := List.nodup_cons.mp hs.nodup
    have hboot : a.boot ≠ pd := fun heq => hnodup.1 (heq ▸ hpd)
    have hslots : a.paging.SlotsExact (a.boot :: a.dirs.erase pd) :=
      hs.slots.destroyed (hshared.resolve_left hcur) fun d => by
        rw [live, List.mem_cons, List.mem_cons, hnodup.2.mem_erase_iff]
        constructor
        · rintro (rfl | ⟨hne, hd⟩)
          · exact ⟨Or.inl rfl, hboot⟩
          · exact ⟨Or.inr hd, hne⟩
        · rintro ⟨rfl | hd, hne⟩
          · exact Or.inl rfl
          · exact Or.inr ⟨hne, hd⟩
    generalize (a.paging.spaceFrames pd).foldl pmmFreeFrame a.paging.pmm = pmm
    exact hslots.congr rfl rfl

/-- What one call keeps. -/
theorem step (hs : a.SlotInv own) {c : KernelCall} (hc : a.SlotSafe c) (h : a.exec c = .ok b) :
    ∃ own', b.SlotInv own' := by
  have hboot := exec_boot h
  -- the two halves of the invariant
  suffices hparts : (∃ own', b.Inv (Exclusive a.boot) own') ∧ b.paging.SlotsExact b.live by
    obtain ⟨⟨own', hinv⟩, hslots⟩ := hparts
    exact ⟨own', hboot ▸ hinv, hslots⟩
  have hindex : ∀ {v : ℕ}, v < 0xFFC00000 → pdIndex v < 1023 := fun hv => by
    rw [pdIndex]
    omega
  cases c with
  | pmmAlloc =>
    refine ⟨hs.pmmAlloc h, ?_⟩
    cases h
    split <;> exact hs.slots.congr rfl rfl
  | pmmFree phys =>
    refine ⟨hs.pmmFree hc h, ?_⟩
    cases h
    exact hs.slots.congr rfl rfl
  | map virt phys flags =>
    obtain ⟨hword, hv, hphys, hmay, hroom⟩ := hc
    exact ⟨hs.toInv.map (hindex hv) hphys hmay hroom h, hs.map (hindex hv) hword hroom h⟩
  | unmap virt =>
    refine ⟨⟨own, hs.toInv.unmap (hindex hc.2) h⟩, ?_⟩
    cases h
    exact hs.slots.unmapped hs.pages.toTableInv hs.current (hindex hc.2) hc.1
  | kmalloc want =>
    obtain ⟨hwant, hsup, hwords⟩ := hc
    refine ⟨(hs.toInv.kmalloc hwant hsup h).1, ?_⟩
    obtain ⟨hb, -, hlo, k, hhi, hsup', hgrow⟩ := hs.kmalloc_growUp hwant hsup h
    rw [show b.live = a.live by rw [hb]; rfl]
    exact hs.slots.growUp hs.pages hs.current hlo hhi hsup' hwords hgrow
  | kfree ptr =>
    obtain ⟨⟨n, hu⟩, hwords⟩ := hc
    refine ⟨hs.toInv.kfree hu h, ?_⟩
    obtain ⟨hb, -, hhi, haligned, k, hlo, hshrink⟩ := hs.kfree_shrinkDown hu h
    rw [show b.live = a.live by rw [hb]; rfl, hshrink]
    exact hs.slots.shrinkDown hs.pages Paging.exclusive_uniform (fun _ _ => Or.inr) hs.current
      hlo hhi haligned hwords
  | fault cr2 errCode =>
    obtain ⟨hcr2, habs, hroom⟩ := hc
    refine ⟨hs.toInv.fault hcr2 hroom h, ?_⟩
    simp only [exec] at h
    rcases hrun : a.paging.pageFaultHandler cr2 errCode with e | p <;> rw [hrun] at h
    · cases h
    cases h
    exact hs.slots.fault hs.pageInv hs.current hs.hand hroom hcr2 habs hrun
  | swapOut virt => exact ⟨hs.toInv.swapOut hc.1 hc.2 h, hs.swapOut hc.1 h⟩
  | create => exact ⟨hs.toInv.create hc h, hs.create hc h⟩
  | switch pd =>
    refine ⟨⟨own, hs.toInv.switch hc h⟩, ?_⟩
    cases h
    rw [Paging.pagingSwitchDirectory_eq]
    exact hs.slots.congr rfl rfl
  | destroy pd => exact ⟨hs.toInv.destroy hc.1 h, hs.destroy hc.1 hc.2 h⟩

end SlotInv

end Kernel

variable [Disk D] {a b : Kernel D}

theorem CallStart.slotInv (h : CallStart syms a) : ∃ own, a.SlotInv own := by
  obtain ⟨own, hinv⟩ := h.inv
  obtain ⟨connected, hpmm, hsyms, hrun⟩ := h
  have hstart := Paging.pagingInit_started (pmmInit_inv hpmm) rfl hsyms hrun
  have hwords := Paging.pagingInit_not_swapped (pmmInit_inv hpmm) rfl hsyms hrun
  refine ⟨own, hinv, ?_⟩
  rename_i s
  have hused : (s.swap.swapInit connected).usedSlots = ∅ := by
    refine Finset.filter_eq_empty_iff.mpr fun slot _ => ?_
    have hbits : (s.swap.swapInit connected).swapBitmap = fun _ => 0#8 := by
      rw [Swap.swapInit]
      split
      · rfl
      · rw [hstart.swap]
        rfl
    rw [hbits]
    simp [Bitmap.test]
  change Set.BijOn s.slotOf (s.swappedWords [s.currentPd]) (s.swap.swapInit connected).usedSlots
  rw [hwords, hused, coe_empty, coe_empty]
  exact Set.bijOn_empty _

/-- **Slots in use are pages in the swap area**: in every run whose calls overwrite and destroy no
such page, the marked slots are as many as the words of pages there. -/
theorem used_slots_eq_swapped_words {syms : Paging.LinkerSymbols} (hstart : CallStart syms a)
    (hrun : CallRun Kernel.SlotSafe a b) :
    b.paging.swap.usedSlots.card = (b.paging.swappedWords b.live).card := by
  obtain ⟨own, hs⟩ : ∃ own, b.SlotInv own :=
    hrun.induct (I := fun b => ∃ own, b.SlotInv own) hstart.slotInv
      fun _ _ _ ⟨_, hb⟩ hc hexec => hb.step hc hexec
  exact hs.slots.card

/-! ## A slot that is lost -/

theorem Kernel.SlotInv.unmap_leaks {own : ℕ → Role} (hs : a.SlotInv own)
    (hv : virt < 0xFFC00000) (hsw : a.InSwap virt) (h : a.exec (.unmap virt) = .ok b) :
    b.paging.swap.usedSlots.card = (b.paging.swappedWords b.live).card + 1 := by
  cases h
  have hpd : pdIndex virt < 1023 := by
    rw [pdIndex]
    omega
  have hp := hsw.entry_present
  have hset := hs.pages.toTableInv.wordSet hs.current hpd (Paging.ptIndex_lt virt) hp 0
  rw [← Paging.pagingUnmap_of_present hp] at hset
  have hmem : (a.paging.entry a.paging.currentPd (pdIndex virt) / 4096, ptIndex virt) ∈
      a.paging.swappedWords a.live :=
    Paging.mem_swappedWords.mpr ⟨_, hs.current, _, hpd, _, Paging.ptIndex_lt virt, hsw, rfl⟩
  have hwords : (a.paging.pagingUnmap virt).swappedWords a.live =
      (a.paging.swappedWords a.live).erase
        (a.paging.entry a.paging.currentPd (pdIndex virt) / 4096, ptIndex virt) := by
    ext w
    by_cases hw : w = (a.paging.entry a.paging.currentPd (pdIndex virt) / 4096, ptIndex virt)
    · subst hw
      exact iff_of_false (hset.not_mem fun h => absurd h.2 (by decide)) (notMem_erase _ _)
    · rw [hset.mem_iff hw, mem_erase, and_iff_right hw]
  have hswap : (a.paging.pagingUnmap virt).swap = a.paging.swap :=
    (a.paging.pagingUnmap_sameRest virt).swap
  change (a.paging.pagingUnmap virt).swap.usedSlots.card =
    ((a.paging.pagingUnmap virt).swappedWords a.live).card + 1
  rw [hwords, hswap, hs.slots.card]
  exact (card_erase_add_one hmem).symm

theorem CallStart.unmapped (h : CallStart syms a) {i j : ℕ}
    (hlo : 4 ≤ i) (hi : i < 768) (hj : j < 1024) : a.paging.pte a.paging.currentPd i j = 0 := by
  obtain ⟨connected, hpmm, hsyms, hrun⟩ := h
  exact (Paging.pagingInit_started (pmmInit_inv hpmm) rfl hsyms hrun).unmapped i hi j hj (by omega)

theorem Swap.swapOut_first {disk : D}
    (hwrite : ∀ buffer, (Disk.ahciWrite disk 0 (slotLba 0) buffer).2 = true)
    (buffer : ℕ → UInt8) : ((⟨fun _ => 0#8, some 0, disk⟩ : Swap D).swapOut buffer).2 = some 0 := by
  have hfree : (⟨fun _ => 0#8, some 0, disk⟩ : Swap D).findFreeSlot = some 0 :=
    firstIn_of_least le_rfl (by decide) (by simp [Bitmap.test]) fun i _ hi =>
      absurd hi (Nat.not_lt_zero i)
  simp only [Swap.swapOut, hfree, hwrite]
  rfl

theorem exists_swapped_kernel (disk : D)
    (hwrite : ∀ buffer, (Disk.ahciWrite disk 0 (slotLba 0) buffer).2 = true) :
    ∃ a b c : Kernel D, CallStart Paging.smallImage a ∧
      a.SlotSafe (.fault 0x1000000 4) ∧ a.exec (.fault 0x1000000 4) = .ok b ∧
      b.SlotSafe (.swapOut 0x1000000) ∧ b.exec (.swapOut 0x1000000) = .ok c ∧
      c.InSwap 0x1000000 ∧ 2 ≤ c.paging.pmm.freeSet.card := by
  obtain ⟨a, ha, hcur, -, -, hswap, hcard, -⟩ := exists_small_kernel disk fun _ => true
  have hblank : a.paging.swap = ⟨fun _ => 0#8, some 0, disk⟩ := hswap
  obtain ⟨own, hs⟩ := ha.inv
  have hword : a.paging.pte a.paging.currentPd 4 0 = 0 :=
    ha.unmapped le_rfl (by decide) (by decide)
  -- the fault
  obtain ⟨p, hmap, hpswap, hpcard⟩ := hs.pageInv.mapFresh_of_free hs.current
    (show pdIndex 0x1000000 < 1023 by decide) (by omega)
  obtain ⟨s1, s2, s3, own1, own3, own4, f, hnew⟩ :=
    hs.pageInv.mapFresh_ok hs.current hs.hand (Or.inr (by omega)) (by decide) hmap
  have hpage : p.pte p.currentPd (pdIndex 0x1000000) (ptIndex 0x1000000) % 2 = 1 := by
    rw [hnew.currentPd, hnew.pte_virt hs.current]
    exact pageEntry_mod_two _ _
  have hfault : a.exec (.fault 0x1000000 4) = .ok (a.withPaging p) := by
    have hrun : a.paging.pageFaultHandler 0x1000000 4 = .ok p := by
      rw [Paging.pageFaultHandler_eq (by decide), if_neg (by
        rw [show pdIndex 0x1000000 = 4 by decide, show ptIndex 0x1000000 = 0 by decide, hword]
        decide), if_pos (by decide)]
      exact hmap
    simp only [Kernel.exec, hrun]
  have hsafe : a.SlotSafe (.fault 0x1000000 4) := by
    refine ⟨by decide, ?_, Or.inr (by omega)⟩
    rw [show pdIndex 0x1000000 = 4 by decide, show ptIndex 0x1000000 = 0 by decide, hword]
    decide
  -- the swap
  obtain ⟨q, slot, port, hout, hswapped⟩ := Paging.exists_swapOut (s := p) 0x1000000 (by decide)
    hpage (by rw [hpswap, hblank, Swap.swapOut_first hwrite]; exact Option.some_ne_none _)
  have hpcur : p.currentPd ∈ a.live := hnew.currentPd ▸ hs.current
  have hin : q.pte q.currentPd 4 0 = slot * 4096 + 512 := by
    rw [show q.currentPd = p.currentPd by rw [hswapped.result]; rfl,
      hswapped.words hnew.inv.toTableInv hpcur (by decide) (by decide) hpcur (by decide)
        (by decide)]
    exact if_pos ⟨rfl, Paging.entry_of_pte hpage, rfl⟩
  have hqcard : p.pmm.freeSet.card ≤ q.pmm.freeSet.card := by
    rw [hswapped.result]
    exact card_le_card (freeSet_subset_pmmFreeFrame hnew.inv.pmm.base_pos _)
  refine ⟨a, a.withPaging p, a.withPaging q, ha, hsafe, hfault, ⟨by decide, ?_⟩, ?_, ?_,
    show 2 ≤ q.pmm.freeSet.card by omega⟩
  · exact Or.inl ⟨show 4 < 768 by decide, Or.inr le_rfl⟩
  · change Except.ok (Kernel.withPaging _ (p.pagingSwapOut 0x1000000).1) = _
    rw [hout]
    rfl
  · change Paging.Swapped (q.pte q.currentPd 4 0)
    rw [hin, Paging.Swapped]
    omega

/-- A page that goes to the swap area takes a slot with it. -/
theorem used_slots_eq_swapped_words_one :
    ∃ a c : Kernel DiskImage, CallStart Paging.smallImage a ∧ CallRun Kernel.SlotSafe a c ∧
      c.InSwap 0x1000000 ∧ c.paging.swap.usedSlots.card = (c.paging.swappedWords c.live).card := by
  obtain ⟨a, b, c, ha, hsafe, hfault, hsafe', hout, hin, -⟩ :=
    exists_swapped_kernel (D := DiskImage) (fun _ _ _ => 0) fun _ => rfl
  have hrun : CallRun Kernel.SlotSafe a c := .call (.call .start hsafe hfault) hsafe' hout
  exact ⟨a, c, ha, hrun, hin, used_slots_eq_swapped_words ha hrun⟩

/-- After `paging_unmap` of a page in the swap area a slot is in use and no page is there. -/
theorem unmap_loses_slot : ∃ a b c d : Kernel DiskImage, CallStart Paging.smallImage a ∧
      a.exec (.fault 0x1000000 4) = .ok b ∧ b.exec (.swapOut 0x1000000) = .ok c ∧
      c.exec (.unmap 0x1000000) = .ok d ∧
      d.paging.swap.usedSlots.card ≠ (d.paging.swappedWords d.live).card := by
  obtain ⟨a, b, c, ha, hsafe, hfault, hsafe', hout, hin, -⟩ :=
    exists_swapped_kernel (D := DiskImage) (fun _ _ _ => 0) fun _ => rfl
  obtain ⟨own, hs⟩ := ha.slotInv
  obtain ⟨own1, hs1⟩ := hs.step hsafe hfault
  obtain ⟨own2, hs2⟩ := hs1.step hsafe' hout
  refine ⟨a, b, c, _, ha, hfault, hout, rfl, ?_⟩
  rw [hs2.unmap_leaks (by decide) hin rfl]
  exact Nat.succ_ne_self _

end PenOS
