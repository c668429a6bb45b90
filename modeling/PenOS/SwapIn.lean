import PenOS.SlotRuns

/-!
# A page that cannot be read back

`page_fault_handler` maps a zeroed frame and reads the slot into it. When the read has failed it
prints a message and frees the slot all the same.
-/

namespace PenOS

namespace Paging

variable {D : Type} [Disk D] {s s' s₄ : Paging D} {boot : ℕ} {live : List ℕ} {own : ℕ → Role}

omit [Disk D] in
/-- The page at `virt`, in the swap area in `s`, is still there in `s'`: its slot is in use and
its word names the slot. -/
def StaysSwapped (s s' : Paging D) (virt : ℕ) : Prop :=
  s'.swap.swapBitmap.test (s.pte s.currentPd (pdIndex virt) (ptIndex virt) / 4096) = true ∧
    s'.pte s'.currentPd (pdIndex virt) (ptIndex virt) =
      s.pte s.currentPd (pdIndex virt) (ptIndex virt)

/-- `swap_in` succeeds in the handler, where it reads into the page just mapped. -/
def ReadsBack (s₄ : Paging D) (page slot : ℕ) : Prop :=
  (s₄.swap.swapIn slot (s₄.pageAt (s₄.pagingVirtToPhys page))).2 = true

theorem pageFaultHandler_of_swapped {cr2 : ℕ} (hcr2 : cr2 < 4294967296)
    (hsw : Swapped (s.pte s.currentPd (pdIndex cr2) (ptIndex cr2)))
    (hmap : s.mapFresh (cr2 &&& 0xFFFFF000) = .ok s₄) (errCode : ℕ) :
    s.pageFaultHandler cr2 errCode = .ok (s₄.readBack (cr2 &&& 0xFFFFF000)
      (s.pte s.currentPd (pdIndex cr2) (ptIndex cr2) / 4096)) := by
  rw [pageFaultHandler_eq hcr2, if_pos hsw, hmap]
  rfl

theorem readBack_frees (page : ℕ) {slot : ℕ} (hslot : slot < swapSizePages) :
    (s.readBack page slot).swap.swapBitmap.test slot = false := by
  simp only [readBack, Swap.swapFree, if_pos hslot, Swap.markSlot]
  exact Bitmap.test_clear_self _ _

/-- **A page is lost exactly when it cannot be read**: a fault on a page in the swap area that gets
as far as the disk leaves it there only if no read failed. -/
theorem swapIn_error_loses_page {cr2 errCode : ℕ} (hcr2 : cr2 < 4294967296)
    (hsw : Swapped (s.pte s.currentPd (pdIndex cr2) (ptIndex cr2)))
    (hslot : s.pte s.currentPd (pdIndex cr2) (ptIndex cr2) / 4096 < swapSizePages)
    (hmap : s.mapFresh (cr2 &&& 0xFFFFF000) = .ok s₄) :
    ∃ s', s.pageFaultHandler cr2 errCode = .ok s' ∧ ((¬ s₄.ReadsBack (cr2 &&& 0xFFFFF000)
          (s.pte s.currentPd (pdIndex cr2) (ptIndex cr2) / 4096) → s.StaysSwapped s' cr2) ↔
        s₄.ReadsBack (cr2 &&& 0xFFFFF000)
          (s.pte s.currentPd (pdIndex cr2) (ptIndex cr2) / 4096)) := by
  refine ⟨_, pageFaultHandler_of_swapped hcr2 hsw hmap errCode, fun hstays => ?_,
    fun hread hfail => absurd hread hfail⟩
  by_contra hfail
  have hused := (hstays hfail).1
  rw [readBack_frees _ hslot] at hused
  cases hused

theorem PageInv.fault_presents {cr2 : ℕ} (hs : s.PageInv boot live own) (hcur : s.currentPd ∈ live)
    (hhand : s.evictPdIdx < 768) (hroom : s.currentPd ≠ boot ∨ 2 ≤ s.pmm.freeSet.card)
    (hcr2 : cr2 < 0xFFC00000) (slot : ℕ) (hmap : s.mapFresh (cr2 &&& 0xFFFFF000) = .ok s₄) :
    ∃ buffer : ℕ → UInt8, (∀ k < 4096, buffer k = 0) ∧
      (s₄.readBack (cr2 &&& 0xFFFFF000) slot).pte s.currentPd (pdIndex cr2) (ptIndex cr2) % 2 = 1 ∧
      ∀ k : Fin 4096, (s₄.readBack (cr2 &&& 0xFFFFF000) slot).pageData s.currentPd (pdIndex cr2)
        (ptIndex cr2) k = (s₄.swap.swapIn slot buffer).1 k := by
  have hlt : cr2 < 4294967296 := by omega
  have hpd := pdIndex_page hlt
  have hpt := ptIndex_page hlt
  have hpage : (cr2 &&& 0xFFFFF000) % 4096 = 0 := by rw [and_pageMask hlt, Nat.mul_mod_left]
  have hi : pdIndex cr2 < 1023 := by
    rw [pdIndex]
    omega
  obtain ⟨s1, s2, s3, own1, own3, own4, f, hnew⟩ :=
    hs.mapFresh_ok hcur hhand hroom (hpd ▸ hi) hmap
  have hphys := hnew.virtToPhys hcur hpage
  have hword : (s₄.readBack (cr2 &&& 0xFFFFF000) slot).pte s.currentPd (pdIndex cr2) (ptIndex cr2) =
      pageEntry (f * 4096) 7 := by
    rw [(hnew.readBack_inv hcur hpage slot).2.2 _ hcur _ hi _ (ptIndex_lt cr2), ← hpd, ← hpt]
    exact hnew.pte_virt hcur
  have hframe : pageEntry (f * 4096) 7 / 4096 = f := by
    have hf := hnew.fresh.lt hnew.evicted₁.inv.pmm
    rw [pageEntry_div (by omega), frame_div]
  refine ⟨s₄.pageAt (f * 4096), fun k hk => hnew.zero_bytes hk, ?_, fun k => ?_⟩
  · rw [hword]
    exact pageEntry_mod_two _ _
  · rw [pageData, hword, hframe, readBack, hphys]
    change Mem.paste _ _ _ _ _ = _
    rw [Mem.paste_of_mem (Nat.le_add_right _ _) (Nat.add_lt_add_left k.isLt _),
      Nat.add_sub_cancel_left]

end Paging

/-! ## A disk with unreadable sectors -/

/-- A disk that takes pages but cannot be read; the buffer stays as it was. -/
def UnreadableDisk : Type := Unit

instance : Disk UnreadableDisk where
  ahciWrite disk _ _ _ := (disk, true)
  ahciRead _ _ _ buffer := (buffer, false)

theorem Swap.swapIn_unreadable (s : Swap UnreadableDisk) (slot : ℕ) (buffer : ℕ → UInt8) :
    s.swapIn slot buffer = (buffer, false) := by
  rw [Swap.swapIn]
  split
  · rfl
  · exact ite_self _

theorem exists_unreadable_page :
    ∃ s s₄ : Paging UnreadableDisk, ∃ boot live own virt, s.PageInv boot live own ∧
      s.currentPd ∈ live ∧ s.evictPdIdx < 768 ∧ 2 ≤ s.pmm.freeSet.card ∧ virt < 0xFFC00000 ∧
      Paging.Swapped (s.pte s.currentPd (pdIndex virt) (ptIndex virt)) ∧
      s.pte s.currentPd (pdIndex virt) (ptIndex virt) / 4096 ∈ s.swap.usedSlots ∧
      s.mapFresh (virt &&& 0xFFFFF000) = .ok s₄ := by
  obtain ⟨a, b, c, ha, hsafe, hfault, hsafe', hout, hsw, hcard⟩ :=
    exists_swapped_kernel (D := UnreadableDisk) () fun _ => rfl
  obtain ⟨own, hs⟩ := ha.slotInv
  obtain ⟨own1, hs1⟩ := hs.step hsafe hfault
  obtain ⟨own2, hs2⟩ := hs1.step hsafe' hout
  have hmem := Paging.mem_swappedWords.mpr
    ⟨_, hs2.current, _, show pdIndex 0x1000000 < 1023 by decide, _, Paging.ptIndex_lt _, hsw, rfl⟩
  have hused := hs2.slots.mapsTo hmem
  rw [Paging.slotOf_table (Paging.Swapped.entry_present hsw)] at hused
  obtain ⟨s₄, hmap, -⟩ := hs2.pageInv.mapFresh_of_free hs2.current
    (show pdIndex (0x1000000 &&& 0xFFFFF000) < 1023 by decide) hcard
  exact ⟨c.paging, s₄, c.boot, c.live, own2, 0x1000000, hs2.pageInv, hs2.current, hs2.hand, hcard,
    by decide, hsw, hused, hmap⟩

/-- The fault on the unreadable page. -/
theorem swapIn_error_loses_page_once : ∃ (s s' : Paging UnreadableDisk) (virt : ℕ),
      Paging.Swapped (s.pte s.currentPd (pdIndex virt) (ptIndex virt)) ∧
      s.pageFaultHandler virt 4 = .ok s' ∧ ¬ s.StaysSwapped s' virt := by
  obtain ⟨s, s₄, -, -, -, virt, -, -, -, -, hvirt, hsw, hused, hmap⟩ := exists_unreadable_page
  obtain ⟨s', hfault, hiff⟩ := @Paging.swapIn_error_loses_page _ _ s s₄ virt 4 (by omega) hsw
    (Swap.mem_usedSlots.mp hused).1 hmap
  have hfail : ¬ s₄.ReadsBack (virt &&& 0xFFFFF000)
      (s.pte s.currentPd (pdIndex virt) (ptIndex virt) / 4096) := by
    rw [Paging.ReadsBack, Swap.swapIn_unreadable]
    exact Bool.false_ne_true
  exact ⟨s, s', virt, hsw, hfault, fun hstays => hfail (hiff.mp fun _ => hstays)⟩

/-- The slot was in use and is free after the fault, and the page is there, filled with zeros. -/
theorem swapIn_error_zero_page : ∃ (s s' : Paging UnreadableDisk) (virt : ℕ),
      Paging.Swapped (s.pte s.currentPd (pdIndex virt) (ptIndex virt)) ∧
      s.swap.swapBitmap.test (s.pte s.currentPd (pdIndex virt) (ptIndex virt) / 4096) = true ∧
      s.pageFaultHandler virt 4 = .ok s' ∧
      s'.swap.swapBitmap.test (s.pte s.currentPd (pdIndex virt) (ptIndex virt) / 4096) = false ∧
      s'.pte s.currentPd (pdIndex virt) (ptIndex virt) % 2 = 1 ∧
      (∀ k, s'.pageData s.currentPd (pdIndex virt) (ptIndex virt) k = 0) ∧
      ¬ s.StaysSwapped s' virt := by
  obtain ⟨s, s₄, boot, live, own, virt, hs, hcur, hhand, hcard, hvirt, hsw, hused, hmap⟩ :=
    exists_unreadable_page
  obtain ⟨hslot, htest⟩ := Swap.mem_usedSlots.mp hused
  obtain ⟨buffer, hzero, hpresent, hdata⟩ := hs.fault_presents hcur hhand (Or.inr hcard) hvirt
    (s.pte s.currentPd (pdIndex virt) (ptIndex virt) / 4096) hmap
  have hfree := Paging.readBack_frees (s := s₄) (virt &&& 0xFFFFF000) hslot
  refine ⟨s, _, virt, hsw, htest, Paging.pageFaultHandler_of_swapped (by omega) hsw hmap 4, hfree,
    hpresent, fun k => ?_, fun hstays => ?_⟩
  · have hk := hdata k
    rw [Swap.swapIn_unreadable] at hk
    exact hk.trans (hzero k k.isLt)
  · exact Bool.false_ne_true (hfree.symm.trans hstays.1)

end PenOS
