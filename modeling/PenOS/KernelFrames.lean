import PenOS.KernelCalls

/-!
# Frames under the memory calls

What is mapped at an exclusive place has no other use. The calls keep it so as long as frames mapped
there are held by the caller, what is swapped out is an exclusive page, and nothing is evicted from
the boot directory.
-/

namespace PenOS

open Function List

variable {D : Type}
variable {flags pd phys virt : ℕ} {u : ℕ × ℕ}

namespace Paging

variable {s s' : Paging D} {ex : ℕ → ℕ → Prop} {boot : ℕ} {live : List ℕ} {own own' : ℕ → Role}

theorem PageInvOn.mapped_outside {word : ℕ} (hs : s.PageInvOn ex live own)
    (hex : ∀ d d' i, 768 ≤ i → ex d i → ex d' i) (hcur : s.currentPd ∈ live)
    (hout : ¬ ex s.currentPd (pdIndex virt))
    (hm : s.Mapped s' live own own' virt word flags) : s'.PageInvOn ex live own' := by
  refine ⟨hm.inv, fun d hd i hi j hj he hp => ?_⟩
  -- the word was there before, since the table behind it is not the one written to
  have hold : s'.pte d i j = s.pte d i j := by
    by_cases hij : i = pdIndex virt ∧ j = ptIndex virt
    · obtain ⟨rfl, rfl⟩ := hij
      refine (hm.pte_virt d hd).trans (if_neg fun hsame => hout ?_)
      obtain ⟨-, hdd⟩ := hm.inv.table_inj hd hcur hi hi hsame.1 hm.present hsame.2
      rcases Nat.lt_or_ge (pdIndex virt) 768 with hlo | hlo
      · exact hdd hlo ▸ he
      · exact hex d _ _ hlo he
    · exact hm.pte_other d hd i hi j hj (by tauto)
  have hne : ¬ (d = s.currentPd ∧ i = pdIndex virt) := by
    rintro ⟨rfl, rfl⟩
    exact hout he
  rw [hold] at hp ⊢
  have hrole := hs.page_own d hd i hi j hj he hp
  rw [hm.own_kept _ (by rw [hrole]; exact pageRole_ne_free _ _ _ _), hrole,
    hm.entry_eq d hd i (by omega) hne]

variable [Disk D]

/-- Pages were evicted before the call could go on, none of them from the boot directory. -/
structure Cleared (s s' : Paging D) (boot : ℕ) (live : List ℕ) (own own' : ℕ → Role) : Prop extends
    Evicted s s' boot live own own' where
  steps : EvictSteps s s'
  quiet : s' = s ∨ s.currentPd ≠ boot

theorem Cleared.refl (hs : s.PageInv boot live own) : s.Cleared s boot live own own :=
  ⟨.refl hs, .refl, Or.inl rfl⟩

omit [Disk D] in
theorem Evicted.client_kept (h : s.Evicted s' boot live own own') {g : ℕ} (hg : own g = .other) :
    own' g = .other :=
  (h.own_kept g (by rw [hg]; exact fun _ _ _ => Role.noConfusion)).trans hg

section

variable (hs : s.PageInv boot live own) (hcur : s.currentPd ∈ live) (hhand : s.evictPdIdx < 768)

include hs hcur hhand

/-- **`paging_create_directory`**, if it returns. -/
theorem PageInv.create_cleared (hroom : s.Room boot) (h : s.pagingCreateDirectory = .ok (s', pd)) :
    ∃ s1 own1 f, s.Cleared s1 boot live own own1 ∧ pd = f * 4096 ∧ s1.Created s' live own1 f := by
  by_cases hne : s.pmm.freeSet.Nonempty
  · obtain ⟨s2, f, hrun, -, hcreated⟩ := hs.toTableInv.pagingCreateDirectory hcur hne
    obtain ⟨rfl, rfl⟩ := ok_pair (hrun.symm.trans h)
    exact ⟨s, own, f, .refl hs, rfl, hcreated⟩
  · obtain ⟨s1, own1, f, hev, hsteps, hpd, hcreated⟩ := hs.createDirectory_ok hcur hhand hroom h
    exact ⟨s1, own1, f, ⟨hev, hsteps, Or.inr (hroom.resolve_left hne)⟩, hpd, hcreated⟩

/-- **`paging_map`**, if it returns. With a table at hand nothing is evicted. -/
theorem PageInv.map_cleared (hv : pdIndex virt < 1023)
    (hroom : s.entry s.currentPd (pdIndex virt) % 2 = 1 ∨ s.Room boot)
    (h : s.pagingMap virt phys flags = .ok s') : ∃ s1 own1 own', s.Cleared s1 boot live own own1 ∧
      (s.entry s.currentPd (pdIndex virt) % 2 = 1 → s1 = s ∧ own1 = own) ∧
      s1.Mapped s' live own1 own' virt (pageEntry phys flags) flags := by
  by_cases havail : s.entry s.currentPd (pdIndex virt) % 2 = 1 ∨ s.pmm.freeSet.Nonempty
  · obtain ⟨s2, own', hrun, hm⟩ := hs.toTableInv.pagingMap hcur hv phys flags havail
    obtain rfl := Except.ok.inj (hrun.symm.trans h)
    exact ⟨s, own, own', .refl hs, fun _ => ⟨rfl, rfl⟩, hm⟩
  · obtain ⟨habs, hempty⟩ := not_or.mp havail
    obtain ⟨s1, own1, own', hev, hsteps, hm⟩ := hs.pagingMap_ok hcur hhand hv hroom h
    exact ⟨s1, own1, own',
      ⟨hev, hsteps, Or.inr ((hroom.resolve_left habs).resolve_left hempty)⟩,
      fun hp => absurd hp habs, hm⟩

theorem PageInv.newPage_cleared {page : ℕ}
    (hroom : s.currentPd ≠ boot ∨ 2 ≤ s.pmm.freeSet.card) (hpage : pdIndex page < 1023)
    (h : s.mapFresh page = .ok s') :
    ∃ s1 s2 s3 own1 own3 own4 f, NewPage s s1 s2 s3 s' boot live own own1 own3 own4 page 7 f ∧
      s.Cleared s1 boot live own own1 ∧
      s2.Cleared s3 boot live (Function.update own1 f .other) own3 := by
  by_cases hne : s.currentPd ≠ boot
  · obtain ⟨s1, s2, s3, own1, own3, own4, f, hnew⟩ := hs.mapFresh_ok hcur hhand hroom hpage h
    have hcur2 : s2.currentPd = s.currentPd := hnew.fresh.currentPd.trans hnew.evicted₁.currentPd
    exact ⟨s1, s2, s3, own1, own3, own4, f, hnew, ⟨hnew.evicted₁, hnew.steps₁, Or.inr hne⟩,
      ⟨hnew.evicted₂, hnew.steps₂, Or.inr (hcur2 ▸ hne)⟩⟩
  · obtain ⟨s2, f, halloc, hf, hfresh⟩ :=
      hs.toTableInv.allocFrameZero (Finset.card_pos.mp (by omega))
    have hs2 : s2.PageInv boot live _ := FreshFrame.pageInv hs hfresh
    have hcur2 : s2.currentPd ∈ live := hfresh.currentPd ▸ hcur
    have hleft : s2.pmm.freeSet.Nonempty := by
      refine Finset.card_pos.mp ?_
      rw [hfresh.taken, Finset.card_erase_of_mem hf]
      omega
    obtain ⟨s4, own4, hmap, hm⟩ := hfresh.inv.pagingMap hcur2 hpage (f * 4096) 7 (Or.inr hleft)
    rw [Paging.mapFresh, halloc] at h
    obtain rfl := Except.ok.inj (hmap.symm.trans h)
    have hlt := hfresh.lt hs.pmm
    have hdiv : f * 4096 / 4096 = f := frame_div _
    have hinv := hs2.mapped hm hcur2 hpage (by omega)
      (by rw [hdiv]; exact update_self ..)
      (by rw [hdiv, hfresh.range.1, hfresh.range.2]; exact hfresh.managed)
    rw [hdiv, hfresh.currentPd] at hinv
    exact ⟨s, s2, s2, own, _, own4, f, ⟨.refl hs, .refl, hfresh, .refl hs2, .refl, hm, hinv⟩,
      .refl hs, .refl hs2⟩

end

end Paging

/-! ## The calls -/

namespace Kernel

variable {a b : Kernel D} {own : ℕ → Role}

/-- The frame may be mapped at `virt`: the caller has it, it is there already, or the place
is not exclusive. -/
def MayMap (a : Kernel D) (virt phys : ℕ) : Prop :=
  phys / 4096 ∈ a.held ∨
    ¬ Exclusive a.boot a.paging.currentPd (pdIndex virt) ∨
    a.paging.pte a.paging.currentPd (pdIndex virt) (ptIndex virt) % 2 = 1 ∧
      phys / 4096 =
        a.paging.pte a.paging.currentPd (pdIndex virt) (ptIndex virt) / 4096

namespace Inv

theorem pageInv (hs : a.Inv (Exclusive a.boot) own) : a.paging.PageInv a.boot a.live own := hs.pages

variable [Disk D]

/-- **`paging_map`** -/
theorem map (hs : a.Inv (Exclusive a.boot) own)
    (hv : pdIndex virt < 1023) (hphys : phys < 4294967296) (hmay : a.MayMap virt phys)
    (hroom : a.paging.entry a.paging.currentPd (pdIndex virt) % 2 = 1 ∨
      a.paging.Room a.boot) (h : a.exec (.map virt phys flags) = .ok b) :
    ∃ own', b.Inv (Exclusive a.boot) own' := by
  simp only [exec] at h
  rcases hrun : a.paging.pagingMap virt phys flags with e | p <;> rw [hrun] at h
  · cases h
  cases h
  obtain ⟨s1, own1, own2, hclear, hquiet, hm⟩ :=
    hs.pageInv.map_cleared hs.current hs.hand hv hroom hrun
  have hcur1 : s1.currentPd ∈ a.live := hclear.currentPd ▸ hs.current
  have hother : ∀ f ∈ a.held, own2 f = .other := fun f hf => by
    have h1 := hclear.client_kept (hs.held_own f hf).1
    rw [hm.own_kept f (by rw [h1]; exact Role.noConfusion), h1]
  -- the rest of the state, whatever role the frame gets
  have hrest : ∀ own', p.PageInv a.boot a.live own' →
      (∀ f ∈ a.held.erase (phys / 4096), own' f = .other) →
      { a.withPaging p with held := a.held.erase (phys / 4096) }.Inv (Exclusive a.boot) own' :=
    fun own' hpages hkept => (hs.dropHeld (phys / 4096)).withPaging hpages
      (hm.currentPd.trans hclear.currentPd) (hm.hand.1 ▸ hclear.hand hs.hand)
      ⟨hm.range.1.trans hclear.range.1, hm.range.2.trans hclear.range.2⟩ hkept
  rcases hmay with hheld | hout | ⟨hp, hsame⟩
  · obtain ⟨hown, hrange⟩ := hs.held_own _ hheld
    refine ⟨_, hrest _ (hclear.inv.mapped hm hcur1 hv hphys (hclear.client_kept hown) ?_)
      fun f hf => ?_⟩
    · rw [hclear.range.1, hclear.range.2]
      exact hrange
    · have hne : f ≠ phys / 4096 := fun heq => hs.held_nodup.not_mem_erase (heq ▸ hf)
      rw [update_of_ne hne]
      exact hother f (mem_of_mem_erase hf)
  · refine ⟨own2, hrest _ (hclear.inv.mapped_outside Paging.exclusive_uniform hcur1 ?_ hm)
      fun f hf => hother f (mem_of_mem_erase hf)⟩
    rw [hclear.currentPd]
    exact hout
  · obtain ⟨rfl, rfl⟩ := hquiet (Paging.entry_of_pte hp)
    exact ⟨own2, hrest _ (hs.pages.remapped Paging.exclusive_uniform hs.current hv hp
      ((pageEntry_div hphys).trans hsame) hm) fun f hf => hother f (mem_of_mem_erase hf)⟩

/-- **`paging_unmap`** -/
theorem unmap (hs : a.Inv (Exclusive a.boot) own) (hv : pdIndex virt < 1023)
    (h : a.exec (.unmap virt) = .ok b) : b.Inv (Exclusive a.boot) own := by
  cases h
  have hrest := a.paging.pagingUnmap_sameRest virt
  exact hs.withPaging (hs.pages.pagingUnmap Paging.exclusive_uniform hs.current hv)
    hrest.currentPd (hrest.hand.1 ▸ hs.hand) hrest.range fun f hf => (hs.held_own f hf).1

/-- **`kfree`** unmaps pages at the end of the heap, if any. -/
theorem kfree_shrinkDown {ex : ℕ → ℕ → Prop} (hs : a.Inv ex own)
    (hu : u ∈ a.heap.liveBlocks) (h : a.exec (.kfree u.1) = .ok b) :
    b = { a with heap := b.heap } ∧ b.heap.Sound ∧ a.heap.heapMappedEnd ≤ heapEnd ∧
      a.heap.heapMappedEnd % 4096 = 0 ∧ ∃ k, heapStart + k * 4096 ≤ a.heap.heapMappedEnd ∧
        b.paging = Paging.shrinkDown k a.paging a.heap.heapMappedEnd := by
  simp only [exec] at h
  rcases hrun : a.heap.kfree u.1 with e | heap <;> rw [hrun] at h
  · cases h
  cases h
  obtain ⟨cs, hinv⟩ := hs.sound
  obtain ⟨⟨ds, hinv'⟩, -⟩ := Heap.Sound.kfree ⟨cs, hinv⟩ hu hrun
  obtain ⟨k, hshrink, hend⟩ := Heap.kfree_paging hinv hinv' hrun
  obtain ⟨-, hhi, haligned⟩ := hinv.mapped_range
  obtain ⟨hlo, -, -⟩ := hinv'.mapped_range
  have hlayout := heap_layout
  exact ⟨rfl, ⟨ds, hinv'⟩, hhi, by omega, k, by omega, hshrink⟩

/-- **`kfree`** of a live block, when the pages of the heap have no other use. -/
theorem kfree_of_window {ex : ℕ → ℕ → Prop} (hs : a.Inv ex own)
    (hex : ∀ d d' i, 768 ≤ i → ex d i → ex d' i) (hheap : ∀ d i, Paging.InWindow d i → ex d i)
    (hu : u ∈ a.heap.liveBlocks) (h : a.exec (.kfree u.1) = .ok b) :
    (∃ own', b.Inv ex own') ∧ a.paging.UserKept b.paging a.live ∧ b.live = a.live := by
  obtain ⟨hb, hsound, hhi, haligned, k, hlo, hshrink⟩ := hs.kfree_shrinkDown hu h
  obtain ⟨⟨own', hpages, hother⟩, hkept, -⟩ := hs.pages.shrinkDown hex hheap hs.current hlo hhi
    haligned
  rw [← hshrink] at hpages hkept
  have hlive : b.live = a.live := by
    rw [hb]
    rfl
  have hheld : b.held = a.held := by rw [hb]
  refine ⟨⟨own', hsound, hlive ▸ hpages, hlive ▸ hs.nodup, ?_, hkept.hand.1 ▸ hs.hand,
    hheld ▸ hs.held_nodup, fun f hf => ?_⟩, hkept, hlive⟩
  · rw [hkept.currentPd, hlive]
    exact hs.current
  · rw [hheld] at hf
    rw [hkept.range.1, hkept.range.2]
    exact ⟨hother f (hs.held_own f hf).1, (hs.held_own f hf).2⟩

theorem kfree (hs : a.Inv (Exclusive a.boot) own) (hu : u ∈ a.heap.liveBlocks)
    (h : a.exec (.kfree u.1) = .ok b) : ∃ own', b.Inv (Exclusive a.boot) own' :=
  (hs.kfree_of_window Paging.exclusive_uniform (fun _ _ => Or.inr) hu h).1

/-- **A page fault** that is served. -/
theorem fault (hs : a.Inv (Exclusive a.boot) own) {cr2 errCode : ℕ} (hcr2 : cr2 < 0xFFC00000)
    (hroom : a.paging.currentPd ≠ a.boot ∨ 2 ≤ a.paging.pmm.freeSet.card)
    (h : a.exec (.fault cr2 errCode) = .ok b) : ∃ own', b.Inv (Exclusive a.boot) own' := by
  simp only [exec] at h
  rcases hrun : a.paging.pageFaultHandler cr2 errCode with e | p <;> rw [hrun] at h
  · cases h
  cases h
  have hlt : cr2 < 4294967296 := by omega
  have hpd : pdIndex (cr2 &&& 0xFFFFF000) < 1023 := by
    rw [Paging.pdIndex_page hlt, pdIndex]
    omega
  obtain ⟨s4, hmap, hcase⟩ := Paging.pageFaultHandler_cases hlt hrun
  obtain ⟨s1, s2, s3, own1, own3, own4, f, hnew⟩ :=
    hs.pageInv.mapFresh_ok hs.current hs.hand hroom hpd hmap
  have hrange : s4.pmm.baseUsableFrame = a.paging.pmm.baseUsableFrame ∧
      s4.pmm.totalFrames = a.paging.pmm.totalFrames := by
    rw [hnew.mapped.range.1, hnew.mapped.range.2, hnew.evicted₂.range.1, hnew.evicted₂.range.2,
      hnew.fresh.range.1, hnew.fresh.range.2]
    exact hnew.evicted₁.range
  -- the new frame was free, so it is none of those held
  have hother : ∀ g ∈ a.held, Function.update own4 f (pageRole a.paging.currentPd
      (pdIndex (cr2 &&& 0xFFFFF000))
      (s4.entry a.paging.currentPd (pdIndex (cr2 &&& 0xFFFFF000)) / 4096)
      (ptIndex (cr2 &&& 0xFFFFF000))) g = .other := fun g hg => by
    have h1 := hnew.evicted₁.client_kept (hs.held_own g hg).1
    have hne : g ≠ f := fun heq => by
      rw [heq, hnew.fresh.was_free] at h1
      cases h1
    have h3 : own3 g = .other := hnew.evicted₂.client_kept (by rw [update_of_ne hne, h1])
    rw [update_of_ne hne, hnew.mapped.own_kept g (by rw [h3]; exact Role.noConfusion), h3]
  rcases hcase with ⟨-, rfl⟩ | ⟨-, rfl⟩
  · exact ⟨_, hs.withPaging hnew.inv hnew.currentPd (hnew.hand hs.hand) hrange hother⟩
  · have hpage : (cr2 &&& 0xFFFFF000) % 4096 = 0 := by rw [and_pageMask hlt, Nat.mul_mod_left]
    exact ⟨_, hs.withPaging (hnew.readBack_inv hs.current hpage _).1 hnew.currentPd
      (hnew.hand hs.hand) hrange hother⟩

/-- **`paging_swap_out`** of an exclusive page. -/
theorem swapOut (hs : a.Inv (Exclusive a.boot) own) (hv : virt < 0xFFC00000)
    (hexcl : Exclusive a.boot a.paging.currentPd (pdIndex virt))
    (h : a.exec (.swapOut virt) = .ok b) : ∃ own', b.Inv (Exclusive a.boot) own' := by
  cases h
  have hlt : virt < 4294967296 := by omega
  have hpd : pdIndex virt < 1023 := by
    rw [pdIndex]
    omega
  rcases Paging.pagingSwapOut_cases (s := a.paging) hlt with
    ⟨disk, -, hout, -⟩ | ⟨p, slot, port, hout, hswapped⟩
  · rw [hout]
    exact ⟨own, hs.withPaging (hs.pages.congr rfl rfl) rfl hs.hand ⟨rfl, rfl⟩ fun f hf =>
      (hs.held_own f hf).1⟩
  · rw [hout]
    have hj := Paging.ptIndex_lt virt
    obtain ⟨own', hpages, hkept, -, -⟩ := Paging.PageInvOn.swapOut hs.pages Paging.exclusive_uniform
      hs.current hpd hj hexcl hswapped
    have hrole := hs.pages.page_own _ hs.current _ hpd _ hj hexcl hswapped.present
    refine ⟨own', hs.withPaging hpages (by rw [hswapped.result]; rfl)
      (by rw [hswapped.result]; exact hs.hand) ?_ fun f hf => ?_⟩
    · rw [hswapped.result]
      exact ⟨pmmFreeFrame_base _ _, pmmFreeFrame_total _ _⟩
    · rw [hkept f, (hs.held_own f hf).1]
      rintro rfl
      rw [(hs.held_own _ hf).1] at hrole
      exact pageRole_ne_other _ _ _ _ hrole.symm

/-- **`paging_create_directory`** -/
theorem create (hs : a.Inv (Exclusive a.boot) own) (hroom : a.paging.Room a.boot)
    (h : a.exec .create = .ok b) : ∃ own', b.Inv (Exclusive a.boot) own' := by
  simp only [exec] at h
  rcases hrun : a.paging.pagingCreateDirectory with e | ⟨p, pd⟩ <;> rw [hrun] at h
  · cases h
  cases h
  obtain ⟨s1, own1, f, hclear, rfl, hcreated⟩ :=
    hs.pageInv.create_cleared hs.current hs.hand hroom hrun
  have hcur1 : s1.currentPd ∈ a.live := hclear.currentPd ▸ hs.current
  have hnew : f * 4096 ∉ a.live := fun hmem =>
    (hclear.inv.free_apart ((hclear.inv.free_iff f).mp hcreated.was_free) hmem).1 rfl
  refine ⟨_, hs.addDirectory (hcreated.pageInv hclear.inv hcur1) hnew
    (hcreated.currentPd.trans hclear.currentPd) (hcreated.hand.1 ▸ hclear.hand hs.hand)
    ⟨hcreated.range.1.trans hclear.range.1, hcreated.range.2.trans hclear.range.2⟩
    fun g hg => ?_⟩
  have h1 := hclear.client_kept (hs.held_own g hg).1
  have hne : g ≠ f := fun heq => by
    rw [heq, hcreated.was_free] at h1
    cases h1
  rw [update_of_ne hne, h1]

omit [Disk D] in
theorem switchTo {ex : ℕ → ℕ → Prop} (hs : a.Inv ex own) (hpd : pd ∈ a.live) :
    (a.withPaging { a.paging with currentPd := pd }).Inv ex own :=
  ⟨hs.sound.withPaging _, hs.pages.congr rfl rfl, hs.nodup, hpd, hs.hand, hs.held_nodup,
    hs.held_own⟩

/-- **`paging_switch_directory`** -/
theorem switch {ex : ℕ → ℕ → Prop} (hs : a.Inv ex own) (hpd : pd ∈ a.live)
    (h : a.exec (.switch pd) = .ok b) : b.Inv ex own := by
  cases h
  rw [Paging.pagingSwitchDirectory_eq]
  exact hs.switchTo hpd

/-- **`paging_destroy_directory`** of a directory that owns its pages. The loaded directory is
refused. -/
theorem destroy_of_pages {ex : ℕ → ℕ → Prop} (hs : a.Inv ex own) (hpd : pd ∈ a.dirs)
    (howned : pd ≠ a.paging.currentPd → ∀ i < 768, ∀ j < 1024, a.paging.pte pd i j % 2 = 1 →
      own (a.paging.pte pd i j / 4096) = .userPage pd i j)
    (h : a.exec (.destroy pd) = .ok b) : ∃ own', b.Inv ex own' := by
  cases h
  by_cases hcur : pd = a.paging.currentPd
  · rw [if_pos hcur, show a.paging.pagingDestroyDirectory pd = a.paging by
      simp only [Paging.pagingDestroyDirectory, if_pos hcur]]
    exact ⟨own, hs⟩
  rw [if_neg hcur, Paging.pagingDestroyDirectory_eq hcur]
  have hboot : pd ≠ a.boot := fun heq => (List.nodup_cons.mp hs.nodup).1 (heq ▸ hpd)
  have hlive : pd ∈ a.live := mem_cons_of_mem _ hpd
  have herase : a.live.erase pd = a.boot :: a.dirs.erase pd := by
    rw [live, erase_cons_tail]
    simpa using Ne.symm hboot
  obtain ⟨own', hpages, -, hkept⟩ := hs.pages.destroy hs.nodup hlive (howned hcur)
  rw [herase] at hpages
  have hnodup : (a.boot :: a.dirs.erase pd).Nodup := herase ▸ hs.nodup.erase pd
  have hcur' : a.paging.currentPd ∈ a.boot :: a.dirs.erase pd :=
    herase ▸ (mem_erase_of_ne (Ne.symm hcur)).mpr hs.current
  have hrange := Paging.pmmFreeFrame_foldl_range (a.paging.spaceFrames pd) a.paging.pmm
  generalize (a.paging.spaceFrames pd).foldl pmmFreeFrame a.paging.pmm = pmm at hpages hrange ⊢
  refine ⟨own', hs.sound.withPaging _, hpages, hnodup, hcur', hs.hand, hs.held_nodup,
    fun f hf => ?_⟩
  obtain ⟨hown, hmanaged⟩ := hs.held_own f hf
  refine ⟨?_, ?_⟩
  · rw [hkept f, hown]
    · rintro rfl
      rw [hs.pages.dir_own pd hlive] at hown
      cases hown
    · rw [hown]
      exact id
  · change pmm.baseUsableFrame ≤ f ∧ f < pmm.totalFrames
    rw [hrange.1, hrange.2]
    exact hmanaged

theorem destroy (hs : a.Inv (Exclusive a.boot) own) (hpd : pd ∈ a.dirs)
    (h : a.exec (.destroy pd) = .ok b) : ∃ own', b.Inv (Exclusive a.boot) own' := by
  have hboot : pd ≠ a.boot := fun heq => (List.nodup_cons.mp hs.nodup).1 (heq ▸ hpd)
  refine hs.destroy_of_pages hpd (fun _ i hi j hj hp => ?_) h
  rw [hs.pages.page_own pd (mem_cons_of_mem _ hpd) i (by omega) j hj
    (Or.inl ⟨hi, Or.inl hboot⟩) hp, pageRole, if_pos hi]

end Inv

end Kernel

end PenOS
