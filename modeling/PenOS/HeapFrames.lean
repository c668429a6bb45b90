import PenOS.PagingStart
import PenOS.Eviction
import PenOS.HeapPages

/-!
# Heap, page tables and frame manager

The heap counts pages up to `heap_mapped_end`, the page tables map them, the frame manager has given
out their frames. `map_new_page` takes a frame first and asks for the table second; if that was the
last frame, the table is made from an evicted page.
-/

namespace PenOS

open Finset Function

variable {D : Type}

namespace Paging

variable {s s' : Paging D} {ex : ℕ → ℕ → Prop} {live : List ℕ} {own own' : ℕ → Role} {page : ℕ}

/-! ## One page unmapped -/

/-- What unmapping the page leaves: its word is zero, its frame, if it had one, is free. -/
structure Shrunk (s s' : Paging D) (ex : ℕ → ℕ → Prop) (live : List ℕ) (own own' : ℕ → Role)
    (page : ℕ) : Prop extends SameRest s s' where
  inv : s'.PageInvOn ex live own'
  entry_eq : ∀ d ∈ live, ∀ i < 1024, s'.entry d i = s.entry d i
  pte_page : s'.pte s.currentPd (pdIndex page) (ptIndex page) = 0
  pte_other : ∀ d ∈ live, ∀ i < 1023, ∀ j < 1024, i ≠ pdIndex page ∨ j ≠ ptIndex page →
    s'.pte d i j = s.pte d i j
  own_kept : ∀ g, (s.pte s.currentPd (pdIndex page) (ptIndex page) % 2 = 1 →
    g ≠ s.pte s.currentPd (pdIndex page) (ptIndex page) / 4096) → own' g = own g
  own_freed : s.pte s.currentPd (pdIndex page) (ptIndex page) % 2 = 1 →
    own' (s.pte s.currentPd (pdIndex page) (ptIndex page) / 4096) = .free

theorem pagingUnmap_sameRest (s : Paging D) (virt : ℕ) : s.SameRest (s.pagingUnmap virt) := by
  simp only [pagingUnmap]
  rcases s.findPageTable virt with _ | table
  · exact .refl s
  · exact (SameRest.refl s).setEntry _ _ _

/-- The word of the unmapped page. -/
theorem TableInv.pte_pagingUnmap_self (hs : s.TableInv live own) (hcur : s.currentPd ∈ live)
    (hv : pdIndex page < 1023) :
    (s.pagingUnmap page).pte s.currentPd (pdIndex page) (ptIndex page) = 0 := by
  rw [hs.pte_pagingUnmap hcur hv hcur hv (ptIndex_lt page)]
  by_cases hp : s.entry s.currentPd (pdIndex page) % 2 = 1
  · rw [if_pos ⟨rfl, rfl, hp, hp, rfl⟩]
  · rw [if_neg (by tauto), pte_of_absent hp]

section

variable (hs : s.PageInvOn ex live own) (hex : ∀ d d' i, 768 ≤ i → ex d i → ex d' i)
  (hcur : s.currentPd ∈ live) (hv : pdIndex page < 1023)

include hs hex hcur hv

theorem PageInvOn.pagingUnmap : (s.pagingUnmap page).PageInvOn ex live own := by
  by_cases hp : s.entry s.currentPd (pdIndex page) % 2 = 1
  · rw [pagingUnmap_of_present hp]
    exact hs.setPte hcur hv (ptIndex_lt page) hp (fun d => hex d _ _) fun h => absurd h (by decide)
  · rw [pagingUnmap_of_absent hp]
    exact hs

/-- **One round of `heap_trim`.** -/
theorem PageInvOn.shrinkPage (hpage : ex s.currentPd (pdIndex page)) (haligned : page % 4096 = 0) :
    ∃ own', s.Shrunk (s.shrinkPage page) ex live own own' page := by
  have hinv := hs.pagingUnmap hex hcur hv
  have hself := hs.pte_pagingUnmap_self hcur hv
  have hpte := fun d hd i hi j hj => hs.pte_pagingUnmap hcur hv (d := d) (i := i) (j := j) hd hi hj
  have hrest := s.pagingUnmap_sameRest page
  have hentry := (hs.toTableInv.pagingUnmap hcur hv).2
  have hother : ∀ d ∈ live, ∀ i < 1023, ∀ j < 1024, i ≠ pdIndex page ∨ j ≠ ptIndex page →
      (s.pagingUnmap page).pte d i j = s.pte d i j := fun d hd i hi j hj hne => by
    rw [hpte d hd i hi j hj, if_neg (by tauto)]
  by_cases hp : s.pte s.currentPd (pdIndex page) (ptIndex page) % 2 = 1
  · -- the frame behind the page has the role of this page, and no other word names it
    have hrole := hs.page_own _ hcur _ hv _ (ptIndex_lt page) hpage hp
    have hne : s.pte s.currentPd (pdIndex page) (ptIndex page) / 4096 ≠ 0 := by
      have hmanaged := hs.managed
        (by rw [hrole]; exact pageRole_ne_other _ _ _ _)
      have := hs.pmm.floor
      omega
    have hphys : s.pagingVirtToPhys page =
        s.pte s.currentPd (pdIndex page) (ptIndex page) / 4096 * 4096 := by
      rw [pagingVirtToPhys_eq, if_pos hp, haligned, add_zero]
    obtain ⟨own', hrel, hkept, hfree⟩ := hinv.release
      (s.pte s.currentPd (pdIndex page) (ptIndex page) / 4096 * 4096)
      (by rw [frame_div, hrole]; exact pageRole_loose _ _ _ _)
      fun d hd i hi j hj he hpj heq => by
        rw [frame_div] at heq
        rw [hpte d hd i hi j hj] at hpj heq
        split at hpj
        · cases hpj
        · rename_i hsame
          rw [if_neg hsame] at heq
          obtain ⟨rfl, rfl, htable, -⟩ := hs.page_inj hd hcur hi hv hj (ptIndex_lt page) he hpage
            hpj hp heq
          exact hsame ⟨rfl, rfl, entry_of_pte hp, entry_of_pte hpj, htable⟩
    rw [frame_div] at hkept hfree
    have hstate : s.shrinkPage page = { s.pagingUnmap page with
        pmm := pmmFreeFrame (s.pagingUnmap page).pmm
          (s.pte s.currentPd (pdIndex page) (ptIndex page) / 4096 * 4096) } := by
      simp only [Paging.shrinkPage, hphys]
      rw [if_pos (by omega)]
    rw [hstate]
    refine ⟨own', ⟨hrest.currentPd, hrest.swap, hrest.hand, ?_⟩, hrel, hentry, hself, hother,
      fun g hg => hkept g (hg hp), fun _ => hfree ?_⟩
    · rw [pmmFreeFrame_base, pmmFreeFrame_total]
      exact hrest.range
    · rw [hrole]
      exact pageRole_ne_other _ _ _ _
  · have hstate : s.shrinkPage page = s.pagingUnmap page := by
      simp only [Paging.shrinkPage, pagingVirtToPhys_eq, if_neg hp]
      rw [if_neg (by decide)]
    rw [hstate]
    exact ⟨own, hrest, hinv, hentry, hself, hother, fun _ _ => rfl, fun h => absurd h hp⟩

end

/-! ## One page mapped -/

/-- What mapping a new page leaves: a free frame `f` behind its word, and a table, made from another
free frame if need be. -/
structure Grown (s s' : Paging D) (ex : ℕ → ℕ → Prop) (live : List ℕ) (own own' : ℕ → Role)
    (page f : ℕ) : Prop extends SameRest s s' where
  inv : s'.PageInvOn ex live own'
  was_free : own f = .free
  present : s'.entry s.currentPd (pdIndex page) % 2 = 1
  entry_eq : ∀ d ∈ live, ∀ i < 1024, ¬ (d = s.currentPd ∧ i = pdIndex page) →
    s'.entry d i = s.entry d i
  entry_kept : s.entry s.currentPd (pdIndex page) % 2 = 1 →
    s'.entry s.currentPd (pdIndex page) / 4096 = s.entry s.currentPd (pdIndex page) / 4096
  pte_page : s'.pte s.currentPd (pdIndex page) (ptIndex page) % 2 = 1 ∧
    s'.pte s.currentPd (pdIndex page) (ptIndex page) / 4096 = f
  pte_other : ∀ d ∈ live, ∀ i < 1023, ∀ j < 1024, i ≠ pdIndex page ∨ j ≠ ptIndex page →
    s'.pte d i j = s.pte d i j
  own_kept : ∀ g, own g ≠ .free → own' g = own g
  taken : s.entry s.currentPd (pdIndex page) % 2 = 1 →
    s'.pmm.freeSet = s.pmm.freeSet.erase f
  table_taken : s.entry s.currentPd (pdIndex page) % 2 ≠ 1 →
    s'.entry s.currentPd (pdIndex page) / 4096 ∈ s.pmm.freeSet.erase f ∧ s'.pmm.freeSet =
      (s.pmm.freeSet.erase f).erase (s'.entry s.currentPd (pdIndex page) / 4096)

variable [Disk D]

/-- The frame is taken and the table of the page is there, or can be made without evicting. -/
def Ready (s : Paging D) (page : ℕ) : Prop :=
  s.entry s.currentPd (pdIndex page) % 2 = 1 ∨ (pmmAllocFrame s.pmm).1.freeSet.Nonempty

theorem PageInvOn.mapNew (hs : s.PageInvOn ex live own) (hcur : s.currentPd ∈ live)
    (hv : pdIndex page < 1023) (hne : s.pmm.freeSet.Nonempty) (hready : s.Ready page) {flags : ℕ}
    (h : { s with pmm := (pmmAllocFrame s.pmm).1 }.pagingMap page (pmmAllocFrame s.pmm).2 flags =
      .ok s') :
    ∃ own' f, s.Grown s' ex live own own' page f ∧ (pmmAllocFrame s.pmm).2 = f * 4096 := by
  obtain ⟨f, hfree, haddr, hinv⟩ := hs.toTableInv.pmmAlloc hne
  have hbase := hs.managed (by rw [hfree]; exact Role.noConfusion)
  have htotal := hs.pmm.total_le
  rw [haddr] at h
  have hset : (pmmAllocFrame s.pmm).1.freeSet = s.pmm.freeSet.erase f := by
    ext g
    rw [← hinv.free_iff, mem_erase, ← hs.free_iff]
    by_cases hg : g = f
    · subst hg
      simp
    · simp [hg]
  have hpages : { s with pmm := (pmmAllocFrame s.pmm).1 }.PageInvOn ex live
      (update own f .other) :=
    hs.kept hinv (update_kept hfree _) (fun _ _ _ _ _ _ => rfl) fun _ _ _ _ _ => rfl
  obtain ⟨s1, own1, hrun, hm⟩ := hinv.pagingMap hcur hv (f * 4096) flags hready
  obtain rfl := Except.ok.inj (hrun.symm.trans h)
  have hrange : (pmmAllocFrame s.pmm).1.baseUsableFrame = s.pmm.baseUsableFrame ∧
      (pmmAllocFrame s.pmm).1.totalFrames = s.pmm.totalFrames := by
    rw [pmmAllocFrame_of_nonempty hs.pmm hne]
    exact ⟨rfl, rfl⟩
  have hmapped := hpages.mapped hm hcur hv (by omega)
    (by rw [frame_div]; exact update_self ..)
    (by rw [frame_div]; exact hrange.1.symm ▸ hrange.2.symm ▸ hbase)
  rw [frame_div] at hmapped
  have hword := hm.pte_current hcur
  refine ⟨_, f, ⟨⟨hm.currentPd, hm.swap, hm.hand, hm.range.1.trans hrange.1,
    hm.range.2.trans hrange.2⟩, hmapped, hfree, hm.present, hm.entry_eq, fun hp => ?_, ?_,
    hm.pte_other, fun g hg => ?_, fun hp => ?_, fun hp => ?_⟩, haddr⟩
  · rcases hm.kept hp with hk | ⟨-, hk⟩
    · rw [hk]
      rfl
    · rw [hk]
      exact (or_user_facts (s.entry_lt _ _)).2.1
  · rw [hword]
    have hframe := pageEntry_frame (f * 4096) flags
    rw [frameOf_eq (by omega), frame_div] at hframe
    exact ⟨pageEntry_mod_two _ _, by omega⟩
  · have hgf : g ≠ f := by
      rintro rfl
      exact hg hfree
    rw [update_of_ne hgf, hm.own_kept g (by rw [update_of_ne hgf]; exact hg),
      update_of_ne hgf]
  · rw [hm.pmm_kept hp]
    exact hset
  · have := hm.table_frame hp
    rw [← hset]
    exact this

/-- **`map_new_page`**, if it returns and did not evict. -/
theorem PageInvOn.growPage (hs : s.PageInvOn ex live own) (hcur : s.currentPd ∈ live)
    (hv : pdIndex page < 1023) (hready : s.Ready page) (h : s.growPage page = .ok s') :
    ∃ own' f, s.Grown s' ex live own own' page f ∧ (pmmAllocFrame s.pmm).2 = f * 4096 := by
  simp only [Paging.growPage] at h
  split_ifs at h with h0
  refine hs.mapNew hcur hv ?_ hready h
  by_contra hno
  rw [pmmAllocFrame_of_empty hs.pmm (not_nonempty_iff_eq_empty.mp hno)] at h0
  exact h0 rfl

/-- With two free frames a new page can be mapped. -/
theorem TableInv.growPage_ok (hs : s.TableInv live own) (hcur : s.currentPd ∈ live)
    (hv : pdIndex page < 1023) (hfree : 2 ≤ s.pmm.freeSet.card) :
    s.Ready page ∧ ∃ s', s.growPage page = .ok s' := by
  have hne : s.pmm.freeSet.Nonempty := card_pos.mp (by omega)
  obtain ⟨f, hf, haddr, hinv⟩ := hs.pmmAlloc hne
  have hbase := hs.managed (by rw [hf]; exact Role.noConfusion)
  have hfloor := hs.pmm.floor
  have hleft : (pmmAllocFrame s.pmm).1.freeSet.Nonempty := by
    refine card_pos.mp ?_
    rw [pmmAllocFrame_of_nonempty hs.pmm hne, Pmm.freeSet_takeFrame,
      card_erase_of_mem (min'_mem _ hne)]
    omega
  obtain ⟨s', own', hmap, -⟩ := hinv.pagingMap hcur hv (pmmAllocFrame s.pmm).2
    (pageRw ||| pagePresent) (.inr hleft)
  refine ⟨.inr hleft, s', ?_⟩
  simp only [growPage]
  rw [if_neg (by omega)]
  exact hmap

omit [Disk D] in
/-- A new page takes two frames at most. -/
theorem Grown.card {f : ℕ} (hg : s.Grown s' ex live own own' page f) (hs : s.TableInv live own) :
    s.pmm.freeSet.card ≤ s'.pmm.freeSet.card + 2 := by
  have hcard := card_erase_add_one ((hs.free_iff f).mp hg.was_free)
  by_cases hp : s.entry s.currentPd (pdIndex page) % 2 = 1
  · rw [hg.taken hp]
    omega
  · have hcard2 := card_erase_add_one (hg.table_taken hp).1
    rw [(hg.table_taken hp).2]
    omega

/-! ## Without swap space -/

theorem ready_of_no_swap (hs : s.pmm.Inv) (hport : s.swap.swapPort = none)
    (h : s.growPage page = .ok s') : s.Ready page := by
  by_contra hready
  obtain ⟨habs, hempty⟩ := not_or.mp hready
  have hinv := pmmAllocFrame_inv hs
  simp only [growPage] at h
  split_ifs at h
  have hentry : { s with pmm := (pmmAllocFrame s.pmm).1 }.entry s.currentPd
      (pdIndex page) % 2 ≠ 1 :=
    habs
  have hnone := allocFrameZero_of_exhausted (s := { s with pmm := (pmmAllocFrame s.pmm).1 }) hinv
    (not_nonempty_iff_eq_empty.mp hempty) hport
  simp only [pagingMap, getPageTable, hasFlag_present, decide_eq_false hentry, Bool.not_false,
    if_true, hnone] at h
  cases h

end Paging

/-! ## Frames for the next pages -/

namespace Paging

variable {s s' : Paging D} {ex : ℕ → ℕ → Prop} {live : List ℕ} {own own' : ℕ → Role} {e f k : ℕ}

/-- The entries of the heap window. -/
def InWindow (_ i : ℕ) : Prop := 772 ≤ i ∧ i < 776

theorem inWindow_uniform (d d' i : ℕ) (_ : 768 ≤ i) (h : InWindow d i) : InWindow d' i := h

theorem InWindow.lt {d i : ℕ} (h : InWindow d i) : i < 1023 := by
  simp only [InWindow] at h
  omega

/-- An address of the window, by its two indices. -/
theorem inWindow_of_range {v : ℕ} (d : ℕ) (hlo : heapStart ≤ v) (hhi : v < heapEnd) :
    InWindow d (pdIndex v) ∧ v = pdIndex v * 4194304 + ptIndex v * 4096 + v % 4096 := by
  have hlayout := heap_layout
  simp only [InWindow, pdIndex, ptIndex]
  omega

/-- The entries of the window that have no table. -/
def missingTables (s : Paging D) : Finset ℕ :=
  (Finset.Ico 772 776).filter fun i => s.entry s.currentPd i % 2 ≠ 1

/-- Nothing can be evicted, or there are `k` free frames besides those for the tables the
window may still need. -/
def Plenty (s : Paging D) (k : ℕ) : Prop :=
  s.swap.swapPort = none ∨ k + s.missingTables.card ≤ s.pmm.freeFrames

/-- The next `k` pages of the window can be mapped without an eviction. -/
def Supply (s : Paging D) (k : ℕ) : Prop := s.missingTables = ∅ ∨ s.Plenty k

theorem Plenty.mono {j : ℕ} (h : s.Plenty k) (hjk : j ≤ k) : s.Plenty j := h.imp_right (by omega)

theorem Supply.mono {j : ℕ} (h : s.Supply k) (hjk : j ≤ k) : s.Supply j :=
  h.imp_right fun hp => hp.mono hjk

theorem mem_missingTables {i : ℕ} (hi : InWindow s.currentPd i) :
    i ∈ s.missingTables ↔ s.entry s.currentPd i % 2 ≠ 1 := by
  simp only [InWindow] at hi
  simp [missingTables, hi]

theorem Grown.missingTables (hg : s.Grown s' ex live own own' e f) (hcur : s.currentPd ∈ live) :
    s'.missingTables = s.missingTables.erase (pdIndex e) := by
  ext i
  rw [mem_erase]
  by_cases hi : InWindow s.currentPd i
  · have hi' : InWindow s'.currentPd i := hi
    rw [mem_missingTables hi, mem_missingTables hi', hg.currentPd]
    by_cases hie : i = pdIndex e
    · subst hie
      exact iff_of_false (fun h => h hg.present) fun h => h.1 rfl
    · rw [hg.entry_eq _ hcur i (hi.lt.trans (by decide)) (by tauto)]
      exact (and_iff_right hie).symm
  · have hout : ∀ t : Paging D, i ∉ t.missingTables := fun t ht => by
      simp only [Paging.missingTables, mem_filter, mem_Ico] at ht
      exact hi ht.1
    exact iff_of_false (hout s') fun h => hout s h.2

/-- A new page takes one frame from the supply. -/
theorem Plenty.grown (hp : s.Plenty (k + 1)) (hs : s.TableInv live own) (hcur : s.currentPd ∈ live)
    (hwin : InWindow s.currentPd (pdIndex e)) (hg : s.Grown s' ex live own own' e f) :
    s'.Plenty k := by
  have hcard := card_erase_add_one ((hs.free_iff f).mp hg.was_free)
  refine hp.imp (fun hport => by rw [hg.swap]; exact hport) fun hroom => ?_
  rw [hs.pmm.count] at hroom
  rw [hg.inv.pmm.count, hg.missingTables hcur]
  by_cases hp : s.entry s.currentPd (pdIndex e) % 2 = 1
  · rw [hg.taken hp, erase_eq_of_notMem fun h => (mem_missingTables hwin).mp h hp]
    omega
  · have hcard2 := card_erase_add_one ((mem_missingTables hwin).mpr hp)
    have hcard3 := card_erase_add_one (hg.table_taken hp).1
    rw [(hg.table_taken hp).2]
    omega

theorem Supply.grown (hsup : s.Supply (k + 1)) (hs : s.TableInv live own)
    (hcur : s.currentPd ∈ live) (hwin : InWindow s.currentPd (pdIndex e))
    (hg : s.Grown s' ex live own own' e f) : s'.Supply k :=
  hsup.imp (fun hnone => by rw [hg.missingTables hcur, hnone]; rfl)
    fun hp => hp.grown hs hcur hwin hg

theorem Supply.ready [Disk D] (hsup : s.Supply (k + 1)) (hs : s.pmm.Inv)
    (hwin : InWindow s.currentPd (pdIndex e)) (h : s.growPage e = .ok s') : s.Ready e := by
  rcases hsup with hnone | hport | hroom
  · left
    by_contra hp
    have hmem := (mem_missingTables hwin).mpr hp
    rw [hnone] at hmem
    exact notMem_empty _ hmem
  · exact ready_of_no_swap hs hport h
  · by_cases hp : s.entry s.currentPd (pdIndex e) % 2 = 1
    · exact .inl hp
    · -- one frame for the page and one for its table
      have hpos := card_pos.mpr ⟨_, (mem_missingTables hwin).mpr hp⟩
      rw [hs.count] at hroom
      have hne : s.pmm.freeSet.Nonempty := card_pos.mp (by omega)
      refine .inr (card_pos.mp ?_)
      rw [pmmAllocFrame_of_nonempty hs hne, Pmm.freeSet_takeFrame,
        card_erase_of_mem (min'_mem _ hne)]
      omega

theorem PageInvOn.growUp_succ [Disk D] (hs : s.PageInvOn ex live own) (hcur : s.currentPd ∈ live)
    (hlo : heapStart ≤ e) (hhi : e < heapEnd) (hsup : s.Supply (k + 1))
    (h : Paging.growUp (k + 1) s e = .ok s') :
    ∃ s1 own1 f, InWindow s.currentPd (pdIndex e) ∧ s.Ready e ∧ s.growPage e = .ok s1 ∧
      s.Grown s1 ex live own own1 e f ∧ (pmmAllocFrame s.pmm).2 = f * 4096 ∧ s1.Supply k ∧
      Paging.growUp k s1 (e + 4096) = .ok s' := by
  rw [growUp] at h
  rcases hgrow : s.growPage e with err | s1 <;> rw [hgrow] at h
  · cases h
  obtain ⟨hwin, -⟩ := inWindow_of_range s.currentPd hlo hhi
  have hready := hsup.ready hs.pmm hwin hgrow
  obtain ⟨own1, f, hg, hf⟩ := hs.growPage hcur hwin.lt hready hgrow
  exact ⟨s1, own1, f, hwin, hready, rfl, hg, hf, hsup.grown hs.toTableInv hcur hwin hg, h⟩

/-- The last of several pages of the heap. -/
theorem PageInvOn.shrink_succ (hs : s.PageInvOn ex live own)
    (hex : ∀ d d' i, 768 ≤ i → ex d i → ex d' i) (hheap : ∀ d i, InWindow d i → ex d i)
    (hcur : s.currentPd ∈ live) (hlo : heapStart + (k + 1) * 4096 ≤ e) (hhi : e ≤ heapEnd)
    (haligned : e % 4096 = 0) : ∃ own1, InWindow s.currentPd (pdIndex (e - 4096)) ∧
      s.Shrunk (s.shrinkPage (e - 4096)) ex live own own1 (e - 4096) ∧
      heapStart + k * 4096 ≤ e - 4096 ∧ e - 4096 ≤ heapEnd ∧ (e - 4096) % 4096 = 0 := by
  have hlast : (e - 4096) % 4096 = 0 := by omega
  have hlo1 : heapStart + k * 4096 ≤ e - 4096 := by
    rw [Nat.succ_mul, ← add_assoc] at hlo
    exact Nat.le_sub_of_add_le hlo
  have hhi1 : e - 4096 < heapEnd := by omega
  obtain ⟨hwin, -⟩ := inWindow_of_range s.currentPd (by omega) hhi1
  obtain ⟨own1, hg⟩ := hs.shrinkPage hex hcur hwin.lt (hheap _ _ hwin) hlast
  exact ⟨own1, hwin, hg, hlo1, hhi1.le, hlast⟩

end Paging

/-! ## One directory -/

/-- The frame is managed and not free. -/
def Pmm.Taken (p : Pmm) (f : ℕ) : Prop :=
  p.baseUsableFrame ≤ f ∧ f < p.totalFrames ∧ f ∉ p.freeSet

namespace Paging

variable {s s' : Paging D} {live : List ℕ} {own own' : ℕ → Role} {page : ℕ}

/-- The current directory and its tables are distinct frames in use. -/
structure OneDirectory (s : Paging D) : Prop where
  pmm : s.pmm.Inv
  aligned : s.currentPd % 4096 = 0
  taken : s.pmm.Taken (s.currentPd / 4096)
  table_taken : ∀ i < 1023, s.entry s.currentPd i % 2 = 1 →
    s.pmm.Taken (s.entry s.currentPd i / 4096)
  table_ne : ∀ i < 1023, s.entry s.currentPd i % 2 = 1 →
    s.entry s.currentPd i / 4096 ≠ s.currentPd / 4096
  table_inj : ∀ i < 1023, ∀ i' < 1023, s.entry s.currentPd i % 2 = 1 →
    s.entry s.currentPd i' % 2 = 1 →
    s.entry s.currentPd i / 4096 = s.entry s.currentPd i' / 4096 → i = i'

theorem TableInv.taken (hs : s.TableInv live own) {f : ℕ} (h : own f ≠ .other)
    (hfree : own f ≠ .free) : s.pmm.Taken f :=
  ⟨(hs.managed h).1, (hs.managed h).2, fun hmem => hfree ((hs.free_iff f).mpr hmem)⟩

/-- Every directory of the system is one. -/
theorem TableInv.oneDirectory (hs : s.TableInv live own) (hcur : s.currentPd ∈ live) :
    s.OneDirectory where
  pmm := hs.pmm
  aligned := hs.dir_aligned _ hcur
  taken := by
    have hdir := hs.dir_own _ hcur
    exact hs.taken (by rw [hdir]; exact Role.noConfusion) (by rw [hdir]; exact Role.noConfusion)
  table_taken i hi hp := by
    have htable := hs.table_own _ hcur i hi hp
    refine hs.taken (fun h => ?_) (by rw [htable]; exact tableRole_ne_free _ _)
    have hloose : (tableRole s.currentPd i).Loose := by
      rw [← htable, h]
      trivial
    exact tableRole_not_loose _ _ hloose
  table_ne i hi hp h := by
    have hdir := hs.dir_own _ hcur
    rw [← h, hs.table_own _ hcur i hi hp] at hdir
    exact tableRole_ne_directory _ _ hdir
  table_inj i hi i' hi' hp hp' h := (hs.table_inj hcur hcur hi hi' hp hp' h).1

theorem OneDirectory.exists_own (hs : s.OneDirectory) : ∃ own, s.TableInv [s.currentPd] own := by
  classical
  let own : ℕ → Role := fun g =>
    if g ∈ s.pmm.freeSet then .free
    else if g = s.currentPd / 4096 then .directory
    else if h : ∃ i, i < 1023 ∧ s.entry s.currentPd i % 2 = 1 ∧ s.entry s.currentPd i / 4096 = g
      then tableRole s.currentPd h.choose else .other
  refine ⟨own, hs.pmm, fun g => ?_, fun g hg => ?_, fun d hd => ?_, fun d hd => ?_,
    fun d hd i hi hp => ?_⟩
  · simp only [own]
    split_ifs with h1 h2 h3
    · exact iff_of_true rfl h1
    · exact iff_of_false id h1
    · exact iff_of_false (tableRole_ne_free _ _) h1
    · exact iff_of_false id h1
  · -- nothing outside the managed range is in use here
    have hout : ∀ f, s.pmm.Taken f → g ≠ f := by
      rintro f ⟨h1, h2, -⟩ rfl
      omega
    have hfree : g ∉ s.pmm.freeSet := fun h => by
      have := Pmm.mem_freeSet.mp h
      omega
    simp only [own, if_neg hfree, if_neg (hout _ hs.taken)]
    refine dif_neg ?_
    rintro ⟨i, hi, hp, rfl⟩
    exact hout _ (hs.table_taken i hi hp) rfl
  · obtain rfl := mem_singleton.mp hd
    exact hs.aligned
  · obtain rfl := mem_singleton.mp hd
    simp only [own, if_neg hs.taken.2.2, if_true]
  · obtain rfl := mem_singleton.mp hd
    have hex : ∃ i', i' < 1023 ∧ s.entry s.currentPd i' % 2 = 1 ∧
        s.entry s.currentPd i' / 4096 = s.entry s.currentPd i / 4096 := ⟨i, hi, hp, rfl⟩
    obtain ⟨hi', hp', heq⟩ := hex.choose_spec
    simp only [own, if_neg (hs.table_taken i hi hp).2.2, if_neg (hs.table_ne i hi hp), dif_pos hex]
    rw [hs.table_inj _ hi' _ hi hp' hp heq]

/-! ## The window of one directory -/

/-- From `s₀`, with no page in the window, to `s`, with those up to `e`: their frames and those of
their tables were free in `s₀`, and no others were given out. -/
structure WindowInv (s₀ s : Paging D) (own₀ own : ℕ → Role) (e : ℕ) : Prop where
  inv : s.PageInvOn InWindow [s₀.currentPd] own
  currentPd : s.currentPd = s₀.currentPd
  present_iff : ∀ i j, InWindow s₀.currentPd i → j < 1024 →
    (s.pte s₀.currentPd i j % 2 = 1 ↔ i * 4194304 + j * 4096 < e)
  own_kept : ∀ g, own₀ g ≠ .free → own g = own₀ g
  page_new : ∀ i j, InWindow s₀.currentPd i → j < 1024 → s.pte s₀.currentPd i j % 2 = 1 →
    own₀ (s.pte s₀.currentPd i j / 4096) = .free
  table_kept : ∀ i, InWindow s₀.currentPd i → s₀.entry s₀.currentPd i % 2 = 1 →
    s.entry s₀.currentPd i % 2 = 1
  table_new : ∀ i, InWindow s₀.currentPd i → s₀.entry s₀.currentPd i % 2 ≠ 1 →
    s.entry s₀.currentPd i % 2 = 1 → own₀ (s.entry s₀.currentPd i / 4096) = .free
  own_new : ∀ g, own₀ g = .free → own g = .free ∨
    (∃ i j, InWindow s₀.currentPd i ∧ j < 1024 ∧ s.pte s₀.currentPd i j % 2 = 1 ∧
      s.pte s₀.currentPd i j / 4096 = g) ∨
    ∃ i, InWindow s₀.currentPd i ∧ s₀.entry s₀.currentPd i % 2 ≠ 1 ∧
      s.entry s₀.currentPd i % 2 = 1 ∧ s.entry s₀.currentPd i / 4096 = g

variable {s₀ : Paging D} {own₀ : ℕ → Role} {e : ℕ}

/-- The start: no page. -/
theorem WindowInv.start (hs : s₀.TableInv [s₀.currentPd] own₀)
    (hnone : ∀ i j, InWindow s₀.currentPd i → j < 1024 → s₀.pte s₀.currentPd i j % 2 ≠ 1) :
    s₀.WindowInv s₀ own₀ own₀ heapStart := by
  have hlayout := heap_layout
  refine ⟨⟨hs, fun d hd i hi j hj he hp => ?_⟩, rfl, fun i j hi hj => ?_, fun _ _ => rfl,
    fun i j hi hj hp => absurd hp (hnone i j hi hj), fun _ _ hp => hp,
    fun i _ ha hp => absurd hp ha,
    fun g hg => .inl hg⟩
  · obtain rfl := mem_singleton.mp hd
    exact absurd hp (hnone i j he hj)
  · simp only [InWindow] at hi
    exact iff_of_false (hnone i j hi hj) (by omega)

theorem WindowInv.free_old (hw : s₀.WindowInv s own₀ own e) {g : ℕ} (h : own g = .free) :
    own₀ g = .free := by
  by_contra hne
  exact hne ((hw.own_kept g hne).symm.trans h)

theorem WindowInv.grown (hw : s₀.WindowInv s own₀ own e) (hlo : heapStart ≤ e) (hhi : e < heapEnd)
    (haligned : e % 4096 = 0) {f : ℕ} (hg : s.Grown s' InWindow [s₀.currentPd] own own' e f) :
    s₀.WindowInv s' own₀ own' (e + 4096) := by
  have hmem := mem_singleton_self s₀.currentPd
  obtain ⟨hwin, hvirt⟩ := inWindow_of_range s₀.currentPd hlo hhi
  have hcur := hw.currentPd
  have hpage := hg.pte_page
  have hpresent := hg.present
  have hentry_eq := hg.entry_eq
  have htable_taken := hg.table_taken
  have htaken := hg.taken
  have hentry_kept := hg.entry_kept
  rw [hcur] at hpage hpresent hentry_eq htable_taken htaken hentry_kept
  -- the new page is at `(pdIndex e, ptIndex e)`; all other words are as before
  have hother : ∀ i j, InWindow s₀.currentPd i → j < 1024 → ¬ (i = pdIndex e ∧ j = ptIndex e) →
      s'.pte s₀.currentPd i j = s.pte s₀.currentPd i j := fun i j hi hj hne =>
    hg.pte_other _ hmem i hi.lt j hj (by tauto)
  have hoff : ¬ s.pte s₀.currentPd (pdIndex e) (ptIndex e) % 2 = 1 := fun hp => by
    have := (hw.present_iff _ _ hwin (ptIndex_lt e)).mp hp
    omega
  refine ⟨hg.inv, hg.currentPd.trans hcur, fun i j hi hj => ?_, fun g hg' => ?_,
    fun i j hi hj hp => ?_, fun i hi hp => ?_, fun i hi ha hp => ?_, fun g hg' => ?_⟩
  · by_cases hij : i = pdIndex e ∧ j = ptIndex e
    · obtain ⟨rfl, rfl⟩ := hij
      exact iff_of_true hpage.1 (by omega)
    · rw [hother i j hi hj hij, hw.present_iff i j hi hj]
      have := ptIndex_lt e
      omega
  · have h := hw.own_kept g hg'
    rw [hg.own_kept g (by rw [h]; exact hg'), h]
  · by_cases hij : i = pdIndex e ∧ j = ptIndex e
    · obtain ⟨rfl, rfl⟩ := hij
      rw [hpage.2]
      exact hw.free_old hg.was_free
    · rw [hother i j hi hj hij] at hp ⊢
      exact hw.page_new i j hi hj hp
  · by_cases hie : i = pdIndex e
    · subst hie
      exact hpresent
    · rw [hentry_eq _ hmem i (hi.lt.trans (by decide)) (by tauto)]
      exact hw.table_kept i hi hp
  · by_cases hie : i = pdIndex e
    · subst hie
      by_cases hold : s.entry s₀.currentPd (pdIndex e) % 2 = 1
      · rw [hentry_kept hold]
        exact hw.table_new _ hi ha hold
      · have hfree := mem_of_mem_erase (htable_taken hold).1
        exact hw.free_old ((hw.inv.free_iff _).mpr hfree)
    · have he := hentry_eq _ hmem i (hi.lt.trans (by decide)) (by tauto)
      rw [he] at hp ⊢
      exact hw.table_new i hi ha hp
  · rcases hw.own_new g hg' with hfree | ⟨i, j, hi, hj, hp, hframe⟩ | ⟨i, hi, ha, hp, htable⟩
    · -- the frame is still free, or it is the new page, or its new table
      have hmemg := (hw.inv.free_iff g).mp hfree
      by_cases hgf : g = f
      · exact .inr (.inl ⟨_, _, hwin, ptIndex_lt e, hpage.1, hpage.2.trans hgf.symm⟩)
      by_cases hold : s.entry s₀.currentPd (pdIndex e) % 2 = 1
      · left
        rw [hg.inv.free_iff, htaken hold]
        exact mem_erase.mpr ⟨hgf, hmemg⟩
      · by_cases hgt : g = s'.entry s₀.currentPd (pdIndex e) / 4096
        · exact .inr (.inr ⟨_, hwin, fun hp => hold (hw.table_kept _ hwin hp), hpresent,
            hgt.symm⟩)
        · left
          rw [hg.inv.free_iff, (htable_taken hold).2]
          exact mem_erase.mpr ⟨hgt, mem_erase.mpr ⟨hgf, hmemg⟩⟩
    · refine .inr (.inl ⟨i, j, hi, hj, ?_⟩)
      rw [hother i j hi hj]
      · exact ⟨hp, hframe⟩
      · rintro ⟨rfl, rfl⟩
        exact hoff hp
    · refine .inr (.inr ⟨i, hi, ha, ?_⟩)
      by_cases hie : i = pdIndex e
      · subst hie
        exact ⟨hpresent, (hentry_kept hp).trans htable⟩
      · rw [hentry_eq _ hmem i (hi.lt.trans (by decide)) (by tauto)]
        exact ⟨hp, htable⟩

/-- The words after one page less. -/
theorem WindowInv.shrunk_pte (hw : s₀.WindowInv s own₀ own e)
    (hs : s.Shrunk s' InWindow [s₀.currentPd] own own' page) {i j : ℕ}
    (hi : InWindow s₀.currentPd i) (hj : j < 1024) : s'.pte s₀.currentPd i j =
      if i = pdIndex page ∧ j = ptIndex page then 0 else s.pte s₀.currentPd i j := by
  have hmem := mem_singleton_self s₀.currentPd
  split_ifs with hij
  · obtain ⟨rfl, rfl⟩ := hij
    rw [← hw.currentPd]
    exact hs.pte_page
  · exact hs.pte_other _ hmem i hi.lt j hj (by tauto)

theorem WindowInv.shrunk (hw : s₀.WindowInv s own₀ own e) (hlo : heapStart + 4096 ≤ e)
    (hhi : e ≤ heapEnd) (haligned : e % 4096 = 0)
    (hs : s.Shrunk s' InWindow [s₀.currentPd] own own' (e - 4096)) :
    s₀.WindowInv s' own₀ own' (e - 4096) := by
  have hmem := mem_singleton_self s₀.currentPd
  obtain ⟨hwin, hvirt⟩ := inWindow_of_range (v := e - 4096) s₀.currentPd (by omega) (by omega)
  have hpte := fun i j hi hj => hw.shrunk_pte hs (i := i) (j := j) hi hj
  have hpt := ptIndex_lt (e - 4096)
  have hpresent := (hw.present_iff _ _ hwin hpt).mpr (by omega)
  have hkept := hs.own_kept
  have hfreed := hs.own_freed
  rw [hw.currentPd] at hkept hfreed
  have hfree := hfreed hpresent
  have hentry : ∀ i, InWindow s₀.currentPd i → s'.entry s₀.currentPd i = s.entry s₀.currentPd i :=
    fun i hi => hs.entry_eq _ hmem i (hi.lt.trans (by decide))
  refine ⟨hs.inv, hs.currentPd.trans hw.currentPd, fun i j hi hj => ?_, fun g hg => ?_,
    fun i j hi hj hp => ?_, fun i hi hp => ?_, fun i hi ha hp => ?_, fun g hg => ?_⟩
  · rw [hpte i j hi hj]
    split_ifs with hij
    · exact iff_of_false (by decide) (by omega)
    · rw [hw.present_iff i j hi hj]
      omega
  · rw [← hw.own_kept g hg]
    refine hkept g fun _ heq => hg ?_
    rw [heq]
    exact hw.page_new _ _ hwin hpt hpresent
  · rw [hpte i j hi hj] at hp ⊢
    split_ifs at hp ⊢ with hij
    exact hw.page_new i j hi hj hp
  · rw [hentry i hi]
    exact hw.table_kept i hi hp
  · rw [hentry i hi] at hp ⊢
    exact hw.table_new i hi ha hp
  · by_cases hgp : g = s.pte s₀.currentPd (pdIndex (e - 4096)) (ptIndex (e - 4096)) / 4096
    · exact .inl (hgp ▸ hfree)
    rw [hkept g fun _ => hgp]
    rcases hw.own_new g hg with h | ⟨i, j, hi, hj, hp, hframe⟩ | ⟨i, hi, ha, hp, htable⟩
    · exact .inl h
    · refine .inr (.inl ⟨i, j, hi, hj, ?_⟩)
      rw [hpte i j hi hj, if_neg]
      · exact ⟨hp, hframe⟩
      · rintro ⟨rfl, rfl⟩
        exact hgp hframe.symm
    · rw [← hentry i hi] at hp htable
      exact .inr (.inr ⟨i, hi, ha, hp, htable⟩)

end Paging

end PenOS
