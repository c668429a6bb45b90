import PenOS.PagingStart

/-!
# A machine with more memory than the identity map

However much memory there is, `paging_init` maps the first 16 MiB to themselves.
-/

namespace PenOS

namespace Paging

variable {D : Type} {s s' s'' : Paging D}

/-! ## The managed range -/

/-- The manager has charge of the same frames. -/
def SameRange (s s' : Paging D) : Prop :=
  s'.pmm.baseUsableFrame = s.pmm.baseUsableFrame ∧ s'.pmm.totalFrames = s.pmm.totalFrames

theorem SameRange.refl (s : Paging D) : s.SameRange s := ⟨rfl, rfl⟩

theorem SameRange.trans (h : s.SameRange s') (h' : s'.SameRange s'') : s.SameRange s'' :=
  ⟨h'.1.trans h.1, h'.2.trans h.2⟩

variable [Disk D]

theorem pagingSwapOut_range (s : Paging D) (virt : ℕ) : s.SameRange (s.pagingSwapOut virt).1 := by
  simp only [pagingSwapOut]
  rcases s.findPageTable (virt &&& 0xFFFFF000) with _ | table
  · exact .refl s
  · dsimp only
    split_ifs
    · exact .refl s
    · split
      · exact ⟨rfl, rfl⟩
      · exact ⟨pmmFreeFrame_base _ _, pmmFreeFrame_total _ _⟩

theorem evictLoop_range (n : ℕ) (s : Paging D) : s.SameRange (evictLoop n s).1 := by
  induction n generalizing s with
  | zero => exact .refl s
  | succ n ih =>
    have hadv : s.SameRange s.advanceHand := by
      simp only [advanceHand]
      split_ifs <;> exact ⟨rfl, rfl⟩
    simp only [evictLoop]
    split_ifs
    · exact hadv.trans (ih _)
    · exact hadv.trans (pagingSwapOut_range _ _)
    · exact hadv.trans ((pagingSwapOut_range _ _).trans (ih _))
    · exact hadv.trans (ih _)
    · exact hadv.trans (ih _)

theorem allocFrameZero_range {a : ℕ} (h : s.allocFrameZero = .ok (s', a)) : s.SameRange s' := by
  simp only [allocFrameZero] at h
  split_ifs at h <;> cases h
  · have hfirst : s.SameRange { s with pmm := (pmmAllocFrame s.pmm).1 } :=
      pmmAllocFrame_range s.pmm
    exact (hfirst.trans (evictLoop_range _ _)).trans (pmmAllocFrame_range _)
  · exact pmmAllocFrame_range s.pmm

theorem pagingMap_range {virt phys flags : ℕ} (h : s.pagingMap virt phys flags = .ok s') :
    s.SameRange s' := by
  simp only [pagingMap] at h
  rcases ht : s.getPageTable virt flags with e | ⟨s1, table⟩ <;> rw [ht] at h
  · cases h
  cases h
  change s.SameRange s1
  simp only [getPageTable] at ht
  split_ifs at ht
  · rcases ha : s.allocFrameZero with e | ⟨s2, a⟩ <;> rw [ha] at ht
    · cases ht
    cases ht
    have halloc := allocFrameZero_range ha
    exact halloc
  all_goals
    cases ht
    exact ⟨rfl, rfl⟩

theorem mapHigherHalf_range {start stop flags : ℕ}
    (h : s.mapHigherHalf start stop flags = .ok s') : s.SameRange s' :=
  foldlM_range_induct (P := fun _ t => s.SameRange t) (.refl s)
    (fun _ _ _ _ ht hmap => ht.trans (pagingMap_range hmap)) h

theorem pagingInit_range {syms : LinkerSymbols} (h : s.pagingInit syms = .ok s') :
    s.SameRange s' := by
  simp only [pagingInit, mapKernelHigherHalf] at h
  obtain ⟨s1, h1, h⟩ := bind_ok h
  obtain ⟨s2, h2, h⟩ := bind_ok h
  obtain ⟨s3, h3, h⟩ := bind_ok h
  obtain ⟨s4, h4, h⟩ := bind_ok h
  obtain ⟨s5, h5, h⟩ := bind_ok h
  have hdir : s.SameRange s1 := by
    simp only [initDirectory] at h1
    rcases ha : s.allocFrameZero with e | ⟨a, pd⟩ <;> rw [ha] at h1
    · cases h1
    cases h1
    exact (allocFrameZero_range ha).trans ⟨rfl, rfl⟩
  have hid : s1.SameRange s2 :=
    foldlM_range_induct (P := fun _ t => s1.SameRange t) (.refl s1)
      (fun _ _ _ _ ht hmap => ht.trans (pagingMap_range hmap)) h2
  have hdata : s.SameRange s5 := hdir.trans (hid.trans ((mapHigherHalf_range h3).trans
    ((mapHigherHalf_range h4).trans (mapHigherHalf_range h5))))
  split_ifs at h
  · exact hdata.trans (mapHigherHalf_range h)
  · cases h
    exact hdata

/-! ## 32 MiB -/

omit [Disk D] in
/-- A machine with 32 MiB of memory. -/
def wideMachine : MultibootInfo := ⟨1024, 31744, 0, fun _ => ⟨0, 0, 0, 0⟩⟩

/-- Paging on the wide machine: of the 7932 frames above the image all but nine are left. -/
theorem exists_wide_start (mem : Mem) (disk : D) :
    ∃ pmm s, pmmInit 1 smallImage.kernelEnd (some wideMachine) = some pmm ∧
      (boot pmm mem disk).pagingInit smallImage = .ok s ∧
      Started (boot pmm mem disk) s 4096 ∧ 7923 ≤ s.pmm.freeSet.card ∧
      s.pmm.baseUsableFrame = 260 ∧ s.pmm.totalFrames = 8192 := by
  obtain ⟨pmm, hpmm, hbase, htotal, hset⟩ :=
    pmmInit_of_noMap (show wideMachine.mmapLength = 0 from rfl) 1 smallImage.kernelEnd
  rw [show reserveFloor smallImage.kernelEnd = 260 by decide] at hbase htotal
  rw [show clampFrames 260 (u64 ((wideMachine.memLower + wideMachine.memUpper) * 1024)) = 8192
    by decide] at htotal
  obtain ⟨s, hrun, hstart, hleft⟩ := pagingInit_ok (pmmInit_inv hpmm) smallImage_placed
    (show 9 + 7923 ≤ (boot pmm mem disk).pmm.freeSet.card by
      change 9 + 7923 ≤ pmm.freeSet.card
      rw [hset, hbase, htotal, Nat.card_Ico])
  obtain ⟨h1, h2⟩ := pagingInit_range hrun
  exact ⟨pmm, s, hpmm, hrun, hstart, hleft, h1.trans hbase, h2.trans htotal⟩

omit [Disk D] in
/-- With so many frames free, the least of them is below 16 MiB. -/
theorem min_free_lt (hcard : 4096 < s.pmm.freeSet.card) (htotal : s.pmm.totalFrames = 8192)
    (hne : s.pmm.freeSet.Nonempty) : s.pmm.freeSet.min' hne < 4096 := by
  by_contra hge
  have hsub : s.pmm.freeSet ⊆ Finset.Ico 4096 8192 := fun g hg => by
    have hmin := Finset.min'_le _ g hg
    have hlt := (Pmm.mem_freeSet.mp hg).2.1
    rw [Finset.mem_Ico]
    omega
  have hle := Finset.card_le_card hsub
  rw [Nat.card_Ico] at hle
  omega

end Paging

end PenOS
