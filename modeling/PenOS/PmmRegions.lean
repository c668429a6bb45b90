import PenOS.PmmAvailable

/-!
# The memory map as a set, and the size of memory

Both walks over the memory map forget the order of the entries: one takes a maximum, the other
clears bits. The highest address is divided and cut to 32 bits *before* it is compared with the
capacity of the bitmap, and `pmm_total_memory` multiplies back into 32 bits: from 4 GiB on one of
the two goes wrong.
-/

namespace PenOS

open List

open Pmm

/-! ## The order of the regions -/

/-- What an entry says about memory; its size field only leads the walk to the next entry. -/
def MmapEntry.region (e : MmapEntry) : ℕ × ℕ × ℕ := (e.addr, e.len, e.type)

/-- The same regions, in any order and any number of times. -/
def SameRegions (es es' : List MmapEntry) : Prop :=
  ∀ r, r ∈ es.map MmapEntry.region ↔ r ∈ es'.map MmapEntry.region

theorem SameRegions.symm {es es' : List MmapEntry} (h : SameRegions es es') : SameRegions es' es :=
  fun r => (h r).symm

/-- A property of regions that some entry has. -/
theorem SameRegions.exists_imp {es es' : List MmapEntry} (h : SameRegions es es')
    (P : ℕ × ℕ × ℕ → Prop) (hex : ∃ e ∈ es, P e.region) : ∃ e ∈ es', P e.region := by
  obtain ⟨e, he, hp⟩ := hex
  obtain ⟨e', he', heq⟩ := List.mem_map.mp ((h e.region).mp (mem_map_of_mem he))
  exact ⟨e', he', heq ▸ hp⟩

theorem SameRegions.exists_iff {es es' : List MmapEntry} (h : SameRegions es es')
    (P : ℕ × ℕ × ℕ → Prop) : (∃ e ∈ es, P e.region) ↔ ∃ e ∈ es', P e.region :=
  ⟨h.exists_imp P, h.symm.exists_imp P⟩

theorem SameRegions.eq_nil_iff {es es' : List MmapEntry} (h : SameRegions es es') :
    es = [] ↔ es' = [] := by
  have hex := h.exists_iff fun _ => True
  simp only [and_true] at hex
  rw [eq_nil_iff_forall_not_mem, eq_nil_iff_forall_not_mem, ← not_exists, ← not_exists,
    hex]

/-- The end of a region, as the code computes it. -/
def MmapEntry.entryEnd (e : MmapEntry) : ℕ := u64 (e.addr + e.len)

/-- The running maximum of `highest_address_from_mmap`. -/
def highestEnd (acc : ℕ) (es : List MmapEntry) : ℕ :=
  es.foldl (fun maxAddr entry =>
    let entryEnd := u64 (entry.addr + entry.len)
    if entryEnd > maxAddr then entryEnd else maxAddr) acc

theorem highestEnd_le_iff {es : List MmapEntry} {b : ℕ} : ∀ {acc : ℕ},
    highestEnd acc es ≤ b ↔ acc ≤ b ∧ ∀ e ∈ es, e.entryEnd ≤ b := by
  induction es with
  | nil => simp [highestEnd]
  | cons e es ih =>
    intro acc
    rw [highestEnd, foldl_cons, ← highestEnd, ih, forall_mem_cons, ← and_assoc]
    refine and_congr_left fun _ => ?_
    simp only [MmapEntry.entryEnd]
    split_ifs <;> omega

theorem SameRegions.highestEnd_eq {es es' : List MmapEntry} (h : SameRegions es es') :
    highestEnd 0 es = highestEnd 0 es' := by
  refine eq_of_forall_ge_iff fun b => ?_
  have hex := h.exists_iff fun r => ¬ u64 (r.1 + r.2.1) ≤ b
  rw [highestEnd_le_iff, highestEnd_le_iff]
  refine and_congr_right fun _ => not_iff_not.mp ?_
  push Not at hex ⊢
  exact hex

theorem maxAddr_eq_highestEnd (mb : MultibootInfo) (es : List MmapEntry) :
    mb.maxAddr es = if highestEnd 0 es = 0 then u64 ((mb.memLower + mb.memUpper) * 1024)
      else highestEnd 0 es := rfl

theorem SameRegions.maxAddr_eq {mb mb' : MultibootInfo} {es es' : List MmapEntry}
    (h : SameRegions es es') (hsize : (∃ e ∈ es, e.entryEnd ≠ 0) ∨
      mb.memLower + mb.memUpper = mb'.memLower + mb'.memUpper) :
    mb.maxAddr es = mb'.maxAddr es' := by
  rw [maxAddr_eq_highestEnd, maxAddr_eq_highestEnd]
  rw [← h.highestEnd_eq]
  split_ifs with hzero
  · rcases hsize with ⟨e, he, hne⟩ | heq
    · exact absurd (Nat.le_zero.mp ((highestEnd_le_iff.mp hzero.le).2 e he)) hne
    · rw [heq]
  · rfl

/-- **`pmm_init` depends only on the set of regions**: the same regions give the same frames,
bitmap, hint and count, and the count is that of the clear bits. -/
theorem pmmInit_of_sameRegions {fuel fuel' kernelEnd : ℕ} {mb mb' : MultibootInfo}
    {es es' : List MmapEntry} (hes : mb.entries fuel = some es)
    (hes' : mb'.entries fuel' = some es') (hsame : SameRegions es es')
    (hsize : (∃ e ∈ es, e.entryEnd ≠ 0) ∨ mb.memLower + mb.memUpper = mb'.memLower + mb'.memUpper) :
    ∃ s s', pmmInit fuel kernelEnd (some mb) = some s ∧
      pmmInit fuel' kernelEnd (some mb') = some s' ∧ s.totalFrames = s'.totalFrames ∧
      (∀ k < pmmMaxFrames / 8, s.frameBitmap k = s'.frameBitmap k) ∧
      s.searchHint = s'.searchHint ∧ s.freeFrames = s'.freeFrames ∧
      s.freeFrames = ((Finset.Ico s.baseUsableFrame s.totalFrames).filter
        fun f => s.testFrame f = false).card := by
  obtain ⟨s, hs, hbase, htotal, hmem⟩ := pmmInit_of_entries kernelEnd hes
  obtain ⟨s', hs', hbase', htotal', hmem'⟩ := pmmInit_of_entries kernelEnd hes'
  have hinit := pmmInit_initInv hs
  have hinit' := pmmInit_initInv hs'
  have hmax := hsame.maxAddr_eq hsize
  have hfree : s.freeSet = s'.freeSet := by
    ext f
    rw [hmem, hmem', Managed, Managed, hmax, hsame.eq_nil_iff]
    refine and_congr_right fun _ => or_congr_right ?_
    exact hsame.exists_iff fun r => r.2.2 = 1 ∧ r.2.1 ≠ 0 ∧ r.1 / 4096 ≤ f ∧
      f < u64 (r.1 + r.2.1 + 4096 - 1) / 4096
  refine ⟨s, s', hs, hs', ?_, fun k hk => ?_, ?_, ?_, ?_⟩
  · rw [htotal, htotal', hmax]
  · -- bit by bit: a bit is clear exactly for a free frame
    refine Bitmap.eq_of_test fun f hf => ?_
    have hlt : f < pmmMaxFrames := by omega
    have hiff := (hinit.clear_iff hlt).trans (hfree ▸ (hinit'.clear_iff hlt).symm)
    have hbit : s.testFrame f = s'.testFrame f :=
      Bool.eq_iff_iff.mpr (by simpa using not_congr hiff)
    exact hbit
  · rw [hinit.hint_eq, hinit'.hint_eq, hbase, hbase']
  · rw [hinit.count, hinit'.count, hfree]
  · rw [hinit.count]
    congr 1
    ext f
    rw [mem_freeSet, Finset.mem_filter, Finset.mem_Ico, and_assoc]

/-- Two regions that overlap, once in each order and once more. -/
theorem pmmInit_of_sameRegions_overlap : ∃ s s', pmmInit 3 0 (some ⟨640, 2432, 48, fun offset =>
        if offset = 0 then ⟨20, 0x100000, 0x100000, 1⟩ else ⟨20, 0x180000, 0x180000, 1⟩⟩) = some s ∧
      pmmInit 4 0 (some ⟨640, 2432, 76, fun offset =>
        if offset = 24 then ⟨24, 0x100000, 0x100000, 1⟩
        else ⟨20, 0x180000, 0x180000, 1⟩⟩) = some s' ∧ s.freeFrames = s'.freeFrames := by
  obtain ⟨s, s', hs, hs', -, -, -, hfree, -⟩ := @pmmInit_of_sameRegions 3 4 0
    ⟨640, 2432, 48, fun offset =>
      if offset = 0 then ⟨20, 0x100000, 0x100000, 1⟩ else ⟨20, 0x180000, 0x180000, 1⟩⟩
    ⟨640, 2432, 76, fun offset =>
      if offset = 24 then ⟨24, 0x100000, 0x100000, 1⟩ else ⟨20, 0x180000, 0x180000, 1⟩⟩
    [⟨20, 0x100000, 0x100000, 1⟩, ⟨20, 0x180000, 0x180000, 1⟩]
    [⟨20, 0x180000, 0x180000, 1⟩, ⟨24, 0x100000, 0x100000, 1⟩, ⟨20, 0x180000, 0x180000, 1⟩]
    (by decide) (by decide)
    (fun r => by
      simp only [map_cons, map_nil, MmapEntry.region, mem_cons, not_mem_nil]
      tauto)
    (Or.inr rfl)
  exact ⟨s, s', hs, hs', hfree⟩

/-! ## The size of memory -/

theorem reserveFloor_lt (kernelEnd : ℕ) : reserveFloor kernelEnd < pmmMaxFrames := by
  have hmin : alignFrameUp 0x00100000 = 256 := by decide
  have hlt : alignFrameUp kernelEnd < 1048576 := by
    rw [alignFrameUp, u32]
    omega
  simp only [reserveFloor, hmin, pmmMaxFrames]
  split <;> omega

theorem PmmOp.run_totalFrames (ops : List PmmOp) :
    ∀ s : Pmm, (ops.foldl PmmOp.run s).totalFrames = s.totalFrames := by
  induction ops with
  | nil => exact fun _ => rfl
  | cons op ops ih =>
    intro s
    rw [foldl_cons, ih]
    cases op with
    | alloc => exact (pmmAllocFrame_range s).2
    | free addr => exact pmmFreeFrame_total s addr

theorem clampFrames_eq (base maxAddr : ℕ) :
    clampFrames base maxAddr = max base (min pmmMaxFrames (u32 (maxAddr / 4096))) := by
  simp only [clampFrames]
  split_ifs <;> omega

/-- The highest address, when the largest end is known and no end wraps. -/
theorem maxAddr_of_largest {mb : MultibootInfo} {es : List MmapEntry} {m : ℕ}
    (hwf : ∀ e ∈ es, e.addr + e.len < 18446744073709551616)
    (hmem : ∃ e ∈ es, e.addr + e.len = m) (hmax : ∀ e ∈ es, e.addr + e.len ≤ m) :
    mb.maxAddr es = if m = 0 then u64 ((mb.memLower + mb.memUpper) * 1024) else m := by
  have hends : ∀ e ∈ es, e.entryEnd = e.addr + e.len := fun e he => Nat.mod_eq_of_lt (hwf e he)
  have heq : highestEnd 0 es = m := by
    refine le_antisymm (highestEnd_le_iff.mpr ⟨Nat.zero_le m, fun e he => ?_⟩) ?_
    · rw [hends e he]
      exact hmax e he
    · obtain ⟨e, he, rfl⟩ := hmem
      rw [← hends e he]
      exact (highestEnd_le_iff.mp le_rfl).2 e he
  rw [maxAddr_eq_highestEnd, heq]

/-- **The size of memory** is right exactly if the map ends below 4 GiB: the largest end of an
entry, in pages, cut to the capacity of the bitmap and at least the reserved part; and
`pmm_total_memory` is that many pages. -/
theorem pmmInit_size_iff {fuel kernelEnd m : ℕ} {mb : MultibootInfo} {es : List MmapEntry}
    (hes : mb.entries fuel = some es) (hwf : ∀ e ∈ es, e.addr + e.len < 18446744073709551616)
    (hmem : ∃ e ∈ es, e.addr + e.len = m) (hmax : ∀ e ∈ es, e.addr + e.len ≤ m)
    (hlower : mb.memLower < 4294967296) (hupper : mb.memUpper < 4294967296) :
    ∃ s, pmmInit fuel kernelEnd (some mb) = some s ∧
      ((s.totalFrames = max s.baseUsableFrame (min pmmMaxFrames (m / 4096)) ∧
        ∀ ops : List PmmOp, pmmTotalMemory (ops.foldl PmmOp.run s) =
          4096 * (ops.foldl PmmOp.run s).totalFrames) ↔ m < 4294967296 ∧
        (m = 0 → (mb.memLower + mb.memUpper) / 4 ≤ reserveFloor kernelEnd)) := by
  obtain ⟨s, hs, hbase, htotal, -⟩ := pmmInit_of_entries kernelEnd hes
  refine ⟨s, hs, ?_⟩
  have hlt := reserveFloor_lt kernelEnd
  have hm : m < 18446744073709551616 := by
    obtain ⟨e, he, rfl⟩ := hmem
    exact hwf e he
  -- the frames are the same in every later state
  have hops : (∀ ops : List PmmOp, pmmTotalMemory (ops.foldl PmmOp.run s) =
      4096 * (ops.foldl PmmOp.run s).totalFrames) ↔ u32 (s.totalFrames * 4096) =
      4096 * s.totalFrames := by
    simp only [pmmTotalMemory, PmmOp.run_totalFrames, forall_const]
  rw [hops, hbase, htotal, maxAddr_of_largest hwf hmem hmax]
  generalize reserveFloor kernelEnd = base at hlt ⊢
  have hbytes : u64 ((mb.memLower + mb.memUpper) * 1024) / 4096 =
      (mb.memLower + mb.memUpper) / 4 := by
    rw [u64]
    omega
  simp only [clampFrames_eq, pmmMaxFrames, u32] at hlt ⊢
  by_cases hzero : m = 0
  · subst hzero
    rw [if_pos rfl, hbytes]
    omega
  · rw [if_neg hzero]
    omega

/-- A machine with 2 MiB. -/
theorem pmmInit_size_iff_small :
    ∃ s, pmmInit 2 0 (some ⟨640, 1024, 24, fun _ => ⟨20, 0, 0x200000, 1⟩⟩) = some s ∧
      s.totalFrames = max s.baseUsableFrame (min pmmMaxFrames (0x200000 / 4096)) := by
  obtain ⟨s, hs, hiff⟩ := @pmmInit_size_iff 2 0 0x200000
    ⟨640, 1024, 24, fun _ => ⟨20, 0, 0x200000, 1⟩⟩ [⟨20, 0, 0x200000, 1⟩] (by decide) (by decide)
    ⟨_, mem_singleton_self _, rfl⟩ (by decide) (by decide) (by decide)
  exact ⟨s, hs, (hiff.mpr ⟨by decide, by decide⟩).1⟩

/-- A PC with 128 MiB and firmware up to 4 GiB: there are `2^20` frames, and the size of memory is 0
bytes. -/
theorem pmmInit_size_wraps :
    ∃ (mb : MultibootInfo) (es : List MmapEntry) (m : ℕ) (s : Pmm), mb.entries 4 = some es ∧
      (∀ e ∈ es, e.addr + e.len < 18446744073709551616) ∧
      (∃ e ∈ es, e.addr + e.len = m) ∧ (∀ e ∈ es, e.addr + e.len ≤ m) ∧
      mb.memLower < 4294967296 ∧ mb.memUpper < 4294967296 ∧
      pmmInit 4 0 (some mb) = some s ∧ s.totalFrames = 1048576 ∧ pmmTotalMemory s = 0 ∧
      pmmTotalMemory s ≠ 4096 * s.totalFrames := by
  let mb : MultibootInfo := ⟨639, 129920, 72, fun offset =>
    if offset = 0 then ⟨20, 0, 0x9fc00, 1⟩
    else if offset = 24 then ⟨20, 0x100000, 0x7ee0000, 1⟩ else ⟨20, 0xfffc0000, 0x40000, 2⟩⟩
  let es : List MmapEntry :=
    [⟨20, 0, 0x9fc00, 1⟩, ⟨20, 0x100000, 0x7ee0000, 1⟩, ⟨20, 0xfffc0000, 0x40000, 2⟩]
  have hes : mb.entries 4 = some es := by decide
  obtain ⟨s, hs, -, htotal, -⟩ := pmmInit_of_entries 0 hes
  have hframes : s.totalFrames = 1048576 := htotal.trans (by decide)
  refine ⟨mb, es, 0x100000000, s, hes, by decide, ⟨⟨20, 0xfffc0000, 0x40000, 2⟩, by simp [es], rfl⟩,
    by decide, by decide, by decide, hs, hframes, ?_⟩
  rw [pmmTotalMemory, hframes, u32]
  decide

end PenOS
