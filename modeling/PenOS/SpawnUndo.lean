import PenOS.ElfTasks

/-!
# A spawn that fails

The spawns take a directory and stacks first and give them back where they return -1. What
`elf_load` has mapped is not given back to the heap.
-/

namespace PenOS

open List

variable {D : Type}

/-! ## Memory that is given back -/

/-- Loaded directory, blocks of the heap and free frames are as they were, apart from page tables of
the heap window in the loaded directory or in the one that was made from the first free frame and
given up. -/
structure Heap.Undone (h h' : Heap D) : Prop where
  loaded : h'.paging.currentPd = h.paging.currentPd
  blocks : h.SameBlocks h'
  sub : h'.paging.pmm.freeSet ⊆ h.paging.pmm.freeSet
  kept : ∀ f ∈ h.paging.pmm.freeSet, f ∈ h'.paging.pmm.freeSet ∨
    ∃ d i, (d = h'.paging.currentPd ∨
        d = (pmmAllocFrame h.paging.pmm).2 ∧ d / 4096 ∈ h'.paging.pmm.freeSet) ∧
      Paging.InWindow d i ∧
      h'.paging.entry d i % 2 = 1 ∧ h'.paging.entry d i / 4096 = f

variable {h h₂ : Heap D} {boot pd : ℕ} {live : List ℕ} {allocs : List (ℕ × ℕ)} {cs : List Chunk}

theorem MemInv.undone_refl (hm : MemInv h boot live allocs) : h.Undone h := by
  obtain ⟨cs, hs⟩ := hm.blocks
  exact ⟨rfl, hs.inv.sameBlocks hs.inv, subset_rfl, fun _ hf => .inl hf⟩

theorem Paging.Plenty.switch {s : Paging D} {k : ℕ} (h : s.Plenty (k + 4)) (pd : ℕ) :
    (s.pagingSwitchDirectory pd).Plenty k := by
  rw [Paging.pagingSwitchDirectory_eq]
  refine h.imp_right fun hroom => ?_
  have hmissing : ({ s with currentPd := pd } : Paging D).missingTables.card ≤ 4 :=
    Finset.card_filter_le _ _
  dsimp only
  omega

theorem MemInv.dirs_subset (hm : MemInv h boot live allocs) :
    [h.paging.currentPd, pd] ⊆ pd :: live := by
  simp [hm.current]

variable [Disk D]

theorem Paging.pagingCreateDirectory_first {s p : Paging D} (hs : s.pmm.Inv)
    (hne : s.pmm.freeSet.Nonempty) (h : s.pagingCreateDirectory = .ok (p, pd)) :
    pd = (pmmAllocFrame s.pmm).2 := by
  have hfirst : (pmmAllocFrame s.pmm).2 ≠ 0 := fun h0 =>
    hne.ne_empty ((card_pmmAllocFrame hs).2.mp h0)
  simp only [pagingCreateDirectory, allocFrameZero, if_neg hfirst] at h
  exact (ok_pair h).2.symm

/-- **A directory that is given up**: if heap and frames are kept while it exists, they are as
before. -/
theorem MemInv.giveUp (hm : MemInv h boot live allocs) (hinv : h.Inv cs) {n : ℕ} {p : Paging D}
    (hplenty : h.paging.Plenty (n + 1)) (hcreate : h.paging.pagingCreateDirectory = .ok (p, pd))
    (hmid : Heap.Unspent { h with paging := p } h₂ (pd :: live) [h.paging.currentPd, pd] cs)
    (hm2 : MemInv h₂ boot (pd :: live) allocs) (hcur : h₂.paging.currentPd = h.paging.currentPd) :
    h.Undone { h₂ with paging := h₂.paging.pagingDestroyDirectory pd } := by
  obtain ⟨own, hp⟩ := hm.pages
  have hp0 := hp.pmm
  have hne := hp.toTableInv.free_of_created hplenty hcreate
  obtain ⟨p', f, hrun', hf, hc⟩ := hp.toTableInv.pagingCreateDirectory hm.current hne
  obtain ⟨rfl, hpd⟩ := ok_pair (hrun'.symm.trans hcreate)
  have hdiv : pd / 4096 = f := by omega
  have hnew : pd ∉ live := fun hmem =>
    (hp.free_apart ((hp.free_iff f).mp hc.was_free) hmem).1 hpd.symm
  have hself : pd ∈ pd :: live := mem_cons_self
  have hother : pd ≠ h₂.paging.currentPd := fun heq => hnew (by rw [heq, hcur]; exact hm.current)
  -- its user half is empty, so that it is one frame
  have hspace : ∀ a ∈ h₂.paging.spaceFrames pd, a = pd := by
    have hempty : ∀ i < 768, h₂.paging.entry pd i % 2 ≠ 1 := fun i hi => by
      have hzero := hc.user i hi
      rw [hpd] at hzero
      rw [hmid.frames.user pd hself i hi]
      change p'.entry pd i % 2 ≠ 1
      rw [hzero]
      decide
    intro a ha
    rcases Paging.mem_spaceFrames.mp ha with rfl | ⟨i, hi, hp, -⟩ | ⟨i, hi, j, -, hp, -⟩
    · rfl
    · exact absurd hp (hempty i hi)
    · exact absurd (Paging.entry_of_pte hp) (hempty i hi)
  obtain ⟨hbase, htotal, -⟩ := (hm2.dir_taken hself).1
  obtain ⟨own2, hp2⟩ := hm2.pages
  obtain ⟨-, hfree⟩ := Paging.mem_freeSet_foldl_iff hp2.pmm (l := h₂.paging.spaceFrames pd)
    fun a ha => hspace a ha ▸ ⟨hbase, htotal⟩
  have hgiven : ∀ g, g ∈ (h₂.paging.pagingDestroyDirectory pd).pmm.freeSet ↔
      g ∈ h₂.paging.pmm.freeSet ∨ g = f := by
    intro g
    rw [Paging.pagingDestroyDirectory_eq hother]
    dsimp only
    rw [hfree]
    refine or_congr_right ⟨?_, fun hg => ⟨pd, ?_, hdiv.trans hg.symm⟩⟩
    · rintro ⟨a, ha, rfl⟩
      rw [hspace a ha, hdiv]
    · exact Paging.mem_spaceFrames.mpr (.inl rfl)
  have hloaded : (h₂.paging.pagingDestroyDirectory pd).currentPd = h.paging.currentPd := by
    rw [Paging.pagingDestroyDirectory_eq hother]
    exact hcur
  have hentry : ∀ d i, (h₂.paging.pagingDestroyDirectory pd).entry d i = h₂.paging.entry d i := by
    intro d i
    rw [Paging.pagingDestroyDirectory_eq hother]
    exact Paging.entry_congr (by dsimp only) d i
  have hsub := hmid.frames.sub
  have hspent := hmid.frames.spent
  dsimp only at hsub hspent
  rw [hc.taken] at hsub hspent
  refine ⟨hloaded, hinv.sameBlocks (hmid.inv.withPaging _), fun g hg => ?_, fun g hg => ?_⟩
  · rcases (hgiven g).mp hg with hg | rfl
    · exact Finset.mem_of_mem_erase (hsub hg)
    · exact hf
  · by_cases hgf : g = f
    · exact .inl ((hgiven g).mpr (.inr hgf))
    rcases hspent g (Finset.mem_erase.mpr ⟨hgf, hg⟩) with hg | ⟨d, hd, i, hi, hp, hframe⟩
    · exact .inl ((hgiven g).mpr (.inl hg))
    · refine .inr ⟨d, i, ?_, hi, by rw [hentry]; exact hp, by rw [hentry]; exact hframe⟩
      rcases List.mem_cons.mp hd with rfl | hd
      · exact .inl hloaded.symm
      · obtain rfl := List.mem_singleton.mp hd
        exact .inr ⟨Paging.pagingCreateDirectory_first hp0 hne hcreate,
          (hgiven _).mpr (.inr hdiv)⟩

/-! ## The ways to fail -/

namespace Sched

variable {s s' : Sched D} {entry : ℕ} {name path : String} {file : Option FileAnswer} {r : ℤ}

/-- The table, the memory and the loaded directory are as they were. -/
structure Unchanged (s s' : Sched D) : Prop where
  table : s.SameTable s'
  memory : s.heap.Undone s'.heap

/-- **`sched_spawn_user`** gives everything back, if it fails. -/
theorem SpawnedUser.undone (hm : MemInv s.heap boot live allocs)
    (hplenty : s.heap.paging.Plenty 7) (h : s.SpawnedUser entry s') (hsame : s.SameTable s') :
    s.heap.Undone s'.heap := by
  obtain ⟨cs, hs⟩ := hm.blocks
  cases h with
  | full => exact hm.undone_refl
  | noDirectory _ hcreate =>
    obtain ⟨-, hmem, -⟩ := hm.create (n := 6) hplenty hcreate
    exact absurd rfl (hmem.dir_taken mem_cons_self).2
  | @noKernelStack _ p newPd h _ hcreate hpd hk heap =>
    obtain ⟨-, hmem, -, hcur, -⟩ := hm.create (n := 6) hplenty hcreate
    have hinv := hs.inv.withPaging p
    rcases hinv.kmalloc_ok (by decide) hk with ⟨-, rfl⟩ | ⟨ds, halloc⟩
    · rw [heap]
      exact hm.giveUp hs.inv (n := 6) hplenty hcreate (.of_same hinv rfl rfl) hmem hcur
    · exact absurd rfl halloc.nonnull
  | @noUserStack _ p newPd kstack h h' h'' _ hcreate hpd hk hkstack hu hfree heap =>
    obtain ⟨-, hmem, hplenty', hcur, -⟩ := hm.create (n := 6) hplenty hcreate
    have hdirs : [s.heap.paging.currentPd, newPd] ⊆ newPd :: live := hm.dirs_subset
    have hsup : Unevicted { s.heap with paging := p } stackSize := .inr (hplenty'.mono (by decide))
    obtain ⟨ds, halloc, hloan⟩ := hmem.loan (hs.inv.withPaging p) (by decide) hsup hdirs
      (by simp [hcur]) hk hkstack
    obtain ⟨hmem1, hkept, -⟩ := hmem.kmalloc (by decide) hsup hk
    rw [if_neg hkstack] at hmem1
    -- there is no second stack, so nothing has changed since the first
    rcases halloc.inv.kmalloc_ok (by decide) hu with ⟨-, rfl⟩ | ⟨_, hmore⟩
    · obtain ⟨hmem2, hkept2, -⟩ := hmem1.kfree mem_cons_self hfree
      rw [erase_cons_head] at hmem2
      rw [heap]
      exact hm.giveUp hs.inv (n := 6) hplenty hcreate
        (hloan _ _ (.of_same halloc.inv rfl rfl) hkept.currentPd hmem1 hfree).1 hmem2
        ((hkept2.currentPd.trans hkept.currentPd).trans hcur)
    · exact absurd rfl hmore.nonnull
  | started _ _ _ _ _ _ _ hp => exact absurd hp.installed hsame.not_installed

/-- **`sched_spawn_elf`** of a file without segments gives everything back, if it fails. -/
theorem SpawnedElf.undone (hm : MemInv s.heap boot live allocs)
    (hplenty : s.heap.paging.Plenty (loadFrames file + 15)) (hfile : ∀ f ∈ file, f.Segmentless)
    (h : s.SpawnedElf file s') (hsame : s.SameTable s') : s.heap.Undone s'.heap := by
  obtain ⟨cs, hs⟩ := hm.blocks
  cases h with
  | full => exact hm.undone_refl
  | noDirectory _ hcreate =>
    obtain ⟨-, hmem, -⟩ := hm.create hplenty hcreate
    exact absurd rfl (hmem.dir_taken mem_cons_self).2
  | @noKernelStack _ p newPd h _ hcreate hpd hk heap =>
    obtain ⟨-, hmem, -, hcur, -⟩ := hm.create hplenty hcreate
    have hinv := hs.inv.withPaging p
    rcases hinv.kmalloc_ok (by decide) hk with ⟨-, rfl⟩ | ⟨ds, halloc⟩
    · rw [heap]
      exact hm.giveUp hs.inv hplenty hcreate (.of_same hinv rfl rfl) hmem hcur
    · exact absurd rfl halloc.nonnull
  | @notLoaded _ p newPd kstack e h h' h'' _ hcreate hpd hk hkstack hload hfree heap =>
    obtain ⟨-, hmem, hplenty', hcur, -⟩ := hm.create hplenty hcreate
    have hdirs : [s.heap.paging.currentPd, newPd] ⊆ newPd :: live := hm.dirs_subset
    have hthree : stackSize / 4096 + 2 = 3 := rfl
    have hsup : Unevicted { s.heap with paging := p } stackSize :=
      .inr (hplenty'.mono (by omega))
    obtain ⟨ds, halloc, hloan⟩ := hmem.loan (hs.inv.withPaging p) (by decide) hsup hdirs
      (by simp [hcur]) hk hkstack
    obtain ⟨hmem1, hkept, -, hplenty1⟩ := hmem.kmalloc (by decide) hsup hk
    rw [if_neg hkstack] at hmem1
    have hcur1 : h.paging.currentPd = s.heap.paging.currentPd := hkept.currentPd.trans hcur
    -- the file is read in the new directory
    have hin := hmem1.switch (show newPd ∈ newPd :: live from mem_cons_self)
    have hroom := (hplenty1 (loadFrames file + 11) (hplenty'.mono (by omega))).switch newPd
    have hsup1 : ∀ f ∈ file,
        Unevicted { h with paging := h.paging.pagingSwitchDirectory newPd } f.size := by
      intro f hf
      rw [hf, loadFrames] at hroom
      exact .inr (hroom.mono (by omega))
    obtain ⟨hmem2, -, -, hread⟩ := hin.elfLoad (halloc.inv.withPaging _) hfile hsup1 hdirs
      (by simp) hload
    have hback := hmem2.switch (show h.paging.currentPd ∈ newPd :: live by
      rw [hcur1]
      exact mem_cons_of_mem _ hm.current)
    have hmid := ((Heap.Unspent.switch halloc.inv newPd).trans halloc.inv hdirs hread).trans
      halloc.inv hdirs (.switch hread.inv h.paging.currentPd)
    have hcur3 : (h'.paging.pagingSwitchDirectory h.paging.currentPd).currentPd =
        h.paging.currentPd := Paging.pagingSwitchDirectory_currentPd _ _
    obtain ⟨hmem3, hkept3, -⟩ := hback.kfree mem_cons_self hfree
    rw [erase_cons_head] at hmem3
    rw [heap]
    exact hm.giveUp hs.inv hplenty hcreate
      (hloan _ _ hmid (hcur3.trans hkept.currentPd) hback hfree).1 hmem3
      ((hkept3.currentPd.trans hcur3).trans hcur1)
  | started _ _ _ _ _ _ hp => exact absurd hp.installed hsame.not_installed

end Sched

/-! ## Runs -/

variable {a : Tasks D} {clients : List (ℕ × ℕ)} {h₀ : Heap D} {syms : TaskSymbols}

/-- **A failed spawn changes nothing**: a call that returns -1 leaves table, directory, blocks and
free frames as they were, apart from page tables of the heap window, if its file has nothing to
load, like those started before, and nothing had to be evicted. -/
theorem failed_spawn_changes_nothing (hboot : h₀.paging.BootSpace)
    (hrun : ElfRun SpawnsSegmentless syms h₀ a clients) (hid : a.sched.nextTaskId ≠ 0xFFFFFFFF) :
    (∀ entry name s', a.sched.heap.paging.Plenty 7 →
      a.sched.schedSpawnUser entry name = .ok (s', -1) → a.sched.Unchanged s') ∧
    ∀ path file s', a.sched.heap.paging.Plenty (loadFrames file + 15) →
      (∀ f ∈ file, f.Segmentless) → a.sched.schedSpawnElf path file = .ok (s', -1) →
      a.sched.Unchanged s' := by
  obtain ⟨live, allocs, hc⟩ := hrun.clientInv hboot
  have hm := hc.spaces.mem
  have hnumber : (-1 : ℤ) ≠ int32 a.sched.nextTaskId := by
    rw [int32]
    split_ifs <;> omega
  refine ⟨fun entry name s' hplenty h => ?_, fun path file s' hplenty hfile h => ?_⟩
  · have hsame := (Sched.schedSpawnUser_outcome h).2.resolve_right hnumber
    exact ⟨hsame, (Sched.schedSpawnUser_cases h).undone hm hplenty hsame⟩
  · have hsame := (Sched.schedSpawnElf_outcome h).2.resolve_right hnumber
    exact ⟨hsame, (Sched.schedSpawnElf_cases h).undone hm hplenty hfile hsame⟩

/-- A file that is not an executable. -/
def zeroFile : FileAnswer := .ofBytes (List.replicate 52 0) (by decide) (by decide)

theorem warmHeap_zeroFile : (warmHeap.bind fun h =>
      ((Sched.boot h).schedInit.schedSpawnElf "a" (some zeroFile)).toOption.map fun s => s.2) =
      some (-1) := by
  decide +kernel

/-- A file that is not an executable is read and rejected, and nothing has changed. -/
theorem failed_spawn_changes_nothing_rejected :
    ∃ (h₀ : Heap DiskImage) (a : Tasks DiskImage) (clients : List (ℕ × ℕ)) (s' : Sched DiskImage),
      h₀.paging.BootSpace ∧ ElfRun SpawnsSegmentless ⟨1, 2, 3⟩ h₀ a clients ∧
      a.sched.schedSpawnElf "a" (some zeroFile) = .ok (s', -1) ∧ a.sched.Unchanged s' := by
  obtain ⟨h, hh, hrun⟩ := Option.bind_eq_some_iff.mp warmHeap_zeroFile
  obtain ⟨⟨s', r⟩, hspawn, rfl⟩ := Option.map_eq_some_iff.mp hrun
  have hspawn := ok_of_toOption hspawn
  obtain ⟨⟨h₀, clients, hboot, hheap⟩, hport⟩ := warmHeap_start hh
  have hstart : ElfRun SpawnsSegmentless ⟨1, 2, 3⟩ h₀ _ clients := .start hheap
  have hfile : ∀ f ∈ some zeroFile, f.Segmentless := by
    intro f hf
    cases hf
    decide +kernel
  have hfails := (failed_spawn_changes_nothing hboot hstart (show 1 ≠ 0xFFFFFFFF by decide)).2
  exact ⟨h₀, _, clients, s', hboot, hstart, hspawn,
    hfails "a" (some zeroFile) s' (.inl hport) hfile hspawn⟩

/-- One page to load, and an entry point of zero. -/
def noEntryFile : FileAnswer :=
  .ofBytes ((elfHeader 1).set 26 0 ++ zeroSegment) (by decide) (by decide)

theorem warmHeap_noEntry : (warmHeap.bind fun h =>
      ((Sched.boot h).schedInit.schedSpawnElf "a" (some noEntryFile)).toOption.map fun s =>
        (s.2, [h.heapCurr, s.1.heap.heapCurr])) =
      some (-1, [heapStart + 24, heapStart + 8348]) := by
  decide +kernel

/-- The page of a file with no entry point is loaded, the spawn fails, and the block of the
page is still allocated. -/
theorem failed_spawn_leaves_page :
    ∃ (h₀ : Heap DiskImage) (a : Tasks DiskImage) (clients : List (ℕ × ℕ)) (s' : Sched DiskImage),
      h₀.paging.BootSpace ∧ ElfRun SpawnsSegmentless ⟨1, 2, 3⟩ h₀ a clients ∧
      a.sched.nextTaskId ≠ 0xFFFFFFFF ∧ a.sched.heap.paging.swap.swapPort = none ∧
      a.sched.schedSpawnElf "a" (some noEntryFile) = .ok (s', -1) ∧ ¬ a.sched.Unchanged s' := by
  obtain ⟨h, hh, hrun⟩ := Option.bind_eq_some_iff.mp warmHeap_noEntry
  obtain ⟨⟨s', r⟩, hspawn, hvals⟩ := Option.map_eq_some_iff.mp hrun
  simp only [Prod.mk.injEq, List.cons.injEq, and_true] at hvals
  obtain ⟨rfl, hbefore, hafter⟩ := hvals
  obtain ⟨⟨h₀, allocs, hboot, hheap⟩, hport⟩ := warmHeap_start hh
  refine ⟨h₀, ⟨(Sched.boot h).schedInit, _⟩, _, s', hboot, .start hheap,
    show 1 ≠ 0xFFFFFFFF by decide, hport, ok_of_toOption hspawn, fun hun => ?_⟩
  have hcurr : s'.heap.heapCurr = h.heapCurr := hun.memory.blocks.curr
  omega

end PenOS
