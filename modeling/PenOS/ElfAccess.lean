import PenOS.ElfTasks

/-!
# The pages of a segment

`elf_load` counts the pages of a segment from its size alone and rounds its start down to a page, so
a segment that begins inside a page may reach behind the last page it gets. The loop that maps them
is a fold over the list of their addresses, and that list covers the segment, and what the loader
copies and clears, exactly when the offset of the start fits in the slack of the last page. A file
whose segment does not fit is accepted, and the kernel stops in the middle of loading it.
-/

namespace PenOS

variable {D : Type} [Disk D]
variable {memsz : ℕ}

/-- The pages mapped for a segment. -/
def segmentPages (vaddr memsz : ℕ) : List ℕ :=
  (List.range (u32 (memsz + 0xFFF) / 0x1000)).map fun j =>
    u32 ((vaddr &&& 0xFFFFF000) + u32 (j * 0x1000))

/-- One page of a segment: a block of the heap, whose frame is mapped at `page`. -/
def mapPage (hdr : ℕ) (h : Heap D) (page : ℕ) : Except Halt (Heap D) := do
  let (h, pagePhys) ← h.kmalloc 0x1000
  let (h, pFlags) ← h.loadBytes 4 (hdr + 24)
  let paging ← h.paging.pagingMap page (h.paging.pagingVirtToPhys pagePhys) (segmentFlags pFlags)
  return { h with paging := paging }

theorem mapSegment_eq_foldlM (hdr vaddr n j : ℕ) (h : Heap D) :
    mapSegment hdr vaddr n j h = ((List.range' j n).map fun j =>
      u32 ((vaddr &&& 0xFFFFF000) + u32 (j * 0x1000))).foldlM (mapPage hdr) h := by
  induction n generalizing j h with
  | zero => rfl
  | succ n ih =>
    rw [List.range'_succ, List.map_cons, List.foldlM_cons, mapSegment, mapPage]
    simp only [bind, Except.bind, pure, Except.pure]
    rcases h.kmalloc 0x1000 with e | ⟨h1, pagePhys⟩
    · rfl
    dsimp only
    rcases h1.loadBytes 4 (hdr + 24) with e | ⟨h2, pFlags⟩
    · rfl
    dsimp only
    split <;> rename_i hmap <;> rw [hmap]
    exact ih _ _

theorem mem_segmentPages {vaddr a : ℕ} (hend : vaddr + memsz ≤ 0xC0000000) (ha : vaddr ≤ a) :
    a / 4096 * 4096 ∈ segmentPages vaddr memsz ↔
      a < vaddr / 4096 * 4096 + (memsz + 4095) / 4096 * 4096 := by
  rw [segmentPages, and_pageMask (by omega), u32_of_lt (by omega), List.mem_map]
  have hpage : ∀ j < (memsz + 0xFFF) / 0x1000, u32 (vaddr / 4096 * 4096 + u32 (j * 0x1000)) =
      vaddr / 4096 * 4096 + j * 4096 := by
    intro j hj
    have hoff : u32 (j * 0x1000) = j * 4096 := u32_of_lt (by omega)
    rw [hoff, u32_of_lt (by omega)]
  constructor
  · rintro ⟨j, hj, heq⟩
    rw [List.mem_range] at hj
    rw [hpage j hj] at heq
    omega
  · intro hlt
    have hj : a / 4096 - vaddr / 4096 < (memsz + 0xFFF) / 0x1000 := by omega
    exact ⟨_, List.mem_range.mpr hj, by rw [hpage _ hj]; omega⟩

/-- **The pages of a segment** are `segmentPages`. They hold every byte of the segment, and every
byte copied or set to zero for it, exactly if the segment ends on the last one. -/
theorem segment_pages_cover_iff {hdr vaddr memsz filesz : ℕ} (hpos : 0 < memsz)
    (hend : vaddr + memsz ≤ 0xC0000000) :
    (∀ h : Heap D, mapSegment hdr vaddr (u32 (memsz + 0xFFF) / 0x1000) 0 h =
      (segmentPages vaddr memsz).foldlM (mapPage hdr) h) ∧
    (((∀ a, vaddr ≤ a → a < vaddr + memsz → a / 4096 * 4096 ∈ segmentPages vaddr memsz) ∧
        (∀ k < filesz, u32 (vaddr + k) / 4096 * 4096 ∈ segmentPages vaddr memsz) ∧
        (∀ k < memsz - filesz, u32 (vaddr + filesz + k) / 4096 * 4096 ∈ segmentPages vaddr memsz)) ↔
      vaddr % 4096 + max memsz filesz ≤ (memsz + 4095) / 4096 * 4096) := by
  constructor
  · intro h
    rw [mapSegment_eq_foldlM, segmentPages, List.range_eq_range']
  constructor
  · rintro ⟨hbytes, hcopy, -⟩
    -- the last byte of the segment, and the first behind the pages if the copy goes so far
    have hlast := (mem_segmentPages hend (by omega)).mp
      (hbytes (vaddr + memsz - 1) (by omega) (by omega))
    by_contra hlong
    have hk : (memsz + 4095) / 4096 * 4096 - vaddr % 4096 < filesz := by omega
    have hover := hcopy _ hk
    rw [u32_of_lt (by omega), mem_segmentPages hend (by omega)] at hover
    omega
  · intro hfits
    refine ⟨fun a hlo hhi => ?_, fun k hk => ?_, fun k hk => ?_⟩
    · exact (mem_segmentPages hend hlo).mpr (by omega)
    · rw [u32_of_lt (by omega)]
      exact (mem_segmentPages hend (by omega)).mpr (by omega)
    · rw [u32_of_lt (by omega)]
      exact (mem_segmentPages hend (by omega)).mpr (by omega)

/-- A segment of one whole page. -/
theorem segment_pages_cover_iff_page : 0 < 0x1000 ∧ 0x400000 + 0x1000 ≤ 0xC0000000 ∧
    ∀ a, 0x400000 ≤ a → a < 0x400000 + 0x1000 → a / 4096 * 4096 ∈ segmentPages 0x400000 0x1000 :=
  ⟨by decide, by decide, ((@segment_pages_cover_iff DiskImage _ 0 0x400000 0x1000 0 (by decide)
    (by decide)).2.mpr (by decide)).1⟩

/-- A loadable segment of eight zero bytes at 0x400FFC, on two pages. -/
def acrossSegment : List UInt8 :=
  [1, 0, 0, 0, 0, 0, 0, 0, 0xFC, 0x0F, 0x40, 0, 0, 0, 0, 0, 0, 0, 0, 0, 8, 0, 0, 0, 6, 0, 0, 0, 0,
    0x10, 0, 0]

def acrossFile : FileAnswer := .ofBytes (elfHeader 1 ++ acrossSegment) (by decide) (by decide)

/-- How a call stops the kernel. -/
def stopped {α : Type} : Except Halt α → Option Halt
  | .error e => some e
  | .ok _ => none

theorem error_of_stopped {α : Type} {x : Except Halt α} {e : Halt} (h : stopped x = some e) :
    x = .error e := by
  cases x with
  | error e' => exact congrArg Except.error (Option.some.inj h)
  | ok a => cases h

/-- A segment on two pages gets one, and the kernel stops when its bytes are set to zero. -/
theorem segment_page_missing :
    (acrossFile.field 4 (acrossFile.header 0), acrossFile.field 4 (acrossFile.header 0 + 8),
      acrossFile.field 4 (acrossFile.header 0 + 20)) = (1, 0x400FFC, 8) ∧
    0x401000 < 0x400FFC + 8 ∧ 0x401000 / 4096 * 4096 ∉ segmentPages 0x400FFC 8 ∧
    ∃ h : Heap DiskImage, HeapReach [(0xC1000010, 8)] h ∧
      (Sched.boot h).schedInit.schedSpawnElf "a" (some acrossFile) = .error .pageFault := by
  have hrun : (warmHeap.map fun h =>
      stopped ((Sched.boot h).schedInit.schedSpawnElf "a" (some acrossFile))) =
      some (some .pageFault) := by
    decide +kernel
  obtain ⟨h, hh, hstop⟩ := Option.map_eq_some_iff.mp hrun
  exact ⟨by decide +kernel, by decide, by decide +kernel, h, warmHeap_reach hh,
    error_of_stopped hstop⟩

end PenOS
