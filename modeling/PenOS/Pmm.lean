import PenOS.Lib.Word
import PenOS.Lib.Scan
import PenOS.Lib.Bitmap

/-!
# The physical memory manager (`src/mem/pmm.c`)

One bit per 4 KiB frame, set when the frame is not available. The manager serves the frames of
`[base_usable_frame, total_frames)`, with a counter and a search hint. The walk over the memory map
advances by a size field read from memory, so it has fuel; `none` is a walk that has not ended.
-/

namespace PenOS

/-- `PMM_MAX_FRAMES`: frames of 4 GiB. -/
abbrev pmmMaxFrames : ℕ := 1048576

/-- The number of the frame at the address of a frame. -/
theorem frame_div (f : ℕ) : f * 4096 / 4096 = f := Nat.mul_div_cancel f (by decide)

/-- The statics of `pmm.c`. -/
structure Pmm where
  totalFrames : ℕ
  freeFrames : ℕ
  baseUsableFrame : ℕ
  searchHint : ℕ
  frameBitmap : Bitmap

/-- `multiboot_mmap_entry_t` -/
structure MmapEntry where
  size : ℕ
  addr : ℕ
  len : ℕ
  type : ℕ
  deriving DecidableEq

/-- The fields of `multiboot_info_t` that `pmm_init` reads; `entryAt offset` is the entry at
`mmap_addr + offset`. -/
structure MultibootInfo where
  memLower : ℕ
  memUpper : ℕ
  mmapLength : ℕ
  entryAt : ℕ → MmapEntry

namespace Pmm

/-- `test_frame` -/
def testFrame (s : Pmm) (frame : ℕ) : Bool := s.frameBitmap.test frame

/-- `set_frame` -/
def setFrame (s : Pmm) (frame : ℕ) : Pmm :=
  { s with frameBitmap := s.frameBitmap.set frame }

/-- `clear_frame` -/
def clearFrame (s : Pmm) (frame : ℕ) : Pmm :=
  { s with frameBitmap := s.frameBitmap.clear frame }

/-- The body of the loop of `release_region`. -/
def releaseFrame (s : Pmm) (frame : ℕ) : Pmm :=
  if frame < s.baseUsableFrame then s
  else if !s.testFrame frame then s
  else { s.clearFrame frame with freeFrames := u32 (s.freeFrames + 1) }

/-- `release_region`: the arithmetic is 64 bits wide. -/
def releaseRegion (s : Pmm) (base length : ℕ) : Pmm :=
  if length = 0 ∨ s.totalFrames = 0 then s
  else
    let start := base / 4096
    let stop := u64 (base + length + 4096 - 1) / 4096
    if start ≥ stop then s
    else if start ≥ s.totalFrames then s
    else
      let stop := if stop > s.totalFrames then s.totalFrames else stop
      (List.range' (u32 start) (u32 stop - u32 start)).foldl releaseFrame s

/-- The scan of one pass of `pmm_alloc_frame`. -/
def scanClear (s : Pmm) (first stop : ℕ) : Option ℕ :=
  firstIn (fun frame => !s.testFrame frame) first stop

/-- What `pmm_alloc_frame` does with the frame it found. -/
def takeFrame (s : Pmm) (frame : ℕ) : Pmm × ℕ :=
  ({ s.setFrame frame with freeFrames := s.freeFrames - 1, searchHint := frame },
    u32 (frame * 4096))

end Pmm

open Pmm

/-- `align_frame_up` -/
def alignFrameUp (addr : ℕ) : ℕ := u32 (addr + 4096 - 1) / 4096

/-- `pmm_alloc_frame`: a pass from the hint to the end, then one from the base to the hint; `0` for
failure. -/
def pmmAllocFrame (s : Pmm) : Pmm × ℕ :=
  if s.freeFrames = 0 ∨ s.totalFrames = 0 then (s, 0)
  else
    match s.scanClear s.searchHint s.totalFrames with
    | some frame => s.takeFrame frame
    | none =>
      match s.scanClear s.baseUsableFrame s.searchHint with
      | some frame => s.takeFrame frame
      | none => (s, 0)

/-- `pmm_free_frame` -/
def pmmFreeFrame (s : Pmm) (addr : ℕ) : Pmm :=
  if addr = 0 then s
  else
    let frame := addr / 4096
    if frame < s.baseUsableFrame ∨ frame ≥ s.totalFrames then s
    else if !s.testFrame frame then s
    else
      { s.clearFrame frame with
        freeFrames := u32 (s.freeFrames + 1)
        searchHint := if frame < s.searchHint then frame else s.searchHint }

/-- `pmm_total_memory` -/
def pmmTotalMemory (s : Pmm) : ℕ := u32 (s.totalFrames * 4096)

/-! ## Initialization -/

/-- The loop over the memory map: run `body` on the entry at the current offset and advance by the
size stored there. -/
def mmapWalk {α : Type} (mb : MultibootInfo) (body : α → MmapEntry → α) :
    ℕ → ℕ → α → Option α
  | 0, _, _ => none
  | fuel + 1, offset, acc =>
    if offset < mb.mmapLength then
      let entry := mb.entryAt offset
      mmapWalk mb body fuel (u32 (offset + u32 (entry.size + 4))) (body acc entry)
    else some acc

/-- `highest_address_from_mmap` -/
def highestAddressFromMmap (fuel : ℕ) : Option MultibootInfo → Option ℕ
  | none => some 0
  | some mb =>
    if mb.mmapLength = 0 then some 0
    else
      mmapWalk mb (fun maxAddr entry =>
        let entryEnd := u64 (entry.addr + entry.len)
        if entryEnd > maxAddr then entryEnd else maxAddr) fuel 0 0

/-- `process_available_regions` -/
def processAvailableRegions (fuel : ℕ) (s : Pmm) (mbInfo : Option MultibootInfo) : Option Pmm :=
  let wholeRange :=
    s.releaseRegion (s.baseUsableFrame * 4096) ((s.totalFrames - s.baseUsableFrame) * 4096)
  match mbInfo with
  | none => some wholeRange
  | some mb =>
    if mb.mmapLength = 0 then some wholeRange
    else
      mmapWalk mb (fun s entry =>
        if entry.type = 1 then s.releaseRegion entry.addr entry.len else s) fuel 0 s

/-- The frames `pmm_init` keeps reserved: the kernel image, at least the first MiB. -/
def reserveFloor (kernelEnd : ℕ) : ℕ :=
  let minimumBootstrap := alignFrameUp 0x00100000
  if alignFrameUp kernelEnd < minimumBootstrap then minimumBootstrap
  else alignFrameUp kernelEnd

/-- The size of memory in frames, clamped to what the bitmap covers and to the
reserved part. -/
def clampFrames (base maxAddr : ℕ) : ℕ :=
  let total := u32 (maxAddr / 4096)
  let total := if total > pmmMaxFrames then pmmMaxFrames else total
  if total < base then base else total

/-- `pmm_init`; `kernelEnd` is the address of the linker symbol `end`. -/
def pmmInit (fuel kernelEnd : ℕ) (mbInfo : Option MultibootInfo) : Option Pmm := do
  let base := reserveFloor kernelEnd
  let highest ← highestAddressFromMmap fuel mbInfo
  let maxAddr :=
    if highest = 0 then
      match mbInfo with
      | some mb => u64 ((mb.memLower + mb.memUpper) * 1024)
      | none => highest
    else highest
  processAvailableRegions fuel
    { totalFrames := clampFrames base maxAddr
      freeFrames := 0
      baseUsableFrame := base
      searchHint := base
      frameBitmap := fun _ => 0xFF#8 }
    mbInfo

end PenOS
