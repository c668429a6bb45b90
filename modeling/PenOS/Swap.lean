import PenOS.Lib.Bytes
import PenOS.Lib.Scan
import PenOS.Lib.Bitmap

/-!
# Swap space (`src/mem/swap.c`)

A fixed area of the disk, one slot of eight sectors per page, with a bitmap of the slots in use.
The disk is a type of device states with two transfers, each of which may fail.
-/

namespace PenOS

/-- The disk behind `ahci_write` and `ahci_read`, for transfers of one page
(eight sectors). -/
class Disk (D : Type) where
  /-- `ahci_write(port, lba, 8, buffer)`: the new state and whether it returned 0 -/
  ahciWrite : D → (port lba : ℕ) → (buffer : ℕ → UInt8) → D × Bool
  /-- `ahci_read(port, lba, 8, buffer)`: the buffer afterwards and whether it returned 0 -/
  ahciRead : D → (port lba : ℕ) → (buffer : ℕ → UInt8) → (ℕ → UInt8) × Bool

/-- A disk of pages, by port and first sector, on which no transfer fails. -/
def DiskImage : Type := ℕ → ℕ → ℕ → UInt8

instance : Disk DiskImage where
  ahciWrite disk port lba buffer :=
    (fun port' lba' => if port' = port ∧ lba' = lba then buffer else disk port' lba', true)
  ahciRead disk port lba _ := (disk port lba, true)

/-- The statics of `swap.c` and the disk; no port is `swap_port == -1`. -/
structure Swap (D : Type) where
  swapBitmap : Bitmap
  swapPort : Option ℕ
  disk : D

variable {D : Type} [Disk D]

/-- `SWAP_SIZE_PAGES` -/
abbrev swapSizePages : ℕ := 4096

/-- The first sector of a slot: `SWAP_START_LBA + slot * SECTORS_PER_PAGE`. -/
def slotLba (slot : ℕ) : ℕ := 200000 + slot * 8

namespace Swap

omit [Disk D] in
/-- `swap_init`; `connected` is `ahci_port_is_connected`. -/
def swapInit (s : Swap D) (connected : ℕ → Bool) : Swap D :=
  match firstIn connected 0 32 with
  | some port => { s with swapPort := some port, swapBitmap := fun _ => 0#8 }
  | none => s

/-- `find_free_slot` -/
def findFreeSlot (s : Swap D) : Option ℕ :=
  firstIn (fun i => !s.swapBitmap.test i) 0 swapSizePages

/-- `mark_slot` -/
def markSlot (s : Swap D) (slot : ℕ) (used : Bool) : Swap D :=
  { s with swapBitmap := if used then s.swapBitmap.set slot else s.swapBitmap.clear slot }

/-- `swap_out`: the slot written, or `none` for `-1`. -/
def swapOut (s : Swap D) (buffer : ℕ → UInt8) : Swap D × Option ℕ :=
  match s.swapPort with
  | none => (s, none)
  | some port =>
    match s.findFreeSlot with
    | none => (s, none)
    | some slot =>
      let w := Disk.ahciWrite s.disk port (slotLba slot) buffer
      let s := { s with disk := w.1 }
      if !w.2 then (s, none) else (s.markSlot slot true, some slot)

/-- `swap_in`: the buffer afterwards and whether the call returned 0. -/
def swapIn (s : Swap D) (slot : ℕ) (buffer : ℕ → UInt8) : (ℕ → UInt8) × Bool :=
  match s.swapPort with
  | none => (buffer, false)
  | some port =>
    if slot ≥ swapSizePages then (buffer, false)
    else Disk.ahciRead s.disk port (slotLba slot) buffer

/-- `swap_free` -/
def swapFree (s : Swap D) (slot : ℕ) : Swap D :=
  if slot < swapSizePages then s.markSlot slot false else s

end Swap

end PenOS
