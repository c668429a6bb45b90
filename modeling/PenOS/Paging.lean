import PenOS.Pmm
import PenOS.Swap

/-!
# Paging (`src/mem/paging.c`)

Directories and tables are frames of 1024 words, reached at their physical address. The TLB is not
modelled: every change is followed by `invlpg` or a reload of CR3. What can end in `cli; hlt`
returns in `Except Halt`, the error naming the message printed.
-/

namespace PenOS

/-- Why the kernel stopped. -/
inductive Halt : Type where
  /-- `alloc_frame_zero`: "PMM exhausted. Eviction failed or no swap space." -/
  | pmmExhausted : Halt
  /-- `map_new_page`: "kmalloc: out of frames" -/
  | outOfFrames : Halt
  /-- `page_fault_handler`: "Page Fault! (...) at ..." -/
  | pageFault : Halt
  /-- `panic_with_frame` -/
  | panic (msg : String) : Halt
  /-- a double fault that has no gate: the processor resets -/
  | tripleFault : Halt
  /-- a loop of the code that does not end -/
  | diverged : Halt
  deriving DecidableEq

theorem ok_of_toOption {ε α : Type} {x : Except ε α} {a : α} (h : x.toOption = some a) :
    x = .ok a := by
  cases x with
  | error e => cases h
  | ok b => exact congrArg Except.ok (Option.some.inj h)

theorem ok_pair {ε α β : Type*} {a a' : α} {b b' : β}
    (h : (.ok (a, b) : Except ε (α × β)) = .ok (a', b')) : a = a' ∧ b = b' :=
  Prod.mk.inj (Except.ok.inj h)

/-- `PAGE_PRESENT` -/
abbrev pagePresent : ℕ := 1
/-- `PAGE_RW` -/
abbrev pageRw : ℕ := 2
/-- `PAGE_USER` -/
abbrev pageUser : ℕ := 4
/-- the Accessed bit the processor sets -/
abbrev pageAccessed : ℕ := 32
/-- `PAGE_SWAPPED` -/
abbrev pageSwapped : ℕ := 512
/-- `KERNEL_VIRT_BASE` -/
abbrev kernelVirtBase : ℕ := 0xC0000000

theorem kernelVirtBase_eq : kernelVirtBase = 3221225472 := rfl

/-- Is the flag `m` set in the word `e`? -/
def hasFlag (e m : ℕ) : Bool := e &&& m != 0

/-- `e & ~0x20` -/
def clearAccessed (e : ℕ) : ℕ := e &&& not32 pageAccessed

/-- The frame address in an entry: `e & ~0xFFF`. -/
def frameOf (e : ℕ) : ℕ := e &&& 0xFFFFF000

/-- The entry `paging_map` writes: `(phys & ~0xFFF) | PAGE_PRESENT | (flags & 0xFFF)`. -/
def pageEntry (phys flags : ℕ) : ℕ := (phys &&& 0xFFFFF000) ||| pagePresent ||| (flags &&& 0xFFF)

/-- The flags of a new directory entry: present, writable, and User on demand. -/
def tableFlags (flags : ℕ) : ℕ :=
  if hasFlag flags pageUser then pagePresent ||| pageRw ||| pageUser else pagePresent ||| pageRw

/-- `virt >> 22` -/
def pdIndex (virt : ℕ) : ℕ := virt / 4194304

/-- `(virt >> 12) & 0x3FF` -/
def ptIndex (virt : ℕ) : ℕ := virt / 4096 % 1024

/-- The statics of `paging.c`, with the memory and the subsystems below it. -/
structure Paging (D : Type) where
  pmm : Pmm
  /-- physical memory -/
  mem : Mem
  /-- `current_pd_phys` (and `current_pd`, the pointer to it) -/
  currentPd : ℕ
  evictPdIdx : ℕ
  evictPtIdx : ℕ
  swap : Swap D

namespace Paging

variable {D : Type}

/-- Word `i` of the directory or table at `base`. -/
def entry (s : Paging D) (base i : ℕ) : ℕ := s.mem.load32 (base + 4 * i)

/-- Write word `i` of the directory or table at `base`. -/
def setEntry (s : Paging D) (base i v : ℕ) : Paging D :=
  { s with mem := s.mem.store32 (base + 4 * i) v }

/-- The contents of the page at a physical address. -/
def pageAt (s : Paging D) (phys : ℕ) : ℕ → UInt8 := fun k => s.mem (phys + k)

/-- `get_page_table(virt, 0, 0)`: the table of an address, if there is one. -/
def findPageTable (s : Paging D) (virt : ℕ) : Option ℕ :=
  let e := s.entry s.currentPd (pdIndex virt)
  if !hasFlag e pagePresent then none else some (frameOf e)

/-- `paging_virt_to_phys` -/
def pagingVirtToPhys (s : Paging D) (virt : ℕ) : ℕ :=
  match s.findPageTable virt with
  | none => 0
  | some table =>
    let e := s.entry table (ptIndex virt)
    if !hasFlag e pagePresent then 0 else frameOf e ||| (virt &&& 0xFFF)

/-- `paging_unmap` -/
def pagingUnmap (s : Paging D) (virt : ℕ) : Paging D :=
  match s.findPageTable virt with
  | none => s
  | some table => s.setEntry table (ptIndex virt) 0

/-- `paging_switch_directory` -/
def pagingSwitchDirectory (s : Paging D) (pdPhys : ℕ) : Paging D :=
  if pdPhys = s.currentPd then s else { s with currentPd := pdPhys }

/-- `paging_get_kernel_directory`: whatever directory is current. -/
def pagingGetKernelDirectory (s : Paging D) : ℕ := s.currentPd

/-! ## Swapping out and eviction -/

variable [Disk D]

/-- `paging_swap_out`; `true` for the return value 0. -/
def pagingSwapOut (s : Paging D) (virt : ℕ) : Paging D × Bool :=
  let page := virt &&& 0xFFFFF000
  match s.findPageTable page with
  | none => (s, false)
  | some table =>
    let e := s.entry table (ptIndex page)
    if !hasFlag e pagePresent then (s, false)
    else
      -- the driver transfers from the physical page behind the buffer
      let out := s.swap.swapOut (s.pageAt (s.pagingVirtToPhys page))
      let s := { s with swap := out.1 }
      match out.2 with
      | none => (s, false)
      | some slot =>
        let s := s.setEntry table (ptIndex page) (u32 (slot * 4096) ||| pageSwapped)
        ({ s with pmm := pmmFreeFrame s.pmm (frameOf e) }, true)

omit [Disk D] in
/-- The clock hand advances by one entry, wrapping after directory entry 767. -/
def advanceHand (s : Paging D) : Paging D :=
  if s.evictPtIdx + 1 ≥ 1024 then
    { s with
      evictPtIdx := 0
      evictPdIdx := if s.evictPdIdx + 1 ≥ 768 then 0 else s.evictPdIdx + 1 }
  else { s with evictPtIdx := s.evictPtIdx + 1 }

/-- `get_virt_from_indices` -/
def getVirtFromIndices (pd pt : ℕ) : ℕ := u32 (pd * 4194304) ||| u32 (pt * 4096)

/-- The loop of `paging_evict_page` with `n` checks left. -/
def evictLoop : ℕ → Paging D → Paging D × Bool
  | 0, s => (s, false)
  | n + 1, s =>
    let s := s.advanceHand
    let pde := s.entry s.currentPd s.evictPdIdx
    if hasFlag pde pagePresent then
      let table := frameOf pde
      let e := s.entry table s.evictPtIdx
      if hasFlag e pagePresent then
        if hasFlag e pageAccessed then
          -- second chance: clear the Accessed bit and go on
          evictLoop n (s.setEntry table s.evictPtIdx (clearAccessed e))
        else
          let out := s.pagingSwapOut (getVirtFromIndices s.evictPdIdx s.evictPtIdx)
          if out.2 then (out.1, true) else evictLoop n out.1
      else evictLoop n s
    else evictLoop n { s with evictPtIdx := 1023 }

/-- `paging_evict_page`: two passes over the user half. -/
def pagingEvictPage (s : Paging D) : Paging D × Bool := evictLoop (768 * 1024 * 2) s

/-! ## Mapping -/

omit [Disk D] in
/-- Zero the frame at `phys` (`memset(phys_to_ptr(phys), 0, PAGE_SIZE)`). -/
def zeroFrame (s : Paging D) (phys : ℕ) : Paging D :=
  { s with mem := s.mem.fill phys 4096 0 }

/-- `alloc_frame_zero`: on exhaustion evict one page and retry once. -/
def allocFrameZero (s : Paging D) : Except Halt (Paging D × ℕ) :=
  let first := pmmAllocFrame s.pmm
  if first.2 = 0 then
    let evicted := pagingEvictPage { s with pmm := first.1 }
    if evicted.2 then
      let second := pmmAllocFrame evicted.1.pmm
      if second.2 = 0 then .error .pmmExhausted
      else .ok (zeroFrame { evicted.1 with pmm := second.1 } second.2, second.2)
    else .error .pmmExhausted
  else .ok (zeroFrame { s with pmm := first.1 } first.2, first.2)

/-- `get_page_table(virt, 1, flags)`: the table of an address, made on demand. -/
def getPageTable (s : Paging D) (virt flags : ℕ) : Except Halt (Paging D × ℕ) :=
  let e := s.entry s.currentPd (pdIndex virt)
  if !hasFlag e pagePresent then
    match allocFrameZero s with
    | .error h => .error h
    | .ok (s, tablePhys) =>
      let s := s.setEntry s.currentPd (pdIndex virt) (tablePhys ||| tableFlags flags)
      .ok (s, frameOf (s.entry s.currentPd (pdIndex virt)))
  else if hasFlag flags pageUser && !hasFlag e pageUser then
    .ok (s.setEntry s.currentPd (pdIndex virt) (e ||| pageUser), frameOf e)
  else .ok (s, frameOf e)

/-- `paging_map` -/
def pagingMap (s : Paging D) (virt phys flags : ℕ) : Except Halt (Paging D) :=
  match s.getPageTable virt flags with
  | .error h => .error h
  | .ok (s, table) =>
    .ok (s.setEntry table (ptIndex virt) (pageEntry phys flags))

/-- `page_fault_handler`: `cr2` is the faulting address. -/
def pageFaultHandler (s : Paging D) (cr2 errCode : ℕ) : Except Halt (Paging D) :=
  let page := cr2 &&& 0xFFFFF000
  let present := hasFlag errCode 1
  let user := hasFlag errCode 4
  let demand : Except Halt (Paging D) :=
    if !present && user then
      match allocFrameZero s with
      | .error h => .error h
      | .ok (s, phys) => s.pagingMap page phys (pagePresent ||| pageRw ||| pageUser)
    else .error .pageFault
  match s.findPageTable page with
  | none => demand
  | some table =>
    let e := s.entry table (ptIndex page)
    if !hasFlag e pagePresent && hasFlag e pageSwapped then
      let slot := e / 4096
      match allocFrameZero s with
      | .error h => .error h
      | .ok (s, phys) =>
        match s.pagingMap page phys (pagePresent ||| pageRw ||| pageUser) with
        | .error h => .error h
        | .ok s =>
          -- the outcome of the read is reported on the console only
          let target := s.pagingVirtToPhys page
          let data := (s.swap.swapIn slot (s.pageAt target)).1
          .ok { s with
            mem := s.mem.paste target 4096 data
            swap := s.swap.swapFree slot }
    else demand

/-! ## Directories -/

omit [Disk D] in
/-- The entry that maps a directory into itself. -/
def setRecursive (s : Paging D) (pdPhys : ℕ) : Paging D :=
  s.setEntry pdPhys 1023 (pdPhys ||| pagePresent ||| pageRw)

omit [Disk D] in
/-- The loop of `paging_create_directory`: entries 768 to 1023 are those of the
current directory. -/
def copyKernelHalf (s : Paging D) (newPd : ℕ) : Paging D :=
  (List.range' 768 256).foldl (fun s i => s.setEntry newPd i (s.entry s.currentPd i)) s

/-- `paging_create_directory`: a directory with an empty user half and the
current kernel half. -/
def pagingCreateDirectory (s : Paging D) : Except Halt (Paging D × ℕ) :=
  match allocFrameZero s with
  | .error h => .error h
  | .ok (s, newPd) => .ok ((s.copyKernelHalf newPd).setRecursive newPd, newPd)

section

omit [Disk D]

/-- The frames of the present entries of a page table go back to the manager. -/
def freeTablePages (s : Paging D) (table : ℕ) (pmm : Pmm) : Pmm :=
  (List.range 1024).foldl (fun pmm j =>
    if hasFlag (s.entry table j) pagePresent then pmmFreeFrame pmm (frameOf (s.entry table j))
    else pmm) pmm

/-- The loop of `paging_destroy_directory`: the pages and tables of the user half go
back to the manager. -/
def freeUserHalf (s : Paging D) (pdPhys : ℕ) : Pmm :=
  (List.range 768).foldl (fun pmm i =>
    if hasFlag (s.entry pdPhys i) pagePresent then
      pmmFreeFrame (s.freeTablePages (frameOf (s.entry pdPhys i)) pmm)
        (frameOf (s.entry pdPhys i))
    else pmm) s.pmm

/-- `paging_destroy_directory` -/
def pagingDestroyDirectory (s : Paging D) (pdPhys : ℕ) : Paging D :=
  if pdPhys = s.currentPd then s
  else { s with pmm := pmmFreeFrame (s.freeUserHalf pdPhys) pdPhys }

end

/-! ## Start-up -/

omit [Disk D] in
/-- The symbols of `linker.ld` that `map_kernel_higher_half` reads. -/
structure LinkerSymbols where
  textStart : ℕ
  textEnd : ℕ
  rodataStart : ℕ
  rodataEnd : ℕ
  dataStart : ℕ
  kernelEnd : ℕ

omit [Disk D] in
/-- The statics before `paging_init`: zero, and no swap port yet. -/
def boot (pmm : Pmm) (mem : Mem) (disk : D) : Paging D :=
  { pmm := pmm, mem := mem, currentPd := 0, evictPdIdx := 0, evictPtIdx := 0,
    swap := ⟨fun _ => 0#8, none, disk⟩ }

/-- The directory `paging_init` starts from: a zeroed frame with the recursive entry. -/
def initDirectory (s : Paging D) : Except Halt (Paging D) :=
  match allocFrameZero s with
  | .error h => .error h
  | .ok (s, pd) => .ok (setRecursive { s with currentPd := pd } pd)

/-- `map_identity_region` -/
def mapIdentityRegion (s : Paging D) (length : ℕ) : Except Halt (Paging D) :=
  (List.range (alignUp length 4096 / 4096)).foldlM
    (fun s i => s.pagingMap (u32 (i * 4096)) (u32 (i * 4096)) (pageRw ||| pageUser)) s

/-- One loop of `map_kernel_higher_half`: the pages from `start` to `stop`, mapped
`KERNEL_VIRT_BASE` higher. -/
def mapHigherHalf (s : Paging D) (start stop flags : ℕ) : Except Halt (Paging D) :=
  (List.range ((stop - start + 4095) / 4096)).foldlM
    (fun s k => s.pagingMap (u32 (kernelVirtBase + (start + k * 4096))) (start + k * 4096) flags) s

/-- `map_kernel_higher_half` -/
def mapKernelHigherHalf (s : Paging D) (syms : LinkerSymbols) : Except Halt (Paging D) := do
  let s ← s.mapHigherHalf syms.textStart (alignUp syms.textEnd 4096) 0
  let s ← s.mapHigherHalf syms.rodataStart (alignUp syms.rodataEnd 4096) 0
  let s ← s.mapHigherHalf syms.dataStart (alignUp syms.kernelEnd 4096) pageRw
  if syms.textStart > 0x00100000 then s.mapHigherHalf 0x00100000 syms.textStart 0 else .ok s

/-- `paging_init` -/
def pagingInit (s : Paging D) (syms : LinkerSymbols) : Except Halt (Paging D) := do
  let s ← s.initDirectory
  let s ← s.mapIdentityRegion (16 * 1024 * 1024)
  s.mapKernelHigherHalf syms

end Paging

end PenOS
