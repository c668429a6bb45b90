import PenOS.Lib.BlockChain
import PenOS.Paging

/-!
# The kernel heap (`src/mem/heap.c`)

A first-fit allocator on a window of virtual addresses. The headers of the blocks are a doubly
linked list inside the window; pages are mapped behind the last block as it grows and unmapped when
it shrinks. The window is byte memory with a record of the writes, `NULL` is `0`, and a loop that
follows `next` out of fuel has `diverged`.

The bytes of the window are kept apart from physical memory (`Paging.mem`): they are the same under
every directory, and a write to the frame behind a page does not reach them. The code agrees as long
as the frames behind the window have no other use and its tables were there before the directory.
-/

namespace PenOS

/-- `HEAP_START` -/
abbrev heapStart : ℕ := 0xC1000000
/-- `HEAP_SIZE` -/
abbrev heapSize : ℕ := 16777216
/-- `heap_end` -/
abbrev heapEnd : ℕ := 0xC2000000
/-- `BLOCK_OVERHEAD`, the size of a block header -/
abbrev blockOverhead : ℕ := 16
/-- `MIN_SPLIT` -/
abbrev minSplit : ℕ := 32
/-- The window and the headers in numbers. -/
theorem heap_layout : heapStart = 3238002688 ∧ heapEnd = 3254779904 ∧ heapSize = 16777216 ∧
    blockOverhead = 16 := ⟨rfl, rfl, rfl, rfl⟩

/-- Steps allowed to a loop over the block list or the pages of the window. -/
abbrev heapFuel : ℕ := 16777216

/-! ## The fields of `heap_block_t` -/

namespace Block

/-- `block->next` -/
def next (m : RecMem) (block : ℕ) : ℕ := m.load32 block
/-- `block->prev` -/
def prev (m : RecMem) (block : ℕ) : ℕ := m.load32 (block + 4)
/-- `block->size` -/
def size (m : RecMem) (block : ℕ) : ℕ := m.load32 (block + 8)
/-- `block->free` -/
def free (m : RecMem) (block : ℕ) : ℕ := m.load32 (block + 12)

/-- `block->next = v` -/
def setNext (m : RecMem) (block v : ℕ) : RecMem := m.store32 block v
/-- `block->prev = v` -/
def setPrev (m : RecMem) (block v : ℕ) : RecMem := m.store32 (block + 4) v
/-- `block->size = v` -/
def setSize (m : RecMem) (block v : ℕ) : RecMem := m.store32 (block + 8) v
/-- `block->free = v` -/
def setFree (m : RecMem) (block v : ℕ) : RecMem := m.store32 (block + 12) v

end Block

open Block

/-! ## Operations on the list alone -/

/-- `split_block` -/
def splitBlock (m : RecMem) (block requested : ℕ) : RecMem :=
  let remaining := sub32 (size m block) requested
  if remaining ≤ blockOverhead + minSplit then m
  else
    let newBlock := u32 (block + blockOverhead + requested)
    let m := setSize m newBlock (remaining - blockOverhead)
    let m := setFree m newBlock 1
    let m := setNext m newBlock (next m block)
    let m := setPrev m newBlock block
    let m := if next m newBlock ≠ 0 then setPrev m (next m newBlock) newBlock else m
    let m := setNext m block newBlock
    setSize m block requested

/-- The first half of `coalesce`: take in a free successor. -/
def coalesceNext (m : RecMem) (block : ℕ) : RecMem :=
  let nextBlock := next m block
  if nextBlock ≠ 0 ∧ free m nextBlock ≠ 0 then
    let m := setSize m block (size m block + (blockOverhead + size m nextBlock))
    let m := setNext m block (next m nextBlock)
    if next m block ≠ 0 then setPrev m (next m block) block else m
  else m

/-- The second half of `coalesce`: join a free predecessor. -/
def coalescePrev (m : RecMem) (block : ℕ) : RecMem :=
  let prevBlock := prev m block
  if prevBlock ≠ 0 ∧ free m prevBlock ≠ 0 then
    let m := setSize m prevBlock (size m prevBlock + (blockOverhead + size m block))
    let m := setNext m prevBlock (next m block)
    if next m block ≠ 0 then setPrev m (next m block) prevBlock else m
  else m

/-- `coalesce` -/
def coalesce (m : RecMem) (block : ℕ) : RecMem := coalescePrev (coalesceNext m block) block

/-- The search of `kmalloc`: the first free block of at least `want` bytes from
`block` on, or `NULL`. -/
def findFit (m : RecMem) (want : ℕ) : ℕ → ℕ → Except Halt ℕ
  | 0, _ => .error .diverged
  | n + 1, block =>
    if block = 0 then .ok 0
    else if free m block ≠ 0 ∧ size m block ≥ want then .ok block
    else findFit m want n (next m block)

/-- `while (tail->next) tail = tail->next;` -/
def lastFrom (m : RecMem) : ℕ → ℕ → Except Halt ℕ
  | 0, _ => .error .diverged
  | n + 1, tail => if next m tail ≠ 0 then lastFrom m n (next m tail) else .ok tail

/-- `heap_tail` -/
def heapTail (m : RecMem) (heapHead : ℕ) : Except Halt ℕ :=
  if heapHead = 0 then .ok 0 else lastFrom m heapFuel heapHead

/-! ## The heap -/

/-- The statics of `heap.c`, with the window and the paging layer. -/
structure Heap (D : Type) where
  paging : Paging D
  /-- the bytes of the window -/
  window : RecMem
  heapCurr : ℕ
  heapMappedEnd : ℕ
  heapHead : ℕ
  allocatedBytes : ℕ

namespace Heap

variable {D : Type}

/-- The statics as the image has them, before `heap_init`. -/
def boot (paging : Paging D) : Heap D :=
  { paging := paging, window := ⟨fun _ => 0, []⟩, heapCurr := heapStart, heapMappedEnd := heapStart,
    heapHead := 0, allocatedBytes := 0 }

/-- `heap_init` -/
def heapInit (h : Heap D) : Heap D :=
  { h with heapCurr := heapStart, heapMappedEnd := heapStart, heapHead := 0, allocatedBytes := 0 }

/-- The first loop of `heap_trim`: drop free blocks from the end of the list. -/
def trimTail : ℕ → Heap D → Except Halt (Heap D)
  | 0, _ => .error .diverged
  | n + 1, h =>
    match heapTail h.window h.heapHead with
    | .error e => .error e
    | .ok tail =>
      if tail = 0 then .ok { h with heapCurr := heapStart }
      else if free h.window tail = 0 then
        .ok { h with heapCurr := u32 (tail + blockOverhead + size h.window tail) }
      else if prev h.window tail ≠ 0 then
        trimTail n
          { h with window := setNext h.window (prev h.window tail) 0, heapCurr := tail }
      else trimTail n { h with heapHead := 0, heapCurr := tail }

/-- The second loop of `heap_trim`: unmap pages from the end of the window and
free their frames. -/
def unmapDown (target : ℕ) : ℕ → Heap D → Except Halt (Heap D)
  | 0, _ => .error .diverged
  | n + 1, h =>
    if h.heapMappedEnd > target then
      let page := sub32 h.heapMappedEnd 4096
      let phys := h.paging.pagingVirtToPhys page
      let paging := h.paging.pagingUnmap page
      let paging := if phys ≠ 0 then { paging with pmm := pmmFreeFrame paging.pmm phys } else paging
      unmapDown target n { h with heapMappedEnd := page, paging := paging }
    else .ok h

/-- `heap_trim` -/
def heapTrim (h : Heap D) : Except Halt (Heap D) :=
  match trimTail heapFuel h with
  | .error e => .error e
  | .ok h => unmapDown (alignUp h.heapCurr 4096) heapFuel h

/-- `kfree` -/
def kfree (h : Heap D) (ptr : ℕ) : Except Halt (Heap D) :=
  if ptr = 0 then .ok h
  else
    let block := sub32 ptr blockOverhead
    -- "kfree: double free detected"
    if free h.window block ≠ 0 then .ok h
    else
      let m := setFree h.window block 1
      heapTrim
        { h with
          window := coalesce m block
          allocatedBytes := sub32 h.allocatedBytes (size m block) }

variable [Disk D]

/-- `map_new_page` -/
def mapNewPage (h : Heap D) (virt : ℕ) : Except Halt (Heap D) :=
  let out := pmmAllocFrame h.paging.pmm
  if out.2 = 0 then .error .outOfFrames
  else
    match { h.paging with pmm := out.1 }.pagingMap virt out.2 (pageRw ||| pagePresent) with
    | .error e => .error e
    | .ok paging => .ok { h with paging := paging, window := h.window.fill virt 4096 0 }

/-- `ensure_space` -/
def ensureSpace (targetEnd : ℕ) : ℕ → Heap D → Except Halt (Heap D)
  | 0, _ => .error .diverged
  | n + 1, h =>
    if h.heapMappedEnd < targetEnd then
      match h.mapNewPage h.heapMappedEnd with
      | .error e => .error e
      | .ok h => ensureSpace targetEnd n { h with heapMappedEnd := u32 (h.heapMappedEnd + 4096) }
    else .ok h

/-- `request_block` -/
def requestBlock (h : Heap D) (want : ℕ) : Except Halt (Heap D × ℕ) :=
  let start := alignUp h.heapCurr 4
  let total := u32 (start + want)
  if u32 (total + blockOverhead) > heapEnd then .ok (h, 0)
  else
    match h.ensureSpace (u32 (total + blockOverhead)) heapFuel with
    | .error e => .error e
    | .ok h =>
      let m := setNext h.window start 0
      let m := setPrev m start 0
      let m := setSize m start want
      let m := setFree m start 0
      .ok ({ h with window := m, heapCurr := u32 (total + blockOverhead) }, start)

/-- The end of `kmalloc`: put the new block at the end of the list. -/
def appendBlock (h : Heap D) (block : ℕ) : Except Halt (Heap D × ℕ) :=
  if h.heapHead = 0 then
    .ok ({ h with
      heapHead := block
      allocatedBytes := u32 (h.allocatedBytes + size h.window block) }, u32 (block + blockOverhead))
  else
    match lastFrom h.window heapFuel h.heapHead with
    | .error e => .error e
    | .ok tail =>
      let m := setPrev (setNext h.window tail block) block tail
      .ok ({ h with
        window := m
        allocatedBytes := u32 (h.allocatedBytes + size m block) }, u32 (block + blockOverhead))

/-- `kmalloc`; the pointer returned is `0` for `NULL`. -/
def kmalloc (h : Heap D) (want : ℕ) : Except Halt (Heap D × ℕ) :=
  if want = 0 then .ok (h, 0)
  else
    let want := alignUp want 4
    match findFit h.window want heapFuel h.heapHead with
    | .error e => .error e
    | .ok block =>
      if block ≠ 0 then
        .ok ({ h with window := splitBlock (setFree h.window block 0) block want },
          u32 (block + blockOverhead))
      else
        match h.requestBlock want with
        | .error e => .error e
        | .ok (h, block) => if block = 0 then .ok (h, 0) else h.appendBlock block

/-- `kmalloc_aligned` -/
def kmallocAligned (h : Heap D) (want alignment : ℕ) : Except Halt (Heap D × ℕ) :=
  match h.kmalloc (u32 (want + alignment + blockOverhead)) with
  | .error e => .error e
  | .ok (h, ptr) => if ptr = 0 then .ok (h, 0) else .ok (h, alignUp ptr alignment)

omit [Disk D] in
/-- `heap_bytes_in_use` -/
def heapBytesInUse (h : Heap D) : ℕ := h.allocatedBytes

omit [Disk D] in
/-- `heap_bytes_free` -/
def heapBytesFree (h : Heap D) : ℕ :=
  sub32 (sub32 h.heapMappedEnd heapStart) h.allocatedBytes

end Heap

end PenOS
