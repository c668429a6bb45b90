import PenOS.Heap

/-!
# Shared memory (`src/mem/shm.c`)

A region is an entry of `shm_table` that points to a list of frames in the kernel heap. `shm_get`
makes a region or finds it by its key, `shm_attach` maps its frames into the loaded directory.
-/

namespace PenOS

/-- `shm_region_t`; `phys_start` is the address of the list of frames. -/
structure ShmRegion where
  id : ℕ
  key : ℕ
  physStart : ℕ
  size : ℕ
  pages : ℕ
  ownerPid : ℕ
  refCount : ℕ
  used : Bool

/-- The statics of `shm.c`, with the heap. -/
structure Shm (D : Type) where
  heap : Heap D
  shmTable : ℕ → ShmRegion
  nextShmId : ℕ

/-- `SHM_MAX_REGIONS` -/
abbrev shmMaxRegions : ℕ := 128
/-- `SHM_CREAT` -/
abbrev shmCreat : ℕ := 1
/-- `SHM_EXCL` -/
abbrev shmExcl : ℕ := 2
/-- The return value `-1`. -/
abbrev shmError : ℕ := 0xFFFFFFFF

/-! ## The frames of a new region -/

namespace Heap

variable {D : Type}

/-- The heap with another state of the frame manager. -/
def withPmm (h : Heap D) (pmm : Pmm) : Heap D := { h with paging := { h.paging with pmm := pmm } }

/-- A frame, as `pmm_alloc_frame` returned it, is written to the word at `a`. -/
def storeFrame (h : Heap D) (a : ℕ) (out : Pmm × ℕ) : Heap D :=
  { h.withPmm out.1 with window := h.window.store32 a out.2 }

/-- The loop of `shm_get`, with `n` frames to go, which are written to the list at `physPages` from
word `i` on. The number returned is that of a word without a frame. -/
def takeFrames (physPages : ℕ) : ℕ → ℕ → Heap D → Heap D × Option ℕ
  | 0, _, h => (h, none)
  | n + 1, i, h =>
    let out := pmmAllocFrame h.paging.pmm
    if out.2 = 0 then (h.withPmm out.1, some i)
    else takeFrames physPages n (i + 1) (h.storeFrame (physPages + 4 * i) out)

/-- The rollback of `shm_get`: the first `i` frames go back to the manager. -/
def dropFrames (physPages i : ℕ) (h : Heap D) : Heap D :=
  (List.range i).foldl (fun h j =>
    h.withPmm (pmmFreeFrame h.paging.pmm (h.window.load32 (physPages + 4 * j)))) h

end Heap

namespace Shm

variable {D : Type}

/-- `shm_init` -/
def shmInit (s : Shm D) : Shm D := { s with shmTable := fun _ => ⟨0, 0, 0, 0, 0, 0, 0, false⟩ }

/-- The first entry of the table for which `p` holds. -/
def findRegion (s : Shm D) (p : ShmRegion → Bool) : Option ℕ :=
  (List.range shmMaxRegions).find? fun i => p (s.shmTable i)

/-- `find_free_region` -/
def findFreeRegion (s : Shm D) : Option ℕ := s.findRegion fun r => !r.used

/-- `find_region_by_key` -/
def findRegionByKey (s : Shm D) (key : ℕ) : Option ℕ :=
  s.findRegion fun r => r.used && r.key == key

/-- `find_region_by_id` -/
def findRegionById (s : Shm D) (id : ℕ) : Option ℕ := s.findRegion fun r => r.used && r.id == id

/-- `phys_pages[i]` of a region -/
def physPage (s : Shm D) (region : ShmRegion) (i : ℕ) : ℕ :=
  s.heap.window.load32 (region.physStart + 4 * i)

variable [Disk D]

/-- The part of `shm_get` that makes a region in the free entry `k`. -/
def createRegion (s : Shm D) (k key size : ℕ) : Except Halt (Shm D × ℕ) :=
  let pagesNeeded := u32 (size + 4095) / 4096
  match s.heap.kmalloc (u32 (pagesNeeded * 4)) with
  | .error e => .error e
  | .ok (h, physPages) =>
    if physPages = 0 then .ok ({ s with heap := h }, shmError)
    else
      match h.takeFrames physPages pagesNeeded 0 with
      | (h, some i) =>
        match (h.dropFrames physPages i).kfree physPages with
        | .error e => .error e
        | .ok h => .ok ({ s with heap := h }, shmError)
      | (h, none) =>
        let region : ShmRegion := ⟨s.nextShmId, key, physPages, size, pagesNeeded, 0, 0, true⟩
        .ok ({ s with
          heap := h
          shmTable := Function.update s.shmTable k region
          nextShmId := u32 (s.nextShmId + 1) }, region.id)

/-- `shm_get` -/
def shmGet (s : Shm D) (key size flags : ℕ) : Except Halt (Shm D × ℕ) :=
  match s.findRegionByKey key with
  | some k =>
    if hasFlag flags shmCreat && hasFlag flags shmExcl then .ok (s, shmError)
    else .ok (s, (s.shmTable k).id)
  | none =>
    if !hasFlag flags shmCreat then .ok (s, shmError)
    else
      match s.findFreeRegion with
      | none => .ok (s, shmError)
      | some k => s.createRegion k key size

omit [Disk D] in
/-- The address at which `shm_attach` maps the first page. -/
def attachStart (id addr : ℕ) : ℕ :=
  (if addr ≠ 0 then addr else u32 (0xA0000000 + u32 (id * 0x100000))) &&& 0xFFFFF000

/-- `shm_attach` -/
def shmAttach (s : Shm D) (id addr : ℕ) : Except Halt (Shm D × ℕ) :=
  match s.findRegionById id with
  | none => .ok (s, 0)
  | some k =>
    let region := s.shmTable k
    let virtStart := attachStart id addr
    match (List.range region.pages).foldlM (fun p i =>
        p.pagingMap (u32 (virtStart + i * 4096)) (s.physPage region i)
          (pageUser ||| pageRw ||| pagePresent)) s.heap.paging with
    | .error e => .error e
    | .ok p =>
      .ok ({ s with
        heap := { s.heap with paging := p }
        shmTable := Function.update s.shmTable k
          { region with refCount := u32 (region.refCount + 1) } }, virtStart)

end Shm

end PenOS
