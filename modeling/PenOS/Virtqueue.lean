import PenOS.Lib.Walk
import PenOS.Heap

/-!
# Virtqueues (`src/drivers/virtio.c`)

The free descriptors are a list threaded through their `next` fields, and so is a submitted chain,
where `VRING_DESC_F_NEXT` says that it goes on. The three areas are separate tables (`ringLayout`
computes where they are).
-/

namespace PenOS

/-- `VRING_DESC_F_NEXT` -/
abbrev vringDescFNext : ℕ := 1
/-- `VRING_DESC_F_WRITE` -/
abbrev vringDescFWrite : ℕ := 2
/-- `VIRTQUEUE_SIZE` -/
abbrev virtqueueSize : ℕ := 128
/-- `sizeof(vring_desc_t)` -/
abbrev vringDescBytes : ℕ := 16
/-- `sizeof(vring_avail_t)` -/
abbrev vringAvailBytes : ℕ := 260
/-- `sizeof(vring_used_t)` -/
abbrev vringUsedBytes : ℕ := 1028

/-- `vring_desc_t` -/
structure VringDesc where
  addr : ℕ
  len : ℕ
  flags : ℕ
  next : ℕ

/-- `vring_used_elem_t` -/
structure VringUsedElem where
  id : ℕ
  len : ℕ

/-- `virtio_buf_desc_t` -/
structure VirtioBufDesc where
  buf : ℕ
  len : ℕ
  write : Bool

/-- Where the areas of a queue are. -/
structure RingLayout where
  desc : ℕ
  avail : ℕ
  used : ℕ
  /-- the bytes cleared from `desc` on -/
  totalSize : ℕ

/-- `virtqueue_t` with the three areas it points to. -/
structure Virtqueue where
  layout : RingLayout
  desc : ℕ → VringDesc
  availIdx : ℕ
  availRing : ℕ → ℕ
  usedIdx : ℕ
  usedRing : ℕ → VringUsedElem
  num : ℕ
  lastUsedIdx : ℕ
  freeHead : ℕ
  numFree : ℕ

/-! ## Setting up a queue -/

/-- The queue size used, given what the device reports. -/
def queueSizeOf (reported : ℕ) : ℕ :=
  if reported = 0 ∨ reported > virtqueueSize then virtqueueSize else reported

/-- The bytes cleared for a queue of `num` descriptors. -/
def ringBytes (num : ℕ) : ℕ := vringDescBytes * num + vringAvailBytes + vringUsedBytes + 4096

/-- The areas in the allocation at `raw`; the used ring starts a page. -/
def ringLayout (num raw : ℕ) : RingLayout :=
  let descSize := vringDescBytes * num
  let vqMem := u32 (raw + 4095) &&& not32 4095
  { desc := vqMem
    avail := u32 (vqMem + descSize)
    used := u32 (vqMem + (u32 (descSize + vringAvailBytes + 4095) &&& not32 4095))
    totalSize := ringBytes num }

/-- Set the `next` field of a descriptor. -/
def setNext (desc : ℕ → VringDesc) (i next : ℕ) : ℕ → VringDesc :=
  Function.update desc i { desc i with next := next }

/-- The free list at the start: every descriptor points to the one behind it. -/
def linkDescs (desc : ℕ → VringDesc) (num : ℕ) : ℕ → VringDesc :=
  setNext ((List.range (num - 1)).foldl (fun desc i => setNext desc i (i + 1)) desc) (num - 1) 0

/-- The queue as it is set up in cleared memory. -/
def Virtqueue.setup (layout : RingLayout) (num : ℕ) : Virtqueue :=
  { layout := layout
    desc := linkDescs (fun _ => ⟨0, 0, 0, 0⟩) num
    availIdx := 0
    availRing := fun _ => 0
    usedIdx := 0
    usedRing := fun _ => ⟨0, 0⟩
    num := num
    lastUsedIdx := 0
    freeHead := 0
    numFree := num }

/-- `virtqueue_init`: the queue and the page frame number told to the device, unless
there is no memory for it. -/
def virtqueueInit {D : Type} [Disk D] (heap : Heap D) (reported : ℕ) :
    Except Halt (Heap D × Option (Virtqueue × ℕ)) :=
  let num := queueSizeOf reported
  match heap.kmalloc (ringBytes num + 4096) with
  | .error e => .error e
  | .ok (heap, raw) =>
    if raw = 0 then .ok (heap, none)
    else
      let layout := ringLayout num raw
      let heap := { heap with window := heap.window.fill layout.desc layout.totalSize 0 }
      let physAddr := heap.paging.pagingVirtToPhys layout.desc
      .ok (heap, some (Virtqueue.setup layout num, physAddr >>> 12))

namespace Virtqueue

/-! ## Submitting buffers -/

/-- Put a head into the available ring. -/
def publish (q : Virtqueue) (head : ℕ) : Virtqueue :=
  { q with
    availRing := Function.update q.availRing (q.availIdx % q.num) head
    availIdx := u16 (q.availIdx + 1) }

/-- `virtqueue_add_buf`; `virtToPhys` is `paging_virt_to_phys`. -/
def virtqueueAddBuf (virtToPhys : ℕ → ℕ) (q : Virtqueue) (buf len : ℕ) (write : Bool) :
    Virtqueue × ℤ :=
  if q.numFree = 0 then (q, -1)
  else
    let head := q.freeHead
    let nextDesc := (q.desc head).next
    let q := { q with
      desc := Function.update q.desc head
        { addr := virtToPhys buf
          len := len
          flags := if write then vringDescFWrite else 0
          next := 0 }
      freeHead := nextDesc
      numFree := q.numFree - 1 }
    (q.publish head, head)

/-- The loop of `virtqueue_add_chain` from the descriptor `curr` on. -/
def addChainLoop (virtToPhys : ℕ → ℕ) : Virtqueue → ℕ → List VirtioBufDesc → Virtqueue
  | q, _, [] => q
  | q, curr, b :: bs =>
    let nextDesc := (q.desc curr).next
    let desc : VringDesc :=
      { addr := virtToPhys b.buf
        len := b.len
        flags := (if b.write then vringDescFWrite else 0) |||
          (if bs ≠ [] then vringDescFNext else 0)
        next := if bs ≠ [] then nextDesc else 0 }
    let q := { q with
      desc := Function.update q.desc curr desc
      freeHead := if bs ≠ [] then q.freeHead else nextDesc }
    addChainLoop virtToPhys q nextDesc bs

/-- `virtqueue_add_chain`; `count` is the length of `bufs`. -/
def virtqueueAddChain (virtToPhys : ℕ → ℕ) (q : Virtqueue) (bufs : List VirtioBufDesc) :
    Virtqueue × ℤ :=
  if q.numFree < bufs.length then (q, -1)
  else
    let head := q.freeHead
    let q := addChainLoop virtToPhys q head bufs
    let q := { q with numFree := q.numFree - bufs.length }
    (q.publish head, head)

/-! ## Taking completed buffers back -/

/-- The flag of a descriptor that its chain goes on. -/
def hasNext (q : Virtqueue) (i : ℕ) : Bool := (q.desc i).flags &&& vringDescFNext ≠ 0

/-- Put one descriptor in front of the free list. -/
def release (q : Virtqueue) (curr : ℕ) : Virtqueue :=
  { q with
    desc := setNext q.desc curr q.freeHead
    freeHead := curr
    numFree := u16 (q.numFree + 1) }

/-- The loop of `virtqueue_get_buf`: `none` if it is not done after `fuel` rounds. -/
def releaseLoop : ℕ → Virtqueue → ℕ → Option Virtqueue
  | 0, _, _ => none
  | fuel + 1, q, curr =>
    let next := (q.desc curr).next
    let more := q.hasNext curr
    let q := q.release curr
    if more then releaseLoop fuel q next else some q

/-- The entry of the used ring that is read next. -/
def nextUsed (q : Virtqueue) : VringUsedElem := q.usedRing (q.lastUsedIdx % q.num)

/-- `virtqueue_get_buf`: the head of the completed chain and the length written, or
-1. There are `2 ^ 16` descriptor indices. -/
def virtqueueGetBuf (q : Virtqueue) : Except Halt (Virtqueue × ℤ × Option ℕ) :=
  if q.lastUsedIdx = q.usedIdx then .ok (q, -1, none)
  else
    match q.releaseLoop 65536 (u16 q.nextUsed.id) with
    | none => .error .diverged
    | some q' =>
      .ok ({ q' with lastUsedIdx := u16 (q.lastUsedIdx + 1) }, int32 q.nextUsed.id,
        some q.nextUsed.len)

end Virtqueue

end PenOS
