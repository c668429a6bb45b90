import PenOS.HeapSizes

/-!
# What `allocated_bytes` counts

`kmalloc` adds the size of a new block to `allocated_bytes`, `kfree` subtracts that of the block it
frees; a block taken from the list is not counted.
-/

namespace PenOS

open List

open Block RecMem

variable {D : Type} {live : List (ℕ × ℕ)} {h h' : Heap D} {cs ds : List Chunk} {want p k : ℕ}

/-! ## The two sums -/

/-- The sizes of the blocks of `bs` that are not free, added up. -/
def bytesUsed (m : RecMem) (bs : List ℕ) : ℕ :=
  ((bs.filter fun b => free m b = 0).map (size m)).sum

/-- `heap_bytes_in_use` is the sum of the sizes of the used blocks, and `heap_bytes_free` the rest
of what is mapped. -/
def Heap.CountsExact (h : Heap D) : Prop :=
  ∃ bs, Linked h.window h.heapHead bs ∧ h.heapBytesInUse = bytesUsed h.window bs ∧
    bytesUsed h.window bs ≤ h.heapMappedEnd - heapStart ∧
    h.heapBytesFree = h.heapMappedEnd - heapStart - bytesUsed h.window bs

/-- The sizes of the payloads in use, added up. -/
def usedSum (us : List (ℕ × ℕ)) : ℕ := (us.map Prod.snd).sum

@[simp] theorem usedSum_nil : usedSum [] = 0 := rfl

@[simp] theorem usedSum_cons (u : ℕ × ℕ) (us : List (ℕ × ℕ)) :
    usedSum (u :: us) = u.2 + usedSum us := by simp [usedSum]

@[simp] theorem usedSum_append (us vs : List (ℕ × ℕ)) :
    usedSum (us ++ vs) = usedSum us + usedSum vs := by simp [usedSum]

theorem usedSum_le_span (a : ℕ) (cs : List Chunk) : usedSum (usedAt a cs) ≤ span cs := by
  induction cs generalizing a with
  | nil => exact Nat.zero_le _
  | cons c cs ih =>
    have hrest := ih (a + 16 + c.size)
    rcases hc : c.free with _ | _
    · rw [usedAt_cons_used _ _ hc, usedSum_cons, span_cons]
      omega
    · rw [usedAt_cons_free _ _ hc, span_cons]
      omega

/-- The headers give the sum over the payloads in use. -/
theorem Chain.bytesUsed {m : RecMem} {prev a : ℕ} (hc : Chain m.bytes 0 prev a cs) :
    PenOS.bytesUsed m (blockAddrs a cs) = usedSum (usedAt a cs) := by
  induction cs generalizing prev a with
  | nil => rfl
  | cons c cs ih =>
    obtain ⟨hhead, htail⟩ := hc
    have hrest := ih htail
    rw [PenOS.bytesUsed] at hrest
    have hfree := hhead.blockFree
    rcases hf : c.free with _ | _
    · have hzero : Block.free m a = 0 := by
        by_contra hne
        exact absurd (hfree.mp hne) (by simp [hf])
      rw [usedAt_cons_used _ _ hf, usedSum_cons, ← hrest, PenOS.bytesUsed, blockAddrs,
        filter_cons_of_pos (by simpa using hzero), map_cons, sum_cons,
        hhead.blockSize]
    · have hne : Block.free m a ≠ 0 := hfree.mpr hf
      rw [usedAt_cons_free _ _ hf, ← hrest, PenOS.bytesUsed, blockAddrs,
        filter_cons_of_neg (by simpa using hne)]

/-- The counter is the sum over the payloads in use. -/
theorem Heap.Inv.countsExact (hinv : h.Inv cs)
    (hcount : h.allocatedBytes = usedSum (usedAt heapStart cs)) : h.CountsExact := by
  have hlayout := heap_layout
  have hcurr := hinv.curr
  have hmapped := hinv.mapped
  have hfits := hinv.fits
  have hle := usedSum_le_span heapStart cs
  refine ⟨_, hinv.linked, ?_⟩
  rw [hinv.chain.bytesUsed, Heap.heapBytesInUse, Heap.heapBytesFree, ← hcount]
  refine ⟨rfl, by omega, ?_⟩
  rw [sub32_of_le (a := h.heapMappedEnd) (by omega) (by omega), sub32_of_le (by omega) (by omega)]

/-! ## `kfree` -/

namespace Heap

theorem trimTail_allocated {fuel : ℕ} (hrun : trimTail fuel h = .ok h') :
    h'.allocatedBytes = h.allocatedBytes := by
  induction fuel generalizing h with
  | zero => cases hrun
  | succ fuel ih =>
    rw [trimTail] at hrun
    split at hrun
    · cases hrun
    · split_ifs at hrun
      · exact (Except.ok.inj hrun) ▸ rfl
      · exact (Except.ok.inj hrun) ▸ rfl
      · have hrest := ih hrun
        exact hrest
      · have hrest := ih hrun
        exact hrest

theorem unmapDown_allocated {target fuel : ℕ} (hrun : unmapDown target fuel h = .ok h') :
    h'.allocatedBytes = h.allocatedBytes := by
  induction fuel generalizing h with
  | zero => cases hrun
  | succ fuel ih =>
    rw [unmapDown] at hrun
    split_ifs at hrun
    · have hrest := ih hrun
      exact hrest
    · exact (Except.ok.inj hrun) ▸ rfl

theorem heapTrim_allocated (hrun : h.heapTrim = .ok h') : h'.allocatedBytes = h.allocatedBytes := by
  rw [heapTrim] at hrun
  split at hrun
  · cases hrun
  · rename_i h1 htrim
    exact (unmapDown_allocated hrun).trans (trimTail_allocated htrim)

/-- `kfree` subtracts the size of the block. -/
theorem Inv.kfree_allocatedBytes (hinv : h.Inv cs) (hmem : (p, k) ∈ usedAt heapStart cs)
    (hrun : h.kfree p = .ok h') : h'.allocatedBytes = sub32 h.allocatedBytes k := by
  obtain ⟨xs, c, ys, rfl, hc, hpk⟩ := exists_of_mem_usedAt hmem
  cases hpk
  obtain ⟨-, hhead, -⟩ := chain_middle.mp hinv.chain
  have hlayout := heap_layout
  have hfits := hinv.fits
  rw [span_append, span_cons] at hfits
  have hblock : sub32 (heapStart + span xs + 16) blockOverhead = heapStart + span xs := by
    rw [sub32_of_le (by omega) (by omega)]
    omega
  have hfree : ¬ Block.free h.window (heapStart + span xs) ≠ 0 := by
    rw [hhead.blockFree, hc]
    exact Bool.false_ne_true
  rw [Heap.kfree, if_neg (by omega)] at hrun
  rw [hblock, if_neg hfree] at hrun
  have hsize : size (setFree h.window (heapStart + span xs) 1) (heapStart + span xs) = c.size :=
    (hhead.setFree true).size_eq
  rw [heapTrim_allocated hrun, hsize]

/-! ## `kmalloc` behind the list -/

theorem appendBlock_allocated {b : ℕ} (hrun : h.appendBlock b = .ok (h', p)) :
    h'.allocatedBytes = u32 (h.allocatedBytes + size h'.window b) ∧
      p = u32 (b + blockOverhead) := by
  rw [appendBlock] at hrun
  split at hrun
  · cases hrun
    exact ⟨rfl, rfl⟩
  · split at hrun
    · cases hrun
    · cases hrun
      exact ⟨rfl, rfl⟩

variable [Disk D]

theorem ensureSpace_allocated {target fuel : ℕ} (hrun : h.ensureSpace target fuel = .ok h') :
    h'.allocatedBytes = h.allocatedBytes := by
  induction fuel generalizing h with
  | zero => cases hrun
  | succ fuel ih =>
    rw [ensureSpace] at hrun
    split_ifs at hrun
    · rcases hpage : h.mapNewPage h.heapMappedEnd with e | h1
      · rw [hpage] at hrun
        cases hrun
      · rw [hpage] at hrun
        have hrest := ih hrun
        rw [hrest]
        rw [mapNewPage] at hpage
        split_ifs at hpage
        split at hpage
        · cases hpage
        · exact (Except.ok.inj hpage) ▸ rfl
    · exact (Except.ok.inj hrun) ▸ rfl

theorem requestBlock_allocated {n b : ℕ} (hrun : h.requestBlock n = .ok (h', b)) (hb : b ≠ 0) :
    h'.allocatedBytes = h.allocatedBytes ∧ b = alignUp h.heapCurr 4 := by
  rw [requestBlock] at hrun
  split_ifs at hrun
  · exact absurd (ok_pair hrun).2.symm hb
  · split at hrun
    · cases hrun
    · rename_i h1 hspace
      cases hrun
      have hkept := ensureSpace_allocated hspace
      exact ⟨hkept, rfl⟩

/-- `kmalloc` adds the size of a new block. -/
theorem Inv.kmalloc_allocatedBytes (hinv : h.Inv cs) (hinv' : h'.Inv ds) (hpos : 0 < want)
    (hwant : want ≤ heapSize) (hno : NoFit cs want) (hrun : h.kmalloc want = .ok (h', p))
    (hmem : (p, k) ∈ usedAt heapStart ds) : h'.allocatedBytes = u32 (h.allocatedBytes + k) := by
  have hlayout := heap_layout
  have hfits := hinv.fits
  have hcurr := hinv.curr
  rw [hinv.kmalloc_of_noFit hpos hwant hno] at hrun
  rcases hreq : h.requestBlock ((want + 3) / 4 * 4) with e | ⟨h1, b⟩
  · rw [hreq] at hrun
    cases hrun
  rw [hreq] at hrun
  dsimp only at hrun
  have hp := usedAt_range hmem
  split_ifs at hrun with hb
  · have := (ok_pair hrun).2
    omega
  · obtain ⟨hkept, hstart⟩ := requestBlock_allocated hreq hb
    obtain ⟨hcount, hptr⟩ := appendBlock_allocated hrun
    rw [alignUp_four (by omega)] at hstart
    rw [u32_of_lt (by omega)] at hptr
    have hsize : size h'.window b = k := by
      rw [show b = p - blockOverhead by omega]
      exact hinv'.payloadEnd_used hmem
    rw [hcount, hkept, hsize]

end Heap

/-! ## Runs -/

variable [Disk D]

/-- The size does not slip through, and no free block serves the request. -/
def Heap.ServedFresh (h : Heap D) (want : ℕ) : Prop :=
  h.SizeChecked want ∧ h.NoBlockFor (alignUp want 4)

/-- The counter along a run. -/
theorem SizedRun.count (hr : SizedRun Heap.ServedFresh live h) :
    ∃ cs, HeapState live h cs ∧ h.allocatedBytes = usedSum (usedAt heapStart cs) := by
  induction hr with
  | init h =>
    obtain ⟨cs, hs⟩ := (HeapReach.init h).state
    obtain rfl : cs = [] := by
      cases cs with
      | nil => rfl
      | cons c cs => exact absurd (show 0 = heapStart from hs.inv.head) (by decide)
    exact ⟨[], hs, rfl⟩
  | @malloc live h h' want p hr hwant hcond hrun ih =>
    obtain ⟨cs, hs, hcount⟩ := ih
    by_cases hp : p = 0
    · subst hp
      obtain ⟨rfl, -⟩ := (hs.inv.kmalloc_null_iff hwant).mp hrun
      exact ⟨cs, hs, hcount⟩
    have hle : want ≤ heapSize := by
      by_contra hlarge
      rw [hs.inv.kmalloc_large hwant (not_le.mp hlarge) hcond.1] at hrun
      exact hp (ok_pair hrun).2.symm
    have hpos : 0 < want := by
      rw [Nat.pos_iff_ne_zero]
      rintro rfl
      exact hp (ok_pair hrun).2.symm
    obtain ⟨ds, hs'⟩ := hs.malloc hle hrun
    rcases hs.inv.kmalloc_ok hle hrun with ⟨hnull, -⟩ | ⟨ds', halloc⟩
    · exact absurd hnull hp
    obtain rfl := hs'.inv.unique halloc.inv
    obtain ⟨us, vs, k, -, hcs, hds⟩ := halloc.used
    have hno : Heap.NoFit cs want := by
      have hlayout := heap_layout
      have := hs.inv.noBlockFor_iff.mp hcond.2
      rwa [alignUp_four (by omega)] at this
    have hbytes := hs.inv.kmalloc_allocatedBytes hs'.inv hpos hle hno hrun
      (show (p, k) ∈ _ by simp [hds])
    have hsum : usedSum (usedAt heapStart ds) = usedSum (usedAt heapStart cs) + k := by
      rw [hcs, hds]
      simp only [usedSum_append, usedSum_cons]
      omega
    have hfits := hs'.inv.fits
    have hspan := usedSum_le_span heapStart ds
    refine ⟨ds, hs', ?_⟩
    rw [hbytes, hcount, hsum, u32_of_lt (by omega)]
  | freeNull _ hrun ih =>
    cases hrun
    exact ih
  | @free live h h' u _ hu hrun ih =>
    obtain ⟨cs, hs, hcount⟩ := ih
    obtain ⟨ds, hs'⟩ := hs.free hu hrun
    obtain ⟨k, -, hmem⟩ := hs.live_used u hu
    obtain ⟨us, vs, hsplit⟩ := append_of_mem hmem
    obtain ⟨h1, ds', hrun1, hinv1, hused⟩ := hs.inv.kfree_split hsplit
    obtain rfl := Except.ok.inj (hrun1.symm.trans hrun)
    obtain rfl := hs'.inv.unique hinv1
    have hsum : usedSum (usedAt heapStart cs) = usedSum (usedAt heapStart ds) + k := by
      rw [hsplit, hused]
      simp only [usedSum_append, usedSum_cons]
      omega
    have hfits := hs.inv.fits
    have hspan := usedSum_le_span heapStart cs
    refine ⟨ds, hs', ?_⟩
    rw [hs.inv.kfree_allocatedBytes hmem hrun, hcount, sub32_of_le (by omega) (by omega)]
    omega
  | client bytes _ hbytes ih =>
    obtain ⟨cs, hs, hcount⟩ := ih
    exact ⟨cs, hs.client hbytes, hcount⟩

/-- **The counters are exact** in every run in which no size slips through and no request is served
from the list. -/
theorem heap_counts_exact (hr : SizedRun Heap.ServedFresh live h) : h.CountsExact := by
  obtain ⟨cs, hs, hcount⟩ := hr.count
  exact hs.inv.countsExact hcount

theorem smallHeap_sized {h : Heap DiskImage} (hh : smallHeap = some h) :
    SizedRun Heap.ServedFresh [] h ∧ ∀ n, h.NoBlockFor n := by
  obtain ⟨p, -, hp⟩ := Option.bind_eq_some_iff.mp hh
  obtain ⟨s, -, rfl⟩ := Option.map_eq_some_iff.mp hp
  refine ⟨.init (Heap.boot s), fun n bs hbs b hb => ?_⟩
  rw [hbs.unique (show Linked _ _ [] from rfl)] at hb
  exact absurd hb not_mem_nil

theorem heap_counts_exact_hundred :
    ∃ h : Heap DiskImage, SizedRun Heap.ServedFresh [(0xC1000010, 100)] h ∧ h.CountsExact := by
  have hrun : (smallHeap.bind fun h => (h.kmalloc 100).toOption.map Prod.snd) =
      some 0xC1000010 := by decide +kernel
  obtain ⟨h, hh, hrun⟩ := Option.bind_eq_some_iff.mp hrun
  obtain ⟨⟨h', p⟩, hrun, rfl⟩ := Option.map_eq_some_iff.mp hrun
  obtain ⟨hr, hno⟩ := smallHeap_sized hh
  obtain ⟨cs, hs⟩ := (smallHeap_reach hh).state
  have hchecked : h.SizeChecked 100 := hs.inv.sizeChecked (by decide)
  have hr' : SizedRun Heap.ServedFresh [(0xC1000010, 100)] h' :=
    hr.malloc (by decide) ⟨hchecked, hno _⟩ (ok_of_toOption hrun)
  exact ⟨h', hr', heap_counts_exact hr'⟩

/-- Two allocations, the first freed and allocated again: `heap_bytes_in_use` is 100, not 200. -/
theorem reused_block_not_counted :
    ∃ (h : Heap DiskImage) (live : List (ℕ × ℕ)), SizedRun Heap.SizeChecked live h ∧
      ¬ h.CountsExact := by
  have hrun : (smallHeap.bind fun h => (h.kmalloc 100).toOption.bind fun r1 =>
      (r1.1.kmalloc 100).toOption.bind fun r2 => (r2.1.kfree 0xC1000010).toOption.bind fun h3 =>
        (h3.kmalloc 100).toOption.map fun r4 => ((r1.2, r2.2), r4.1.heapBytesInUse, r4.1.heapHead,
          [0xC1000000, 0xC1000074].map fun b =>
            (next r4.1.window b, free r4.1.window b, size r4.1.window b))) =
      some ((0xC1000010, 0xC1000084), 100, 0xC1000000, [(0xC1000074, 0, 100), (0, 0, 100)]) := by
    decide +kernel
  simp only [Option.bind_eq_some_iff, Option.map_eq_some_iff] at hrun
  obtain ⟨h, hh, ⟨h1, p1⟩, hrun1, ⟨h2, p2⟩, hrun2, h3, hrun3, ⟨h4, p4⟩, hrun4, heq⟩ := hrun
  simp only [map_cons, map_nil, Prod.mk.injEq, List.cons.injEq, and_true] at heq
  obtain ⟨⟨rfl, rfl⟩, hcount, hhead, ⟨hnext, hfree, hsize⟩, hnext', hfree', hsize'⟩ := heq
  have hr1 : HeapReach [(0xC1000010, 100)] h1 :=
    (smallHeap_reach hh).malloc (by decide) (ok_of_toOption hrun1)
  have hr2 : HeapReach [(0xC1000084, 100), (0xC1000010, 100)] h2 :=
    hr1.malloc (by decide) (ok_of_toOption hrun2)
  have hr3 := hr2.free (u := (0xC1000010, 100)) (by simp) (ok_of_toOption hrun3)
  have hr4 := hr3.malloc (by decide) (ok_of_toOption hrun4)
  refine ⟨h4, _, hr4.sized, ?_⟩
  rintro ⟨bs, hbs, hsum, -⟩
  have hlinked : Linked h4.window h4.heapHead [0xC1000000, 0xC1000074] :=
    ⟨hhead, by decide, hnext, by decide, hnext'⟩
  obtain rfl := hbs.unique hlinked
  rw [hcount] at hsum
  exact absurd hsum (by simp [bytesUsed, hfree, hfree', hsize, hsize'])

end PenOS
