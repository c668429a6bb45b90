import PenOS.HeapLoans
import PenOS.KernelCalls
import PenOS.LastFrame
import PenOS.TaskSpaces
import PenOS.VirtqueueInv

/-!
# The frames behind a virtqueue

`virtqueue_init` tells the device one page frame number; the used ring is on the second page, so the
device finds it only if that page has the next frame.
-/

namespace PenOS

open Finset

variable {D : Type}

/-! ## The order in which frames are given out -/

/-- The frame manager after `n` calls of `pmm_alloc_frame`. -/
def Pmm.after (p : Pmm) (n : ℕ) : Pmm := (fun q => (pmmAllocFrame q).1)^[n] p

namespace Paging

variable {s s₁ s' : Paging D} {ex : ℕ → ℕ → Prop} {live : List ℕ} {own own' : ℕ → Role}
  {e f k : ℕ}

/-- The tables that are made for the `n` pages from `e` on. -/
def newTables (s : Paging D) (e n : ℕ) : ℕ :=
  ((Finset.range n).image (fun m => pdIndex (e + m * 4096)) ∩ s.missingTables).card

theorem Grown.newTables (hg : s.Grown s₁ ex live own own' e f) (hcur : s.currentPd ∈ live)
    (hwin : InWindow s.currentPd (pdIndex e)) (n : ℕ) :
    s.newTables e (n + 1) = s₁.newTables (e + 4096) n +
      if s.entry s.currentPd (pdIndex e) % 2 = 1 then 0 else 1 := by
  have himage : (Finset.range (n + 1)).image (fun m => pdIndex (e + m * 4096)) =
      insert (pdIndex e) ((Finset.range n).image fun m => pdIndex (e + 4096 + m * 4096)) := by
    have hnext : ∀ m, e + (m + 1) * 4096 = e + 4096 + m * 4096 := fun m => by omega
    ext i
    simp only [mem_image, mem_range, mem_insert]
    constructor
    · rintro ⟨m, hm, rfl⟩
      rcases m with _ | m
      · exact .inl (by rw [Nat.zero_mul, Nat.add_zero])
      · exact .inr ⟨m, by omega, by rw [hnext]⟩
    · rintro (rfl | ⟨m, hm, rfl⟩)
      · exact ⟨0, by omega, by rw [Nat.zero_mul, Nat.add_zero]⟩
      · exact ⟨m + 1, by omega, by rw [hnext]⟩
  rw [Paging.newTables, Paging.newTables, himage, hg.missingTables hcur, inter_erase]
  by_cases hp : s.entry s.currentPd (pdIndex e) % 2 = 1
  · have hout : pdIndex e ∉ s.missingTables := fun h => (mem_missingTables hwin).mp h hp
    rw [if_pos hp, insert_inter_of_notMem hout,
      erase_eq_of_notMem fun h => hout (mem_of_mem_inter_right h)]
    rfl
  · rw [if_neg hp, insert_inter_of_mem ((mem_missingTables hwin).mpr hp),
      ← erase_insert_eq_erase]
    exact (card_erase_add_one (mem_insert_self _ _)).symm

variable [Disk D]

theorem growPage_pmm (hpmm : s.pmm.Inv) (hready : s.Ready e) (h : s.growPage e = .ok s') :
    s'.pmm = s.pmm.after (1 + if s.entry s.currentPd (pdIndex e) % 2 = 1 then 0 else 1) := by
  rw [growPage] at h
  split_ifs at h
  rcases pagingMap_cases h with ⟨hp, rfl⟩ | ⟨hp, s₁, a, ha, rfl⟩
  · rw [if_pos (show s.entry s.currentPd (pdIndex e) % 2 = 1 from hp)]
    rfl
  · have habs : ¬ s.entry s.currentPd (pdIndex e) % 2 = 1 := hp
    have hne := hready.resolve_left habs
    have hpmm1 := pmmAllocFrame_inv hpmm
    rw [allocFrameZero_of_free hpmm1 hne] at ha
    cases ha
    rw [if_neg habs]
    exact congrArg Prod.fst (pmmAllocFrame_of_nonempty hpmm1 hne).symm

/-- **The frames of new pages**, one after the other, with those of new tables in between. -/
theorem PageInvOn.growUp_frames (hs : s.PageInvOn ex live own) (hcur : s.currentPd ∈ live)
    (hlo : heapStart ≤ e) (hhi : e + k * 4096 ≤ heapEnd) (halign : e % 4096 = 0)
    (hsup : s.Supply k) (h : Paging.growUp k s e = .ok s') : ∀ n < k, ∃ f,
      (pmmAllocFrame (s.pmm.after (n + s.newTables e n))).2 = f * 4096 ∧
      s'.Behind s.currentPd (e + n * 4096) f := by
  induction k generalizing s e own with
  | zero => exact fun n hn => absurd hn (Nat.not_lt_zero n)
  | succ k ih =>
    obtain ⟨s₁, own1, f, hwin, hready, hgrow, hg, hf, hsup1, h⟩ :=
      hs.growUp_succ hcur hlo (by omega) hsup h
    have hcur1 : s₁.currentPd ∈ live := hg.currentPd ▸ hcur
    intro n hn
    rcases n with _ | n
    · -- the first page is not among the others
      have hrest := hg.inv.lent hcur1 (by omega) (by omega) (by omega) hsup1 h
      have hkeep := hrest.pte _ hcur (pdIndex e) hwin.lt _ (ptIndex_lt e) fun m _ => by
        rw [pdIndex, pdIndex, ptIndex, ptIndex]
        omega
      refine ⟨f, hf, ?_⟩
      rw [Nat.zero_mul, Nat.add_zero, Behind, hkeep]
      exact hg.pte_page
    · obtain ⟨g, hnext, hpage⟩ :=
        ih hg.inv hcur1 (by omega) (by omega) (by omega) hsup1 h n (by omega)
      rw [growPage_pmm hs.pmm hready hgrow, Pmm.after, Pmm.after,
        ← Function.iterate_add_apply] at hnext
      rw [hg.currentPd, show e + 4096 + n * 4096 = e + (n + 1) * 4096 by omega] at hpage
      refine ⟨g, ?_, hpage⟩
      rw [hg.newTables hcur hwin n, Pmm.after, ← hnext]
      congr 3
      omega

end Paging

namespace Heap

variable {h h' : Heap D} {cs : List Chunk} {want p : ℕ}

/-- The page has the frame `f`, or gets it when the heap grows. -/
def FrameFor (h : Heap D) (page f : ℕ) : Prop :=
  if page < h.heapMappedEnd then h.paging.Behind h.paging.currentPd page f
  else (pmmAllocFrame (h.paging.pmm.after ((page - h.heapMappedEnd) / 4096 +
    h.paging.newTables h.heapMappedEnd ((page - h.heapMappedEnd) / 4096)))).2 = f * 4096

variable [Disk D]

/-- **The frames behind the heap** after `kmalloc`. -/
theorem Inv.frame_iff (hinv : h.Inv cs) {ex : ℕ → ℕ → Prop} {live : List ℕ} {own : ℕ → Role}
    (hs : h.paging.PageInvOn ex live own) (hcur : h.paging.currentPd ∈ live)
    (hwant : want ≤ heapSize) (hsup : Unevicted h want) (hrun : h.kmalloc want = .ok (h', p))
    (hinv' : h'.Sound) {page f : ℕ} (hpage : page % 4096 = 0) (hlo : heapStart ≤ page)
    (hhi : page < h'.heapMappedEnd) :
    h'.paging.Behind h'.paging.currentPd page f ↔ h.FrameFor page f := by
  obtain ⟨ds, hds⟩ := hinv'
  obtain ⟨k, hgrow, hend, hk⟩ := kmalloc_paging hinv hwant hrun
  obtain ⟨h1, -, h3⟩ := hinv.mapped_range
  obtain ⟨-, h2, -⟩ := hds.mapped_range
  have hlayout := heap_layout
  have halign : h.heapMappedEnd % 4096 = 0 := by omega
  rw [hend] at h2 hhi
  have hlent := hs.lent hcur h1 h2 halign (hsup.mono hk) hgrow
  rw [hlent.currentPd, FrameFor]
  split_ifs with hold
  · rw [Paging.Behind, Paging.Behind,
      hlent.pte _ hcur _ ?_ _ (Paging.ptIndex_lt page) fun m _ => ?_]
    · rw [pdIndex]
      omega
    · rw [pdIndex, pdIndex, ptIndex, ptIndex]
      omega
  · obtain ⟨g, hframe, hpg⟩ := hs.growUp_frames hcur h1 h2 halign (hsup.mono hk) hgrow
      ((page - h.heapMappedEnd) / 4096) (by omega)
    rw [show h.heapMappedEnd + (page - h.heapMappedEnd) / 4096 * 4096 = page by omega] at hpg
    rw [hframe, Nat.mul_left_inj (by decide)]
    exact ⟨fun hf => hpg.2.symm.trans hf.2, fun hf => hf ▸ hpg⟩

end Heap

/-! ## The rings -/

/-- Every byte of the rings is where the device expects it, in the frames from `pfn` on. -/
def Virtqueue.Contiguous (q : Virtqueue) (s : Paging D) (pfn : ℕ) : Prop :=
  ∀ v, q.layout.desc ≤ v → v < q.layout.used + vringUsedBytes →
    s.Behind s.currentPd v (pfn + (v / 4096 - q.layout.desc / 4096))

/-- The page of the descriptors, if the heap has the blocks `cs`. -/
def ringStart (cs : List Chunk) (num : ℕ) : ℕ :=
  (heapStart + (place (ringBytes num + 4096) cs).2 + 4095) / 4096 * 4096

theorem ringBytes_eq (num : ℕ) : ringBytes num = 16 * num + 5384 := by
  change 16 * num + 260 + 1028 + 4096 = _
  omega

theorem ringLayout_pages {num raw : ℕ} (hnum : num ≤ virtqueueSize) (hraw : raw < 3254779904) :
    (ringLayout num raw).desc = (raw + 4095) / 4096 * 4096 ∧
      (ringLayout num raw).used = (raw + 4095) / 4096 * 4096 + 4096 := by
  have hsize : virtqueueSize = 128 := rfl
  have hdesc : u32 (raw + 4095) &&& not32 4095 = (raw + 4095) / 4096 * 4096 := by
    rw [u32_of_lt (by omega)]
    exact and_not32_low (k := 12) (by omega) (by decide)
  have hused : u32 (16 * num + 260 + 4095) &&& not32 4095 = 4096 := by
    rw [u32_of_lt (by omega), show not32 4095 = not32 (2 ^ 12 - 1) from rfl,
      and_not32_low (k := 12) (by omega) (by decide)]
    omega
  refine ⟨hdesc, ?_⟩
  change u32 ((u32 (raw + 4095) &&& not32 4095) + (u32 (16 * num + 260 + 4095) &&& not32 4095)) = _
  rw [hdesc, hused, u32_of_lt (by omega)]

theorem Paging.behind_page {s : Paging D} {d v w f : ℕ} (h : v / 4096 = w / 4096) :
    s.Behind d v f ↔ s.Behind d w f := by
  obtain ⟨hpd, hpt⟩ := (same_page_iff v w).mpr h
  rw [Behind, Behind, hpd, hpt]

variable [Disk D] {h h' : Heap D} {cs : List Chunk} {reported pfn : ℕ} {q : Virtqueue}

theorem virtqueueInit_ok (hinv : h.Inv cs)
    (hrun : virtqueueInit h reported = .ok (h', some (q, pfn))) :
    ∃ h1 raw, h.kmalloc (ringBytes (queueSizeOf reported) + 4096) = .ok (h1, raw) ∧ h1.Sound ∧
      ringStart cs (queueSizeOf reported) + 4096 < h1.heapMappedEnd ∧ h'.paging = h1.paging ∧
      q.layout.desc = ringStart cs (queueSizeOf reported) ∧
      q.layout.used = ringStart cs (queueSizeOf reported) + 4096 ∧
      pfn = h1.paging.pagingVirtToPhys (ringStart cs (queueSizeOf reported)) >>> 12 := by
  have hnum := (queueSizeOf_bounds reported).2
  have hsize : virtqueueSize = 128 := rfl
  have hlayout := heap_layout
  have hbytes := ringBytes_eq (queueSizeOf reported)
  simp only [virtqueueInit] at hrun
  generalize queueSizeOf reported = num at hrun hnum hbytes ⊢
  rcases hk : h.kmalloc (ringBytes num + 4096) with e | ⟨h1, raw⟩ <;> simp only [hk] at hrun
  · cases hrun
  split_ifs at hrun with h0
  · cases hrun
  obtain ⟨rfl, hout⟩ := ok_pair hrun
  obtain ⟨rfl, rfl⟩ := Prod.mk.inj (Option.some.inj hout)
  obtain ⟨hinv1, hraw⟩ := hinv.kmalloc_place (by omega) (by omega) hk h0
  rcases Heap.Sound.kmalloc ⟨cs, hinv⟩ (by omega) hk with ⟨hnull, -⟩ | ⟨-, hsound, k, hle, htook⟩
  · exact absurd hnull h0
  obtain ⟨-, hin, hmax⟩ := hsound.live_mapped htook.mem
  have hround : (ringBytes num + 4096 + 3) / 4 * 4 = ringBytes num + 4096 := by omega
  rw [hround] at hraw
  have hstart : ringStart cs num = (raw + 4095) / 4096 * 4096 := by rw [ringStart, ← hraw]
  obtain ⟨hdesc, hused⟩ := ringLayout_pages hnum (show raw < 3254779904 by omega)
  rw [hstart]
  exact ⟨h1, raw, rfl, hsound, by omega, rfl, hdesc, hused, by rw [← hdesc]⟩

/-- Where no page is evicted the frames of both pages are known before the call. -/
theorem Unevicted.contiguous_iff {ex : ℕ → ℕ → Prop} {live : List ℕ} {own : ℕ → Role}
    (hsup : Unevicted h (ringBytes (queueSizeOf reported) + 4096)) (hinv : h.Inv cs)
    (hs : h.paging.PageInvOn ex live own) (hcur : h.paging.currentPd ∈ live)
    (hrun : virtqueueInit h reported = .ok (h', some (q, pfn))) : q.Contiguous h'.paging pfn ↔
      ∃ f, h.FrameFor (ringStart cs (queueSizeOf reported)) f ∧
        h.FrameFor (ringStart cs (queueSizeOf reported) + 4096) (f + 1) := by
  obtain ⟨h₁, raw, hk, hsound, hend, hpaging, hdesc, hused, hpfn⟩ := virtqueueInit_ok hinv hrun
  have hnum := (queueSizeOf_bounds reported).2
  have hwant : ringBytes (queueSizeOf reported) + 4096 ≤ heapSize := by
    have hsize : virtqueueSize = 128 := rfl
    have hlayout := heap_layout
    rw [ringBytes_eq]
    omega
  have halign : ringStart cs (queueSizeOf reported) % 4096 = 0 := Nat.mul_mod_left _ _
  have hlo : heapStart ≤ ringStart cs (queueSizeOf reported) := by
    have hlayout := heap_layout
    rw [ringStart]
    omega
  generalize ringStart cs (queueSizeOf reported) = page at *
  have hframe : ∀ v, v % 4096 = 0 → heapStart ≤ v → v < h₁.heapMappedEnd → ∀ f,
      (h₁.paging.Behind h₁.paging.currentPd v f ↔ h.FrameFor v f) := fun v hv hlov hhi f =>
    hinv.frame_iff hs hcur hwant hsup hk hsound hv hlov hhi
  have hfirst := hframe page halign hlo (by omega)
  have hsecond := hframe (page + 4096) (by omega) (by omega) hend
  have hbytes : vringUsedBytes = 1028 := rfl
  rw [Virtqueue.Contiguous, hpaging, hdesc, hused]
  constructor
  · intro hall
    have h1 := hall page le_rfl (by omega)
    have h2 := hall (page + 4096) (by omega) (by omega)
    rw [Nat.sub_self, Nat.add_zero] at h1
    rw [show (page + 4096) / 4096 - page / 4096 = 1 by omega] at h2
    exact ⟨pfn, (hfirst pfn).mp h1, (hsecond _).mp h2⟩
  · rintro ⟨f, h1, h2⟩
    rw [← hfirst] at h1
    rw [← hsecond] at h2
    have hpfn' : pfn = f := by
      rw [hpfn, Paging.pagingVirtToPhys_eq, if_pos h1.1, h1.2, halign, Nat.shiftRight_eq_div_pow]
      omega
    subst hpfn'
    intro v hv hvend
    rcases lt_or_ge v (page + 4096) with hlt | hge
    · rw [show v / 4096 - page / 4096 = 0 by omega]
      exact (Paging.behind_page (by omega)).mpr h1
    · rw [show v / 4096 - page / 4096 = 1 by omega]
      exact (Paging.behind_page (by omega)).mpr h2

/-- **Contiguous rings**: the page frame number describes the rings if no page is evicted for them
and the page behind that of the descriptors has the next frame, or will get it. Where no page is
evicted, this is needed too. -/
theorem ring_contiguous_iff {ex : ℕ → ℕ → Prop} {live : List ℕ} {own : ℕ → Role} (hinv : h.Inv cs)
    (hs : h.paging.PageInvOn ex live own) (hcur : h.paging.currentPd ∈ live)
    (hrun : virtqueueInit h reported = .ok (h', some (q, pfn))) :
    (Unevicted h (ringBytes (queueSizeOf reported) + 4096) ∧
        (∃ f, h.FrameFor (ringStart cs (queueSizeOf reported)) f ∧
          h.FrameFor (ringStart cs (queueSizeOf reported) + 4096) (f + 1)) →
      q.Contiguous h'.paging pfn) ∧
    (Unevicted h (ringBytes (queueSizeOf reported) + 4096) ∧ q.Contiguous h'.paging pfn →
      ∃ f, h.FrameFor (ringStart cs (queueSizeOf reported)) f ∧
        h.FrameFor (ringStart cs (queueSizeOf reported) + 4096) (f + 1)) := by
  constructor
  · rintro ⟨hsup, hframes⟩
    exact (hsup.contiguous_iff hinv hs hcur hrun).mpr hframes
  · rintro ⟨hsup, hall⟩
    exact (hsup.contiguous_iff hinv hs hcur hrun).mp hall

theorem bareHeap_rings :
    ((bareHeap 160).bind fun h => (virtqueueInit h 128).toOption.bind fun out => out.2.map fun _ =>
        ((pmmAllocFrame (h.paging.pmm.after (1 + h.paging.newTables heapStart 1))).2,
          (pmmAllocFrame (h.paging.pmm.after (2 + h.paging.newTables heapStart 2))).2)) =
      some (0x103000, 0x104000) := by
  decide +kernel

/-- The first queue of a machine: the page table of the heap is not between the two pages. -/
theorem ring_contiguous_iff_first :
    ∃ (h h' : Heap DiskImage) (q : Virtqueue) (pfn : ℕ), KernelStart h ∧ h.Inv [] ∧
      Unevicted h (ringBytes (queueSizeOf 128) + 4096) ∧
      virtqueueInit h 128 = .ok (h', some (q, pfn)) ∧ q.Contiguous h'.paging pfn := by
  have hrun := bareHeap_rings
  simp only [Option.bind_eq_some_iff, Option.map_eq_some_iff] at hrun
  obtain ⟨h, hh, ⟨h', r⟩, hinit, ⟨q, pfn⟩, rfl, hvals⟩ := hrun
  obtain ⟨hfirst, hsecond⟩ := Prod.mk.inj hvals
  obtain ⟨hstart, hport⟩ := bareHeap_start hh (n := 39) (by decide +kernel)
  obtain ⟨h0, allocs, hboot, hheap⟩ := hstart
  obtain ⟨-, hm⟩ := hheap.memInv hboot
  obtain ⟨own, hs⟩ := hm.pages
  have hsup : Unevicted h (ringBytes (queueSizeOf 128) + 4096) := .inr (.inl hport)
  have hinit := ok_of_toOption hinit
  obtain ⟨p, -, hp⟩ := Option.bind_eq_some_iff.mp hh
  obtain ⟨s, -, rfl⟩ := Option.map_eq_some_iff.mp hp
  have hinv := Heap.inv_heapInit (Heap.boot s)
  -- no page is mapped yet
  have hframe : ∀ n f, (pmmAllocFrame (s.pmm.after (n + s.newTables heapStart n))).2 = f * 4096 →
      (Heap.boot s).heapInit.FrameFor (heapStart + n * 4096) f := by
    intro n f hf
    rw [Heap.FrameFor, show (Heap.boot s).heapInit.heapMappedEnd = heapStart from rfl,
      if_neg (Nat.not_lt.mpr (Nat.le_add_right heapStart _)), Nat.add_sub_cancel_left,
      frame_div]
    exact hf
  refine ⟨_, h', q, pfn, ⟨h0, allocs, hboot, hheap⟩, hinv, hsup, hinit,
    (ring_contiguous_iff hinv hs hm.current hinit).1 ⟨hsup, 0x103, ?_, ?_⟩⟩
  · exact hframe 1 _ hfirst
  · exact hframe 2 _ hsecond

theorem bareHeap_hole : ((bareHeap 160).bind fun h =>
      ((⟨h, h.paging.currentPd, [], []⟩ : Kernel DiskImage).exec
      (.kmalloc 8)).toOption.bind fun a1 =>
        (a1.exec .pmmAlloc).toOption.bind fun a2 => (a2.exec .pmmAlloc).toOption.bind fun a3 =>
          (a3.exec (.pmmFree 0x103000)).toOption.bind fun a4 =>
            (virtqueueInit a4.heap 128).toOption.bind fun out => out.2.map fun r =>
              [r.1.layout.desc, r.1.layout.used, r.2,
                out.1.paging.pagingVirtToPhys r.1.layout.used]) =
      some [0xC1001000, 0xC1002000, 0x103, 0x105000] := by
  decide +kernel

/-- Two frames are allocated and the first is freed again: the rings get the frames 0x103 and
0x105. -/
theorem rings_not_contiguous :
    ∃ (h : Heap DiskImage) (a : Kernel DiskImage) (h' : Heap DiskImage) (q : Virtqueue) (pfn : ℕ),
      KernelStart h ∧ CallRun (fun _ _ => True) ⟨h, h.paging.currentPd, [], []⟩ a ∧
      virtqueueInit a.heap 128 = .ok (h', some (q, pfn)) ∧ ¬ q.Contiguous h'.paging pfn := by
  have hrun := bareHeap_hole
  simp only [Option.bind_eq_some_iff, Option.map_eq_some_iff] at hrun
  obtain ⟨h, hh, a1, h1, a2, h2, a3, h3, a4, h4, ⟨h', r⟩, hinit, ⟨q, pfn⟩, rfl, hvals⟩ := hrun
  simp only [List.cons.injEq, and_true] at hvals
  obtain ⟨hdesc, hused, rfl, hphys⟩ := hvals
  refine ⟨h, a4, h', q, 0x103, (bareHeap_start hh (n := 39) (by decide +kernel)).1, ?_,
    ok_of_toOption hinit, fun hall => ?_⟩
  · exact (((CallRun.start.call trivial (ok_of_toOption h1)).call trivial (ok_of_toOption h2)).call
      trivial (ok_of_toOption h3)).call trivial (ok_of_toOption h4)
  · have hsecond := hall q.layout.used (by omega) (Nat.lt_add_of_pos_right (by decide))
    rw [Paging.pagingVirtToPhys_eq, if_pos hsecond.1, hsecond.2, hdesc, hused] at hphys
    exact absurd hphys (by decide)

end PenOS
