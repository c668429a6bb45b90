import PenOS.HeapInv

/-!
# Every run of the heap

The runs of `kmalloc` and `kfree` from `heap_init`, with clients writing to the memory they were
given. The list of live allocations is part of a run, not of the heap.
-/

namespace PenOS

open List

open Block RecMem

variable {D : Type} [Disk D]
variable {b k n : ℕ} {c : Chunk} {xs ys : List Chunk}

/-- The states reached by calls of `kmalloc` and `kfree`, with the live allocations. Calls that stop
the kernel have no successor. -/
inductive HeapReach : List (ℕ × ℕ) → Heap D → Prop where
  /-- `heap_init` -/
  | init (h : Heap D) : HeapReach [] h.heapInit
  /-- `kmalloc` of at most `HEAP_SIZE` bytes -/
  | malloc {live : List (ℕ × ℕ)} {h h' : Heap D} {want p : ℕ} : HeapReach live h →
      want ≤ heapSize → h.kmalloc want = .ok (h', p) →
      HeapReach (if p = 0 then live else (p, want) :: live) h'
  /-- `kfree(NULL)` -/
  | freeNull {live : List (ℕ × ℕ)} {h h' : Heap D} : HeapReach live h →
      h.kfree 0 = .ok h' → HeapReach live h'
  /-- `kfree` of a live pointer -/
  | free {live : List (ℕ × ℕ)} {h h' : Heap D} {u : ℕ × ℕ} : HeapReach live h → u ∈ live →
      h.kfree u.1 = .ok h' → HeapReach (live.erase u) h'
  /-- clients write to their allocations -/
  | client {live : List (ℕ × ℕ)} {h : Heap D} (bytes : Mem) : HeapReach live h →
      (∀ x, (∀ u ∈ live, x < u.1 ∨ u.1 + u.2 ≤ x) → bytes x = h.window.bytes x) →
      HeapReach live { h with window := { h.window with bytes := bytes } }

/-- The heap holds the blocks `cs`, and every live allocation is the payload of a
used block of its own. -/
structure HeapState (live : List (ℕ × ℕ)) (h : Heap D) (cs : List Chunk) : Prop where
  inv : h.Inv cs
  live_used : ∀ u ∈ live, ∃ k, u.2 ≤ k ∧ (u.1, k) ∈ usedAt heapStart cs
  live_nodup : (live.map Prod.fst).Nodup

variable {live : List (ℕ × ℕ)} {h h' : Heap D} {cs : List Chunk} {want p : ℕ}

/-! ## The two calls on a heap state -/

omit [Disk D] in
theorem exists_first_fit (cs : List Chunk) (want : ℕ) :
    (∃ xs c ys, cs = xs ++ c :: ys ∧ (∀ d ∈ xs, ¬ d.Serves ((want + 3) / 4 * 4)) ∧
      c.Serves ((want + 3) / 4 * 4)) ∨ Heap.NoFit cs want := by
  induction cs with
  | nil => exact .inr fun d hd => absurd hd not_mem_nil
  | cons c cs ih =>
    by_cases hc : c.Serves ((want + 3) / 4 * 4)
    · exact .inl ⟨[], c, cs, rfl, fun d hd => absurd hd not_mem_nil, hc⟩
    · rcases ih with ⟨xs, d, ys, rfl, hxs, hd⟩ | hno
      · exact .inl ⟨c :: xs, d, ys, rfl, forall_mem_cons.mpr ⟨hc, hxs⟩, hd⟩
      · exact .inr (forall_mem_cons.mpr ⟨hc, hno⟩)

/-- The payload `p` of at least `want` bytes is in use after the call, with those in use before,
which were not written to. -/
structure Allocated (h h' : Heap D) (cs ds : List Chunk) (p want : ℕ) : Prop where
  inv : h'.Inv ds
  nonnull : p ≠ 0
  used : ∃ us vs k, want ≤ k ∧ usedAt heapStart cs = us ++ vs ∧
    usedAt heapStart ds = us ++ (p, k) :: vs
  confined : Confined (fun x => ¬ InUsed heapStart cs x) h.window h'.window

theorem Heap.Inv.kmalloc_ok (hinv : h.Inv cs) (hwant : want ≤ heapSize)
    (hrun : h.kmalloc want = .ok (h', p)) : p = 0 ∧ h' = h ∨ ∃ ds, Allocated h h' cs ds p want := by
  by_cases hpos : 0 < want
  · rcases exists_first_fit cs want with ⟨xs, c, ys, rfl, hxs, hc⟩ | hno
    · obtain ⟨h1, ds, k, hrun1, hinv1, hk, hused, hconf, -⟩ :=
        hinv.kmalloc_of_fit hpos hwant hxs hc
      obtain ⟨rfl, rfl⟩ := ok_pair (hrun1.symm.trans hrun)
      refine .inr ⟨ds, hinv1, by omega, ⟨_, _, k, hk, ?_, hused⟩, hconf⟩
      rw [usedAt_append, usedAt_cons_free _ _ hc.1]
    · by_cases hroom : span cs + 16 + (want + 3) / 4 * 4 ≤ 16777216
      · rcases hinv.kmalloc_of_room hpos hwant hno hroom with
          ⟨h1, hrun1, hinv1, hconf⟩ | ⟨-, herr | herr⟩
        · obtain ⟨rfl, rfl⟩ := ok_pair (hrun1.symm.trans hrun)
          refine .inr ⟨_, hinv1, by omega, ⟨usedAt heapStart cs, [], (want + 3) / 4 * 4, by omega,
            (append_nil _).symm, ?_⟩, hconf⟩
          rw [usedAt_append, usedAt_cons_used _ _ rfl, hinv.curr]
          rfl
        · rw [herr] at hrun
          cases hrun
        · rw [herr] at hrun
          cases hrun
      · rw [hinv.kmalloc_of_full hpos hwant hno (by omega)] at hrun
        cases hrun
        exact .inl ⟨rfl, rfl⟩
  · obtain rfl : want = 0 := by omega
    unfold kmalloc at hrun
    cases hrun
    exact .inl ⟨rfl, rfl⟩

omit [Disk D] in
/-- `kfree` of a payload in use. -/
theorem Heap.Inv.kfree_used (hinv : h.Inv cs) (hu : (p, k) ∈ usedAt heapStart cs) :
    ∃ h' ds, h.kfree p = .ok h' ∧ h'.Inv ds ∧
      (∀ v, v ∈ usedAt heapStart ds ↔ v ∈ usedAt heapStart cs ∧ v ≠ (p, k)) ∧
      Confined (InHeader heapStart cs) h.window h'.window := by
  obtain ⟨xs, c, ys, rfl, hc, hpk⟩ := exists_of_mem_usedAt hu
  cases hpk
  obtain ⟨h', ds, hrun, hinv', hused, hconf, -⟩ := hinv.kfree hc
  refine ⟨h', ds, hrun, hinv', fun v => ?_, hconf⟩
  have hapart := usedAt_pairwise heapStart (xs ++ c :: ys)
  rw [usedAt_append, usedAt_cons_used _ _ hc, pairwise_append] at hapart
  obtain ⟨-, hright, hcross⟩ := hapart
  rw [hused, usedAt_append, usedAt_cons_used _ _ hc]
  simp only [mem_append, mem_cons]
  constructor
  · rintro (hv | hv)
    · refine ⟨.inl hv, ?_⟩
      rintro rfl
      have := hcross _ hv _ mem_cons_self
      omega
    · refine ⟨.inr (.inr hv), ?_⟩
      rintro rfl
      have := (pairwise_cons.mp hright).1 _ hv
      omega
  · rintro ⟨hv | hv | hv, hne⟩
    · exact .inl hv
    · exact absurd hv hne
    · exact .inr hv

/-! ## Step and run -/

theorem HeapState.malloc (hs : HeapState live h cs) (hwant : want ≤ heapSize)
    (hrun : h.kmalloc want = .ok (h', p)) :
    ∃ ds, HeapState (if p = 0 then live else (p, want) :: live) h' ds := by
  rcases hs.inv.kmalloc_ok hwant hrun with ⟨rfl, rfl⟩ | ⟨ds, hinv, hp, ⟨us, vs, k, hk, hcs, hds⟩, -⟩
  · exact ⟨cs, hs⟩
  rw [if_neg hp]
  refine ⟨ds, hinv, forall_mem_cons.mpr ⟨⟨k, hk, by simp [hds]⟩, fun u hu => ?_⟩, ?_⟩
  · obtain ⟨j, hj, hmem⟩ := hs.live_used u hu
    rw [hcs] at hmem
    refine ⟨j, hj, ?_⟩
    rw [hds]
    rcases mem_append.mp hmem with hm | hm
    · exact mem_append_left _ hm
    · exact mem_append_right _ (mem_cons_of_mem _ hm)
  · rw [map_cons, nodup_cons]
    refine ⟨fun hmem => ?_, hs.live_nodup⟩
    -- an older allocation at `p` would be in use besides the new one
    obtain ⟨u, hu, rfl⟩ := mem_map.mp hmem
    obtain ⟨j, -, hj⟩ := hs.live_used u hu
    have hpw := usedAt_pairwise heapStart ds
    rw [hds, pairwise_append] at hpw
    obtain ⟨-, hright, hcross⟩ := hpw
    rw [hcs] at hj
    rcases mem_append.mp hj with hm | hm
    · have := hcross _ hm _ mem_cons_self
      omega
    · have := (pairwise_cons.mp hright).1 _ hm
      omega

omit [Disk D] in
theorem HeapState.free {u : ℕ × ℕ} (hs : HeapState live h cs) (hu : u ∈ live)
    (hrun : h.kfree u.1 = .ok h') : ∃ ds, HeapState (live.erase u) h' ds := by
  obtain ⟨k, -, hmem⟩ := hs.live_used u hu
  obtain ⟨h1, ds, hrun1, hinv, hused, -⟩ := hs.inv.kfree_used hmem
  obtain rfl := Except.ok.inj (hrun1.symm.trans hrun)
  have hnodup : live.Nodup := hs.live_nodup.of_map
  refine ⟨ds, hinv, fun v hv => ?_, hs.live_nodup.sublist (erase_sublist.map _)⟩
  obtain ⟨hne, hv⟩ := hnodup.mem_erase_iff.mp hv
  obtain ⟨j, hj, hvm⟩ := hs.live_used v hv
  refine ⟨j, hj, (hused _).mpr ⟨hvm, fun heq => hne ?_⟩⟩
  exact inj_on_of_nodup_map hs.live_nodup hv hu (Prod.mk.inj heq).1

omit [Disk D] in
theorem HeapState.client (hs : HeapState live h cs) {bytes : Mem}
    (hbytes : ∀ x, (∀ u ∈ live, x < u.1 ∨ u.1 + u.2 ≤ x) → bytes x = h.window.bytes x) :
    HeapState live { h with window := { h.window with bytes := bytes } } cs := by
  refine ⟨⟨hs.inv.head, hs.inv.chain.congr fun x hx => hbytes x fun u hu => ?_, hs.inv.curr,
    hs.inv.sizes, hs.inv.settled, hs.inv.fits, hs.inv.mapped⟩, hs.live_used, hs.live_nodup⟩
  obtain ⟨k, hk, hmem⟩ := hs.live_used u hu
  by_contra hc
  exact hx.not_inUsed ⟨_, hmem, by dsimp only; omega, by dsimp only; omega⟩

/-- The invariant holds along every run. -/
theorem HeapReach.state (hr : HeapReach live h) : ∃ cs, HeapState live h cs := by
  induction hr with
  | init h =>
    have hmapped : heapStart = (heapStart + 4095) / 4096 * 4096 := by decide
    exact ⟨[], ⟨rfl, trivial, rfl, fun c hc => absurd hc not_mem_nil, trivial, by simp,
      hmapped⟩, fun u hu => absurd hu not_mem_nil, nodup_nil⟩
  | malloc _ hwant hrun ih =>
    obtain ⟨cs, hs⟩ := ih
    exact hs.malloc hwant hrun
  | freeNull _ hrun ih =>
    cases hrun
    exact ih
  | free _ hu hrun ih =>
    obtain ⟨cs, hs⟩ := ih
    exact hs.free hu hrun
  | client bytes _ hbytes ih =>
    obtain ⟨cs, hs⟩ := ih
    exact ⟨cs, hs.client hbytes⟩

/-! ## What the headers say -/

omit [Disk D] in
/-- The blocks reached from `b` through `next`, until `NULL`. -/
def Linked (m : RecMem) : ℕ → List ℕ → Prop
  | b, [] => b = 0
  | b, a :: bs => b = a ∧ a ≠ 0 ∧ Linked m (next m a) bs

omit [Disk D] in
/-- The blocks `bs` lie end to end from `lo` to `hi`. -/
def Tiles (m : RecMem) (hi : ℕ) : ℕ → List ℕ → Prop
  | lo, [] => lo = hi
  | lo, a :: bs => a = lo ∧ Tiles m hi (a + blockOverhead + size m a) bs

section Headers

variable {m : RecMem} {a prev : ℕ}

omit [Disk D]

theorem Chain.linked (hc : Chain m.bytes 0 prev a cs) (ha : a ≠ 0) :
    Linked m (headPtr a 0 cs) (blockAddrs a cs) := by
  induction cs generalizing a prev with
  | nil => rfl
  | cons c cs ih =>
    refine ⟨rfl, ha, ?_⟩
    rw [hc.1.blockNext]
    exact ih hc.2 (by omega)

theorem Chain.tiles (hc : Chain m.bytes 0 prev a cs) :
    Tiles m (a + span cs) a (blockAddrs a cs) := by
  induction cs generalizing a prev with
  | nil => rfl
  | cons c cs ih =>
    refine ⟨rfl, ?_⟩
    rw [hc.1.blockSize, span_cons, show a + (16 + c.size + span cs) = a + 16 + c.size + span cs by
      omega]
    exact ih hc.2

/-- The list a pointer leads to is unique. -/
theorem Linked.unique {bs bs' : List ℕ} (hl : Linked m b bs) (hl' : Linked m b bs') : bs = bs' := by
  induction bs generalizing b bs' with
  | nil =>
    cases bs' with
    | nil => rfl
    | cons a' bs' => exact absurd (hl'.1.symm.trans hl) hl'.2.1
  | cons a bs ih =>
    cases bs' with
    | nil => exact absurd (hl.1.symm.trans hl') hl.2.1
    | cons a' bs' =>
      obtain rfl := hl.1.symm.trans hl'.1
      rw [ih hl.2.2 hl'.2.2]

end Headers

omit [Disk D] in
/-- The neighbours of a block, as its header gives them. -/
theorem Heap.Inv.neighbours (hinv : h.Inv cs) (hb : b ∈ blockAddrs heapStart cs) :
    (next h.window b ≠ 0 → next h.window b ∈ blockAddrs heapStart cs ∧
      next h.window b = b + blockOverhead + size h.window b ∧ prev h.window (next h.window b) = b ∧
      ¬ (free h.window b ≠ 0 ∧ free h.window (next h.window b) ≠ 0)) ∧
    (prev h.window b ≠ 0 → prev h.window b ∈ blockAddrs heapStart cs ∧
      next h.window (prev h.window b) = b) ∧ (prev h.window b = 0 → b = heapStart) ∧
    (next h.window b = 0 → free h.window b = 0) := by
  obtain ⟨xs, c, ys, rfl, rfl⟩ := mem_blockAddrs.mp hb
  obtain ⟨hleft, hhead, hright⟩ := chain_middle.mp hinv.chain
  obtain ⟨-, hfollow, -⟩ := settled_append.mp hinv.settled
  have hlayout := heap_layout
  refine ⟨fun hne => ?_, fun hne => ?_, fun heq => ?_, fun heq => ?_⟩
  · rw [hhead.blockNext] at hne ⊢
    cases ys with
    | nil => exact absurd rfl hne
    | cons d ds =>
      obtain ⟨hd, -⟩ := hright
      rw [headPtr_cons, hhead.blockSize, hhead.blockFree, hd.blockFree, hd.blockPrev]
      refine ⟨mem_blockAddrs.mpr ⟨xs ++ [c], d, ds, by simp, ?_⟩, rfl, rfl, fun hc => ?_⟩
      · simp only [span_append, span_cons, span_nil]
        omega
      · exact absurd (hfollow hc.1) (by simp [hc.2])
  · rw [hhead.blockPrev] at hne ⊢
    rcases eq_nil_or_concat xs with rfl | ⟨zs, p, rfl⟩
    · exact absurd rfl hne
    · rw [concat_eq_append] at hleft ⊢
      obtain ⟨-, hp, -⟩ := chain_middle.mp hleft
      rw [lastPtr_concat, hp.blockNext]
      exact ⟨mem_blockAddrs.mpr ⟨zs, p, c :: ys, by simp, rfl⟩, rfl⟩
  · rw [hhead.blockPrev] at heq
    rcases eq_nil_or_concat xs with rfl | ⟨zs, p, rfl⟩
    · rfl
    · rw [concat_eq_append, lastPtr_concat] at heq
      omega
  · rw [hhead.blockNext] at heq
    cases ys with
    | nil =>
      by_contra hfree
      exact absurd (hfollow (hhead.blockFree.mp hfree)) (by simp)
    | cons d ds =>
      rw [headPtr_cons] at heq
      omega

/-- **The heap invariant**: in every run the blocks from `heap_head` on tile the window, linked both
ways, with sizes that are positive multiples of four; no two consecutive ones are free, the last one
is used, and the window is mapped up to the page end behind it. -/
theorem heap_blocks_tile_window (hr : HeapReach live h) :
    ∃ bs : List ℕ, Linked h.window h.heapHead bs ∧ Tiles h.window h.heapCurr heapStart bs ∧
      (∀ b ∈ bs, next h.window b ≠ 0 → next h.window b ∈ bs ∧
        next h.window b = b + blockOverhead + size h.window b ∧
        prev h.window (next h.window b) = b ∧
        ¬ (free h.window b ≠ 0 ∧ free h.window (next h.window b) ≠ 0)) ∧
      (∀ b ∈ bs, prev h.window b ≠ 0 → prev h.window b ∈ bs ∧ next h.window (prev h.window b) = b) ∧
      (∀ b ∈ bs, prev h.window b = 0 → b = h.heapHead) ∧
      (∀ b ∈ bs, next h.window b = 0 → free h.window b = 0) ∧
      (∀ b ∈ bs, 0 < size h.window b ∧ size h.window b % 4 = 0) ∧
      h.heapMappedEnd = alignUp h.heapCurr 4096 ∧ h.heapMappedEnd ≤ heapEnd := by
  obtain ⟨cs, hs⟩ := hr.state
  have hinv := hs.inv
  have hlayout := heap_layout
  have hcurr := hinv.curr
  have hmapped := hinv.mapped
  have hfits := hinv.fits
  refine ⟨blockAddrs heapStart cs, ?_, ?_, fun b hb => (hinv.neighbours hb).1,
    fun b hb => (hinv.neighbours hb).2.1, fun b hb hp => ?_,
    fun b hb => (hinv.neighbours hb).2.2.2, fun b hb => ?_, ?_, by omega⟩
  · rw [hinv.head]
    exact hinv.chain.linked (by decide)
  · rw [hcurr]
    exact hinv.chain.tiles
  · rw [(hinv.neighbours hb).2.2.1 hp, hinv.head]
    cases cs with
    | nil => exact absurd hb not_mem_nil
    | cons c cs => rfl
  · obtain ⟨xs, c, ys, rfl, rfl⟩ := mem_blockAddrs.mp hb
    obtain ⟨-, hhead, -⟩ := chain_middle.mp hinv.chain
    rw [hhead.blockSize]
    exact hinv.sizes c (by simp)
  · rw [alignUp_page (by omega)]
    exact hmapped

/-- The heap of a machine with 16 frames behind the first MiB, after `heap_init`. -/
def smallHeap : Option (Heap DiskImage) :=
  (pmmInit 1 0 (some ⟨1024, 64, 0, fun _ => ⟨0, 0, 0, 0⟩⟩)).bind fun p =>
    (Paging.boot p (fun _ => 0) (fun _ _ _ => 0) : Paging DiskImage).initDirectory.toOption.map
      fun s => (Heap.boot s).heapInit

theorem smallHeap_reach {h : Heap DiskImage} (hh : smallHeap = some h) : HeapReach [] h := by
  obtain ⟨p, -, hp⟩ := Option.bind_eq_some_iff.mp hh
  obtain ⟨s, -, rfl⟩ := Option.map_eq_some_iff.mp hp
  exact HeapReach.init (Heap.boot s)

/-- The same heap after `kmalloc(8)`: the window has a table now, which every directory made
from here on shares. -/
def warmHeap : Option (Heap DiskImage) :=
  smallHeap.bind fun h => (h.kmalloc 8).toOption.map Prod.fst

theorem warmHeap_malloc {h : Heap DiskImage} (hh : warmHeap = some h) :
    ∃ h₀, smallHeap = some h₀ ∧ h₀.kmalloc 8 = .ok (h, 0xC1000010) := by
  have hptr : (smallHeap.bind fun h => (h.kmalloc 8).toOption.map Prod.snd) =
      some 0xC1000010 := by decide +kernel
  obtain ⟨h₀, hsmall, hrun⟩ := Option.bind_eq_some_iff.mp hh
  obtain ⟨⟨h', p⟩, hkmalloc, rfl⟩ := Option.map_eq_some_iff.mp hrun
  rw [hsmall, Option.bind_some, hkmalloc] at hptr
  obtain rfl : p = 0xC1000010 := Option.some.inj hptr
  exact ⟨h₀, hsmall, ok_of_toOption hkmalloc⟩

theorem warmHeap_reach {h : Heap DiskImage} (hh : warmHeap = some h) :
    HeapReach [(0xC1000010, 8)] h := by
  obtain ⟨h₀, hsmall, hrun⟩ := warmHeap_malloc hh
  exact (smallHeap_reach hsmall).malloc (by decide) hrun

/-- Three blocks, of which the middle one has been freed; a request of 100 bytes goes there. -/
theorem exists_gap : ∃ h h' : Heap DiskImage, HeapReach [(0xC1000100, 8), (0xC1000010, 8)] h ∧
      free h.window 0xC1000018 = 1 ∧ h.kmalloc 100 = .ok (h', 0xC1000028) := by
  have hrun : (warmHeap.bind fun h => (h.kmalloc 200).toOption.bind fun r1 =>
      (r1.1.kmalloc 8).toOption.bind fun r2 => (r2.1.kfree 0xC1000028).toOption.bind fun h3 =>
        (h3.kmalloc 100).toOption.map fun r4 => (r1.2, r2.2, free h3.window 0xC1000018, r4.2)) =
      some (0xC1000028, 0xC1000100, 1, 0xC1000028) := by decide +kernel
  simp only [Option.bind_eq_some_iff, Option.map_eq_some_iff] at hrun
  obtain ⟨h, hh, ⟨h1, p1⟩, hrun1, ⟨h2, p2⟩, hrun2, h3, hrun3, ⟨h4, p4⟩, hrun4, hvals⟩ := hrun
  simp only [Prod.mk.injEq] at hvals
  obtain ⟨rfl, rfl, hfree, rfl⟩ := hvals
  have hr1 : HeapReach [(0xC1000028, 200), (0xC1000010, 8)] h1 :=
    (warmHeap_reach hh).malloc (by decide) (ok_of_toOption hrun1)
  have hr2 : HeapReach [(0xC1000100, 8), (0xC1000028, 200), (0xC1000010, 8)] h2 :=
    hr1.malloc (by decide) (ok_of_toOption hrun2)
  exact ⟨h3, h4, hr2.free (u := (0xC1000028, 200)) (by simp) (ok_of_toOption hrun3), hfree,
    ok_of_toOption hrun4⟩

theorem heap_blocks_tile_window_gap : ∃ h : Heap DiskImage,
      HeapReach [(0xC1000100, 8), (0xC1000010, 8)] h ∧ free h.window 0xC1000018 = 1 ∧
      ∃ bs, Linked h.window h.heapHead bs ∧ Tiles h.window h.heapCurr heapStart bs := by
  obtain ⟨h, -, hr, hfree, -⟩ := exists_gap
  obtain ⟨bs, hlinked, htiles, -⟩ := heap_blocks_tile_window hr
  exact ⟨h, hr, hfree, bs, hlinked, htiles⟩

/-! ## Exclusive use -/

section

omit [Disk D]

/-- `b` is the lowest of the blocks `bs` that is free and has at least `n` bytes. -/
def FirstFit (m : RecMem) (bs : List ℕ) (n b : ℕ) : Prop :=
  b ∈ bs ∧ free m b ≠ 0 ∧ n ≤ size m b ∧ ∀ b' ∈ bs, free m b' ≠ 0 → n ≤ size m b' → b ≤ b'

/-- The end of the payload at `p`, by the header in front of it. -/
def payloadEnd (m : RecMem) (p : ℕ) : ℕ := p + size m (p - blockOverhead)

/-- Nothing was written to the payloads of `live` on the way from `h` to `h'`. -/
structure WritesApart (h h' : Heap D) (live : List (ℕ × ℕ)) : Prop where
  log : ∃ ws, h'.window.writes = ws ++ h.window.writes ∧
    ∀ w ∈ ws, ∀ x, w.1 ≤ x → x < w.1 + w.2 → ∀ u ∈ live, x < u.1 ∨ payloadEnd h.window u.1 ≤ x
  bytes_eq : ∀ u ∈ live, ∀ x, u.1 ≤ x → x < payloadEnd h.window u.1 →
    h'.window.bytes x = h.window.bytes x

theorem Heap.Inv.payloadEnd_used (hinv : h.Inv cs) (hu : (p, k) ∈ usedAt heapStart cs) :
    size h.window (p - blockOverhead) = k := by
  obtain ⟨xs, c, ys, rfl, -, heq⟩ := exists_of_mem_usedAt hu
  cases heq
  obtain ⟨-, hhead, -⟩ := chain_middle.mp hinv.chain
  rw [show heapStart + span xs + 16 - blockOverhead = heapStart + span xs from
    Nat.add_sub_cancel _ 16]
  exact hhead.blockSize

theorem HeapState.writesApart (hs : HeapState live h cs)
    (hconf : Confined (fun x => ¬ InUsed heapStart cs x) h.window h'.window)
    {l : List (ℕ × ℕ)} (hl : ∀ u ∈ l, u ∈ live) : WritesApart h h' l := by
  obtain ⟨⟨ws, hws, hP⟩, hbytes⟩ := hconf
  have hend : ∀ u ∈ l, (u.1, size h.window (u.1 - blockOverhead)) ∈ usedAt heapStart cs := by
    intro u hu
    obtain ⟨k, -, hmem⟩ := hs.live_used u (hl u hu)
    rwa [hs.inv.payloadEnd_used hmem]
  refine ⟨⟨ws, hws, fun w hw x h1 h2 u hu => ?_⟩, fun u hu x h1 h2 => hbytes x ?_⟩
  · by_contra hc
    unfold payloadEnd at hc
    exact hP w hw x h1 h2 ⟨_, hend u hu, by dsimp only; omega, by dsimp only; omega⟩
  · exact fun hx => hx ⟨_, hend u hu, h1, h2⟩

theorem span_le_of_first_fit {xs' ys' : List Chunk} {c' : Chunk}
    (heq : xs ++ c :: ys = xs' ++ c' :: ys') (hxs : ∀ d ∈ xs, ¬ d.Serves n) (hc' : c'.Serves n) :
    span xs ≤ span xs' := by
  induction xs generalizing xs' with
  | nil => exact Nat.zero_le _
  | cons e es ih =>
    cases xs' with
    | nil =>
      obtain ⟨rfl, -⟩ := cons_eq_cons.mp heq
      exact absurd hc' (hxs _ mem_cons_self)
    | cons e' es' =>
      obtain ⟨rfl, htail⟩ := cons_eq_cons.mp heq
      have := ih htail fun d hd => hxs d (mem_cons_of_mem _ hd)
      simp only [span_cons]
      omega

theorem Heap.Inv.serves_iff (hinv : h.Inv cs) (hcs : cs = xs ++ c :: ys) : c.Serves n ↔
      free h.window (heapStart + span xs) ≠ 0 ∧ n ≤ size h.window (heapStart + span xs) := by
  subst hcs
  obtain ⟨-, hhead, -⟩ := chain_middle.mp hinv.chain
  rw [hhead.blockFree, hhead.blockSize]
  rfl

theorem Heap.Inv.firstFit_iff (hinv : h.Inv cs)
    (hcs : cs = xs ++ c :: ys) (hxs : ∀ d ∈ xs, ¬ d.Serves n) (hc : c.Serves n) (b : ℕ) :
    FirstFit h.window (blockAddrs heapStart cs) n b ↔ b = heapStart + span xs := by
  have hle : ∀ b' ∈ blockAddrs heapStart cs, free h.window b' ≠ 0 → n ≤ size h.window b' →
      heapStart + span xs ≤ b' := by
    intro b' hb' hfree hsize
    obtain ⟨xs', c', ys', hcs', rfl⟩ := mem_blockAddrs.mp hb'
    have := span_le_of_first_fit (hcs.symm.trans hcs') hxs
      ((hinv.serves_iff hcs').mpr ⟨hfree, hsize⟩)
    omega
  have hself := (hinv.serves_iff hcs).mp hc
  have hmem : heapStart + span xs ∈ blockAddrs heapStart cs :=
    mem_blockAddrs.mpr ⟨xs, c, ys, hcs, rfl⟩
  constructor
  · rintro ⟨hb, hfree, hsize, hleast⟩
    exact le_antisymm (hleast _ hmem hself.1 hself.2) (hle b hb hfree hsize)
  · rintro rfl
    exact ⟨hmem, hself.1, hself.2, hle⟩

theorem Heap.Inv.noFit_iff (hinv : h.Inv cs) (n : ℕ) :
    (∀ d ∈ cs, ¬ d.Serves n) ↔ ∀ b ∈ blockAddrs heapStart cs,
      ¬ (free h.window b ≠ 0 ∧ n ≤ size h.window b) := by
  constructor
  · intro hno b hb
    obtain ⟨xs, c, ys, hcs, rfl⟩ := mem_blockAddrs.mp hb
    rw [← hinv.serves_iff hcs]
    exact hno c (by simp [hcs])
  · intro hno d hd
    obtain ⟨xs, ys, hcs⟩ := append_of_mem hd
    rw [hinv.serves_iff hcs]
    exact hno _ (mem_blockAddrs.mpr ⟨xs, d, ys, hcs, rfl⟩)

/-- A payload in use is apart from every header. -/
theorem usedAt_apart_header (hu : (p, k) ∈ usedAt heapStart cs)
    (hb : b ∈ blockAddrs heapStart cs) : p + k ≤ b ∨ b + blockOverhead ≤ p := by
  have hlayout := heap_layout
  obtain ⟨xs, c, ys, rfl, rfl⟩ := mem_blockAddrs.mp hb
  rw [usedAt_append, mem_append] at hu
  rcases hu with hu | hu
  · have := usedAt_range hu
    omega
  · have := usedAt_range hu
    omega

end

/-- What a successful allocation returns. -/
theorem HeapState.kmalloc_apart (hs : HeapState live h cs) (hwant : want ≤ heapSize)
    (hrun : h.kmalloc want = .ok (h', p)) (hp : p ≠ 0) : p + want ≤ h'.heapMappedEnd ∧
    (∀ u ∈ live, p + want ≤ u.1 ∨ payloadEnd h.window u.1 ≤ p) ∧
    ∀ bs, Linked h'.window h'.heapHead bs → ∀ b ∈ bs, p + want ≤ b ∨ b + blockOverhead ≤ p := by
  rcases hs.inv.kmalloc_ok hwant hrun with ⟨rfl, -⟩ | ⟨ds, hinv, -, ⟨us, vs, k, hk, hcs, hds⟩, -⟩
  · exact absurd rfl hp
  have hmem : (p, k) ∈ usedAt heapStart ds := by simp [hds]
  refine ⟨?_, fun u hu => ?_, fun bs hbs b hb => ?_⟩
  · have hrange := usedAt_range hmem
    have hcurr := hinv.curr
    have hmapped := hinv.mapped
    omega
  · obtain ⟨j, -, hj⟩ := hs.live_used u hu
    unfold payloadEnd
    rw [hs.inv.payloadEnd_used hj]
    have hpw := usedAt_pairwise heapStart ds
    rw [hds, pairwise_append] at hpw
    rw [hcs] at hj
    rcases mem_append.mp hj with hm | hm
    · have := hpw.2.2 _ hm _ mem_cons_self
      omega
    · have := (pairwise_cons.mp hpw.2.1).1 _ hm
      omega
  · have hlinked := hinv.chain.linked (by decide)
    rw [← hinv.head] at hlinked
    rw [hbs.unique hlinked] at hb
    have := usedAt_apart_header hmem hb
    omega

/-- **First fit and exclusive use.** `kmalloc` returns the payload of the lowest free block that is
large enough; if there is none, a new block when it fits (or the kernel stops for want of frames);
otherwise `NULL`. The range is mapped and apart from every live payload and header. -/
theorem kmalloc_first_fit_exclusive (hr : HeapReach live h) : ∃ bs, Linked h.window h.heapHead bs ∧
      (∀ want, 0 < want → want ≤ heapSize → (∀ b, FirstFit h.window bs (alignUp want 4) b →
          ∃ h', h.kmalloc want = .ok (h', b + blockOverhead)) ∧
        ((∀ b, ¬ FirstFit h.window bs (alignUp want 4) b) →
          h.heapCurr + blockOverhead + alignUp want 4 ≤ heapEnd →
          (∃ h', h.kmalloc want = .ok (h', h.heapCurr + blockOverhead)) ∨
            h.kmalloc want = .error .outOfFrames ∨ h.kmalloc want = .error .pmmExhausted) ∧
        ((∀ b, ¬ FirstFit h.window bs (alignUp want 4) b) →
          heapEnd < h.heapCurr + blockOverhead + alignUp want 4 → h.kmalloc want = .ok (h, 0)) ∧
        ∀ h' p, h.kmalloc want = .ok (h', p) → p ≠ 0 → p + want ≤ h'.heapMappedEnd ∧
          (∀ u ∈ live, p + want ≤ u.1 ∨ payloadEnd h.window u.1 ≤ p) ∧
          ∀ bs', Linked h'.window h'.heapHead bs' →
            ∀ b ∈ bs', p + want ≤ b ∨ b + blockOverhead ≤ p) ∧
      (∀ want h' p, want ≤ heapSize → h.kmalloc want = .ok (h', p) → WritesApart h h' live) ∧
      ∀ u ∈ live, u.1 + u.2 ≤ payloadEnd h.window u.1 ∧
        ∃ h', h.kfree u.1 = .ok h' ∧ WritesApart h h' (live.erase u) := by
  obtain ⟨cs, hs⟩ := hr.state
  have hinv := hs.inv
  have hlayout := heap_layout
  have hcurr := hinv.curr
  refine ⟨blockAddrs heapStart cs, hinv.head ▸ hinv.chain.linked (by decide), ?_, ?_, ?_⟩
  · intro want hpos hwant
    rw [alignUp_four (by omega)]
    have hapart := fun h' p (hrun : h.kmalloc want = .ok (h', p)) hp =>
      hs.kmalloc_apart hwant hrun hp
    rcases exists_first_fit cs want with ⟨xs, c, ys, hcs, hxs, hc⟩ | hno
    · have hfit := hinv.firstFit_iff hcs hxs hc
      refine ⟨fun b hb => ?_, fun hnone => ?_, fun hnone => ?_, hapart⟩
      · subst hcs
        obtain ⟨h', ds, k, hrun, -⟩ := hinv.kmalloc_of_fit hpos hwant hxs hc
        rw [(hfit b).mp hb]
        exact ⟨h', hrun⟩
      · exact absurd ((hfit _).mpr rfl) (hnone _)
      · exact absurd ((hfit _).mpr rfl) (hnone _)
    · refine ⟨fun b hb => ?_, fun _ hroom => ?_, fun _ hfull => ?_, hapart⟩
      · exact absurd ⟨hb.2.1, hb.2.2.1⟩ ((hinv.noFit_iff _).mp hno b hb.1)
      · rcases hinv.kmalloc_of_room hpos hwant hno (by omega) with ⟨h', hrun, -⟩ | ⟨-, herr⟩
        · exact .inl ⟨h', hrun⟩
        · exact .inr herr
      · exact hinv.kmalloc_of_full hpos hwant hno (by omega)
  · intro want h' p hwant hrun
    rcases hinv.kmalloc_ok hwant hrun with ⟨-, rfl⟩ | ⟨ds, halloc⟩
    · exact hs.writesApart (Confined.refl _ _) fun _ hu => hu
    · exact hs.writesApart halloc.confined fun _ hu => hu
  · intro u hu
    obtain ⟨k, hk, hmem⟩ := hs.live_used u hu
    obtain ⟨h', ds, hrun, -, -, hconf⟩ := hinv.kfree_used hmem
    refine ⟨?_, h', hrun, hs.writesApart (hconf.mono fun x hx => hx.not_inUsed) fun v hv =>
      mem_of_mem_erase hv⟩
    unfold payloadEnd
    rw [hinv.payloadEnd_used hmem]
    omega

/-- The freed block between two live ones is used again, apart from both. -/
theorem kmalloc_first_fit_exclusive_gap : ∃ h h' : Heap DiskImage,
      HeapReach [(0xC1000100, 8), (0xC1000010, 8)] h ∧ free h.window 0xC1000018 = 1 ∧
      h.kmalloc 100 = .ok (h', 0xC1000028) ∧ 0xC1000028 + 100 ≤ h'.heapMappedEnd ∧
      payloadEnd h.window 0xC1000010 ≤ 0xC1000028 ∧
      WritesApart h h' [(0xC1000100, 8), (0xC1000010, 8)] := by
  obtain ⟨h, h', hr, hfree, hrun⟩ := exists_gap
  obtain ⟨bs, -, hmalloc, hwrites, -⟩ := kmalloc_first_fit_exclusive hr
  obtain ⟨hmapped, hapart, -⟩ := (hmalloc 100 (by decide) (by decide)).2.2.2 h' _ hrun (by decide)
  exact ⟨h, h', hr, hfree, hrun, hmapped,
    (hapart (0xC1000010, 8) (by simp)).resolve_left (by decide),
    hwrites 100 h' _ (by decide) hrun⟩

/-! ## Where the next block will be -/

section

omit [Disk D]

/-- The blocks after a request of `n` bytes, and the offset of its payload. -/
def place (n : ℕ) : List Chunk → List Chunk × ℕ
  | [] => ([⟨n, false⟩], 16)
  | c :: cs =>
    if c.Serves n then (carve n { c with free := false } ++ cs, 16)
    else (c :: (place n cs).1, 16 + c.size + (place n cs).2)

theorem place_of_fit (hxs : ∀ d ∈ xs, ¬ d.Serves n) (hc : c.Serves n) :
    place n (xs ++ c :: ys) = (xs ++ (carve n { c with free := false } ++ ys), span xs + 16) := by
  induction xs with
  | nil => simp [place, hc]
  | cons x xs ih =>
    obtain ⟨hx, hxs⟩ := forall_mem_cons.mp hxs
    rw [cons_append, place, if_neg hx, ih hxs, span_cons]
    simp only [cons_append, Prod.mk.injEq, true_and]
    omega

theorem place_of_none {cs : List Chunk} (hcs : ∀ d ∈ cs, ¬ d.Serves n) :
    place n cs = (cs ++ [⟨n, false⟩], span cs + 16) := by
  induction cs with
  | nil => simp [place]
  | cons c cs ih =>
    obtain ⟨hc, hcs⟩ := forall_mem_cons.mp hcs
    rw [place, if_neg hc, ih hcs, span_cons]
    simp only [cons_append, Prod.mk.injEq, true_and]
    omega

end

/-- **`kmalloc` is first fit** on the list of blocks. -/
theorem Heap.Inv.kmalloc_place (hinv : h.Inv cs) (hpos : 0 < want) (hwant : want ≤ heapSize)
    (hrun : h.kmalloc want = .ok (h', p)) (hp : p ≠ 0) : h'.Inv (place ((want + 3) / 4 * 4) cs).1 ∧
      p = heapStart + (place ((want + 3) / 4 * 4) cs).2 := by
  rcases exists_first_fit cs want with ⟨xs, c, ys, rfl, hxs, hc⟩ | hno
  · obtain ⟨h1, ds, k, hrun1, hinv1, -, -, -, hds⟩ := hinv.kmalloc_of_fit hpos hwant hxs hc
    obtain ⟨rfl, rfl⟩ := ok_pair (hrun1.symm.trans hrun)
    rw [place_of_fit hxs hc, ← hds]
    exact ⟨hinv1, add_assoc _ _ _⟩
  · rw [place_of_none hno]
    by_cases hroom : span cs + 16 + (want + 3) / 4 * 4 ≤ 16777216
    · rcases hinv.kmalloc_of_room hpos hwant hno hroom with ⟨h1, hrun1, hinv1, -⟩ | ⟨-, herr | herr⟩
      · obtain ⟨rfl, rfl⟩ := ok_pair (hrun1.symm.trans hrun)
        rw [hinv.curr]
        exact ⟨hinv1, add_assoc _ _ _⟩
      · cases herr.symm.trans hrun
      · cases herr.symm.trans hrun
    · rw [hinv.kmalloc_of_full hpos hwant hno (by omega)] at hrun
      exact absurd (ok_pair hrun).2.symm hp

end PenOS
