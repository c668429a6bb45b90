import PenOS.HeapSafe

/-!
# `kfree` undoes `kmalloc`

A settled list of blocks is determined by its payloads in use. `kmalloc` adds one and `kfree` takes
it away, so what is left is the list from before. `kmalloc_aligned` returns an address inside a
payload, and `kfree` takes what lies in front of it for a header.
-/

namespace PenOS

open List

open Block RecMem

variable {D : Type} {live : List (ℕ × ℕ)} {h h' : Heap D} {cs ds : List Chunk} {want p : ℕ}

/-! ## Heaps with the same blocks -/

/-- The block list, `heap_head`, `heap_curr` and `heap_mapped_end` are the same. -/
structure Heap.SameBlocks (h h' : Heap D) : Prop where
  head : h'.heapHead = h.heapHead
  curr : h'.heapCurr = h.heapCurr
  mapped : h'.heapMappedEnd = h.heapMappedEnd
  blocks : ∃ bs, Linked h.window h.heapHead bs ∧ Linked h'.window h'.heapHead bs ∧
    ∀ b ∈ bs, next h'.window b = next h.window b ∧ prev h'.window b = prev h.window b ∧
      size h'.window b = size h.window b ∧ free h'.window b = free h.window b

theorem Heap.Inv.linked (hinv : h.Inv cs) :
    Linked h.window h.heapHead (blockAddrs heapStart cs) := by
  rw [hinv.head]
  exact hinv.chain.linked (by decide)

theorem Heap.Inv.unique (hinv : h.Inv cs) (hinv' : h.Inv ds) : cs = ds :=
  hinv.chain.unique (by decide) hinv'.chain (hinv.head.symm.trans hinv'.head)

theorem Heap.Inv.sameBlocks (hinv : h.Inv cs) (hinv' : h'.Inv cs) : h.SameBlocks h' := by
  have hcurr : h'.heapCurr = h.heapCurr := hinv'.curr.trans hinv.curr.symm
  refine ⟨hinv'.head.trans hinv.head.symm, hcurr, ?_, blockAddrs heapStart cs, hinv.linked,
    hinv'.linked, fun b hb => ?_⟩
  · rw [hinv'.mapped, hinv.mapped, hcurr]
  · obtain ⟨xs, c, ys, rfl, rfl⟩ := mem_blockAddrs.mp hb
    obtain ⟨-, hb, -⟩ := chain_middle.mp hinv.chain
    obtain ⟨-, hb', -⟩ := chain_middle.mp hinv'.chain
    exact ⟨hb'.next_eq.trans hb.next_eq.symm, hb'.prev_eq.trans hb.prev_eq.symm,
      hb'.size_eq.trans hb.size_eq.symm, hb'.free_eq.trans hb.free_eq.symm⟩

theorem Heap.kfree_of_free (hp : blockOverhead ≤ p) (hlt : p < 4294967296)
    (hfree : free h.window (p - blockOverhead) ≠ 0) : h.kfree p = .ok h := by
  have hlayout := heap_layout
  rw [Heap.kfree, if_neg (by omega)]
  rw [sub32_of_le hlt hp, if_pos hfree]

theorem Heap.Inv.kfree_split {us vs : List (ℕ × ℕ)} {k : ℕ} (hinv : h.Inv cs)
    (hused : usedAt heapStart cs = us ++ (p, k) :: vs) :
    ∃ h' ds, h.kfree p = .ok h' ∧ h'.Inv ds ∧ usedAt heapStart ds = us ++ vs := by
  have hmem : (p, k) ∈ usedAt heapStart cs := by simp [hused]
  obtain ⟨xs, c, ys, rfl, hc, hpk⟩ := exists_of_mem_usedAt hmem
  cases hpk
  obtain ⟨h', ds, hrun, hinv', hds, -⟩ := hinv.kfree hc
  refine ⟨h', ds, hrun, hinv', hds.trans ?_⟩
  -- the payload occurs once, so the lists around it are the same
  have hapart := usedAt_pairwise heapStart (xs ++ c :: ys)
  rw [hused, pairwise_append, pairwise_cons] at hapart
  obtain ⟨-, ⟨hright, -⟩, hleft⟩ := hapart
  have hus : (heapStart + span xs + 16, c.size) ∉ us := fun hu => by
    have := hleft _ hu _ mem_cons_self
    omega
  have hvs : (heapStart + span xs + 16, c.size) ∉ vs := fun hv => by
    have := hright _ hv
    omega
  rw [usedAt_append, usedAt_cons_used _ _ hc] at hused
  obtain ⟨hxs, -, hys⟩ := (append_cons_inj_of_notMem hus hvs).mp hused.symm
  rw [hxs, hys]

theorem Heap.Inv.not_sameBlocks {us vs : List (ℕ × ℕ)} {k : ℕ} (hinv : h.Inv cs)
    (hinv' : h'.Inv ds) (hcs : usedAt heapStart cs = us ++ vs)
    (hds : usedAt heapStart ds = us ++ (p, k) :: vs) : ¬ h.SameBlocks h' := by
  intro hsame
  obtain ⟨bs, hbs, hbs', hfields⟩ := hsame.blocks
  obtain rfl := hbs.unique hinv.linked
  have haddrs := hbs'.unique hinv'.linked
  -- the block of `p` is in both lists, and used in both
  have hmem : (p, k) ∈ usedAt heapStart ds := by simp [hds]
  obtain ⟨xs, c, ys, rfl, hc, hpk⟩ := exists_of_mem_usedAt hmem
  cases hpk
  have hb : heapStart + span xs ∈ blockAddrs heapStart cs := by
    rw [haddrs]
    exact mem_blockAddrs.mpr ⟨xs, c, ys, rfl, rfl⟩
  obtain ⟨-, hhead', -⟩ := chain_middle.mp hinv'.chain
  obtain ⟨xs', c', ys', rfl, hspan⟩ := mem_blockAddrs.mp hb
  obtain ⟨-, hhead, -⟩ := chain_middle.mp hinv.chain
  have hc' : c'.free = false := by
    rw [← hspan] at hhead
    rw [Bool.eq_false_iff, ne_eq, ← hhead.blockFree, ← (hfields _ hb).2.2.2, hhead'.blockFree, hc]
    exact Bool.false_ne_true
  have hused := mem_usedAt_middle heapStart xs' ys' hc'
  rw [← hspan, hcs] at hused
  have hapart := usedAt_pairwise heapStart (xs ++ c :: ys)
  rw [hds, pairwise_append, pairwise_cons] at hapart
  rcases List.mem_append.mp hused with hu | hu
  · have := hapart.2.2 _ hu _ mem_cons_self
    omega
  · have := hapart.2.1.1 _ hu
    omega

theorem Heap.Inv.kfree_allocated (hinv : h.Inv cs) (halloc : Allocated h h' cs ds p want) :
    ∃ h'', h'.kfree p = .ok h'' ∧ h.SameBlocks h'' := by
  obtain ⟨us, vs, k, -, hcs, hds⟩ := halloc.used
  obtain ⟨h'', es, hrun, hinv'', hes⟩ := halloc.inv.kfree_split hds
  obtain rfl := hinv''.settled.eq_of_usedAt hinv.settled (hes.trans hcs.symm)
  exact ⟨h'', hrun, hinv.sameBlocks hinv''⟩

variable [Disk D]

/-- **`kfree` undoes `kmalloc`**: giving a request back at once restores the list of blocks and the
statics. -/
theorem kfree_undoes_kmalloc (hr : HeapReach live h) (hwant : want ≤ heapSize)
    (hrun : h.kmalloc want = .ok (h', p)) (hp : p ≠ 0) :
    ∃ h'', h'.kfree p = .ok h'' ∧ h.SameBlocks h'' := by
  obtain ⟨cs, hs⟩ := hr.state
  rcases hs.inv.kmalloc_ok hwant hrun with ⟨rfl, -⟩ | ⟨ds, halloc⟩
  · exact absurd rfl hp
  · exact hs.inv.kfree_allocated halloc

/-- A request that splits the free block between two live ones is given back: the halves merge. -/
theorem kfree_undoes_kmalloc_gap : ∃ h h' h'' : Heap DiskImage,
      HeapReach [(0xC1000100, 8), (0xC1000010, 8)] h ∧ free h.window 0xC1000018 = 1 ∧
      h.kmalloc 100 = .ok (h', 0xC1000028) ∧ h'.kfree 0xC1000028 = .ok h'' ∧ h.SameBlocks h'' := by
  obtain ⟨h, h', hr, hgap, hrun⟩ := exists_gap
  obtain ⟨h'', hfree, hsame⟩ := kfree_undoes_kmalloc hr (by decide) hrun (by decide)
  exact ⟨h, h', h'', hr, hgap, hrun, hfree, hsame⟩

/-! ## Aligned allocations -/

omit [Disk D] in
/-- Where `kmalloc` puts a payload: behind the first free header that serves, or a new one at
`heap_curr`. -/
def Heap.payloadFor (h : Heap D) (want : ℕ) : ℕ :=
  match findFit h.window (alignUp want 4) heapFuel h.heapHead with
  | .ok 0 | .error _ => h.heapCurr + blockOverhead
  | .ok (b + 1) => b + 1 + blockOverhead

theorem Heap.Inv.payloadFor_eq (hinv : h.Inv cs) (hpos : 0 < want) (hwant : want ≤ heapSize)
    (hrun : h.kmalloc want = .ok (h', p)) (hp : p ≠ 0) : h.payloadFor want = p := by
  have hlayout := heap_layout
  have hlen := Heap.length_lt_fuel hinv.fits
  rw [Heap.payloadFor, alignUp_four (by omega), hinv.head]
  rcases exists_first_fit cs want with ⟨xs, c, ys, rfl, hxs, hc⟩ | hno
  · obtain ⟨h1, ds, k, hrun1, -⟩ := hinv.kmalloc_of_fit hpos hwant hxs hc
    obtain ⟨-, rfl⟩ := ok_pair (hrun1.symm.trans hrun)
    rw [length_append] at hlen
    have hfind := findFit_of_fit hinv.chain (by decide) hxs hc
      (show xs.length < heapFuel by omega)
    have hptr : headPtr heapStart 0 (xs ++ c :: ys) = heapStart := by cases xs <;> rfl
    rw [hptr, hfind, show heapStart + span xs = 3238002687 + span xs + 1 by omega]
  · have hfind := findFit_of_none hinv.chain (by decide) hno hlen
    rw [hfind]
    by_cases hroom : span cs + 16 + (want + 3) / 4 * 4 ≤ 16777216
    · rcases hinv.kmalloc_of_room hpos hwant hno hroom with ⟨h1, hrun1, -⟩ | ⟨-, herr | herr⟩
      · exact (ok_pair (hrun1.symm.trans hrun)).2
      · cases herr.symm.trans hrun
      · cases herr.symm.trans hrun
    · rw [hinv.kmalloc_of_full hpos hwant hno (by omega)] at hrun
      exact absurd (ok_pair hrun).2.symm hp

section

omit [Disk D]

/-- Giving back `p` leads from `h'` to the blocks of `h`. -/
def Heap.Restores (h h' : Heap D) (p : ℕ) : Prop :=
  ∃ h'', h'.kfree p = .ok h'' ∧ h.SameBlocks h''

/-- In front of `p` there is what `kfree` takes for the header of a free block, or of a block
without neighbours. -/
def PlainPadding (m : RecMem) (p : ℕ) : Prop :=
  free m (p - blockOverhead) ≠ 0 ∨
    next m (p - blockOverhead) = 0 ∧ prev m (p - blockOverhead) = 0

theorem Heap.Inv.kfree_inside {k q : ℕ} (hinv : h.Inv cs) (hq : (q, k) ∈ usedAt heapStart cs)
    (hlow : q + 4 ≤ p) (hhigh : p ≤ q + k) (hplain : PlainPadding h.window p)
    (hrun : h.kfree p = .ok h') : h'.Inv cs := by
  have hlayout := heap_layout
  have hfits := hinv.fits
  have hrange := usedAt_range hq
  by_cases hfree : free h.window (p - blockOverhead) ≠ 0
  · rw [Heap.kfree_of_free (by omega) (by omega) hfree] at hrun
    cases hrun
    exact hinv
  obtain ⟨hnext, hprev⟩ := hplain.resolve_left hfree
  -- the flag is written to the payload, and there is nothing to coalesce
  set m := setFree h.window (p - blockOverhead) 1 with hm
  have hnext' : next m (p - blockOverhead) = 0 :=
    (Mem.load32_store32_of_apart (by omega)).trans hnext
  have hprev' : prev m (p - blockOverhead) = 0 :=
    (Mem.load32_store32_of_apart (by omega)).trans hprev
  have hco : coalesce m (p - blockOverhead) = m := by
    have hfirst : coalesceNext m (p - blockOverhead) = m := if_neg fun hc => hc.1 hnext'
    rw [coalesce, hfirst]
    exact if_neg fun hc => hc.1 hprev'
  have hchain : Chain m.bytes 0 0 heapStart cs := by
    refine hinv.chain.congr fun x hx => Mem.store32_of_not_mem ?_
    by_contra hcon
    exact hx.not_inUsed ⟨_, hq, by dsimp only; omega, by dsimp only; omega⟩
  rw [Heap.kfree, if_neg (by omega)] at hrun
  dsimp only at hrun
  rw [sub32_of_le (by omega) (by omega), if_neg hfree, ← hm, hco] at hrun
  have hmapped := hinv.mapped
  rw [hinv.curr] at hmapped
  obtain ⟨h1, ds, rest, hrun1, hinv1, -, hused, -⟩ := Heap.heapTrim_spec (h := { h with
      window := m, allocatedBytes := sub32 h.allocatedBytes (size m (p - blockOverhead)) })
    hinv.head hchain (Or.inl hinv.settled) hinv.sizes hfits hmapped
  obtain rfl := Except.ok.inj (hrun1.symm.trans hrun)
  obtain rfl := hinv1.settled.eq_of_usedAt hinv.settled hused
  exact hinv1

end

/-- **Aligned allocations**: `kmalloc_aligned` returns `NULL` or an aligned address inside the
block. Giving it back releases the block if its payload was aligned; otherwise `kfree` takes the
padding for the header, and the block stays. -/
theorem kmallocAligned_contained {a : ℕ} (hr : HeapReach live h)
    (hsize : want + 2 ^ a + blockOverhead ≤ heapSize)
    (hrun : h.kmallocAligned want (2 ^ a) = .ok (h', p)) (hp : p ≠ 0) :
    (2 ^ a ∣ p ∧ ∃ q, h.kmalloc (want + 2 ^ a + blockOverhead) = .ok (h', q) ∧ q ≤ p ∧
      p + want ≤ payloadEnd h'.window q) ∧
    (2 ^ a ∣ h.payloadFor (want + 2 ^ a + blockOverhead) → h.Restores h' p) ∧
    (¬ 2 ^ a ∣ h.payloadFor (want + 2 ^ a + blockOverhead) → PlainPadding h'.window p →
      ¬ h.Restores h' p) := by
  have hlayout := heap_layout
  have hpos : 0 < 2 ^ a := Nat.two_pow_pos a
  have ha : a ≤ 32 := by
    by_contra hc
    have := Nat.pow_le_pow_right (show 0 < 2 by decide) (show 33 ≤ a by omega)
    omega
  obtain ⟨cs, hs⟩ := hr.state
  rw [Heap.kmallocAligned, u32_of_lt (by omega)] at hrun
  rcases hm : h.kmalloc (want + 2 ^ a + blockOverhead) with e | ⟨h1, q⟩
  · rw [hm] at hrun
    cases hrun
  rw [hm] at hrun
  dsimp only at hrun
  by_cases hq : q = 0
  · rw [if_pos hq] at hrun
    exact absurd (ok_pair hrun).2.symm hp
  rw [if_neg hq] at hrun
  obtain ⟨rfl, rfl⟩ := ok_pair hrun
  have hfor := hs.inv.payloadFor_eq (by omega) hsize hm hq
  rcases hs.inv.kmalloc_ok hsize hm with ⟨rfl, -⟩ | ⟨ds, halloc⟩
  · exact absurd rfl hq
  obtain ⟨us, vs, k, hk, hcs, hds⟩ := halloc.used
  have hmem : (q, k) ∈ usedAt heapStart ds := by simp [hds]
  have hrange := usedAt_range hmem
  have hfits := halloc.inv.fits
  obtain ⟨hdvd, hle, hlt, hself⟩ := alignUp_facts (q := q) (a := a) (by omega) ha
  have hend : payloadEnd h1.window q = q + k := by
    rw [payloadEnd, halloc.inv.payloadEnd_used hmem]
  refine ⟨⟨hdvd, q, rfl, hle, by omega⟩, fun hal => ?_, fun hal hplain hres => ?_⟩
  · rw [hfor] at hal
    rw [hself hal]
    exact hs.inv.kfree_allocated halloc
  · rw [hfor] at hal
    obtain ⟨h'', hfree, hsame⟩ := hres
    -- both addresses are multiples of four, and differ
    have hfour : q % 4 = 0 := by
      obtain ⟨xs, c, ys, rfl, -, hpk⟩ := exists_of_mem_usedAt hmem
      have hsizes : ∀ d ∈ xs, 0 < d.size ∧ d.size % 4 = 0 := fun d hd =>
        halloc.inv.sizes d (by simp [hd])
      have := Heap.span_mod_four hsizes
      have := (Prod.mk.inj hpk).1
      omega
    have hbig : 2 ≤ a := by
      by_contra hc
      have hfour' : 4 ∣ q := Nat.dvd_of_mod_eq_zero hfour
      exact hal ((Nat.pow_dvd_pow 2 (show a ≤ 2 by omega)).trans hfour')
    have hfour' : 4 ∣ alignUp q (2 ^ a) := (Nat.pow_dvd_pow 2 hbig).trans hdvd
    have hne : alignUp q (2 ^ a) ≠ q := fun heq => hal (heq ▸ hdvd)
    have hinv'' := halloc.inv.kfree_inside hmem (by omega) (by omega) hplain hfree
    exact hs.inv.not_sameBlocks hinv'' hcs hds hsame

/-- The first payload of a heap is a multiple of 16. -/
theorem kmallocAligned_contained_hundred :
    ∃ h h' : Heap DiskImage, HeapReach [] h ∧ h.kmallocAligned 100 16 = .ok (h', 0xC1000010) ∧
      h.Restores h' 0xC1000010 := by
  have hrun : (smallHeap.bind fun h => (h.kmallocAligned 100 16).toOption.map fun r =>
      (r.2, h.payloadFor 132)) = some (0xC1000010, 0xC1000010) := by decide +kernel
  obtain ⟨h, hh, hrun⟩ := Option.bind_eq_some_iff.mp hrun
  obtain ⟨⟨h', p⟩, hrun, heq⟩ := Option.map_eq_some_iff.mp hrun
  obtain ⟨rfl, hfor⟩ : p = 0xC1000010 ∧ h.payloadFor 132 = 0xC1000010 := by simpa using heq
  have hrun' : h.kmallocAligned 100 (2 ^ 4) = .ok (h', 0xC1000010) := ok_of_toOption hrun
  have hdvd : 2 ^ 4 ∣ h.payloadFor (100 + 2 ^ 4 + blockOverhead) := hfor ▸ by decide
  exact ⟨h, h', smallHeap_reach hh, hrun', (kmallocAligned_contained (smallHeap_reach hh)
    (by decide) hrun' (by decide)).2.1 hdvd⟩

/-- A page aligned to a page, as the swap test asks for it: `kfree` of what is returned leaves
the block in use. -/
theorem kfree_misses_aligned_block : ∃ h h' : Heap DiskImage, HeapReach [] h ∧
      h.kmallocAligned 4096 4096 = .ok (h', 0xC1001000) ∧ ¬ h.Restores h' 0xC1001000 := by
  have hrun : (smallHeap.bind fun h => (h.kmallocAligned 4096 4096).toOption.bind fun r =>
      (r.1.kfree 0xC1001000).toOption.map fun h' => (r.2, h.heapCurr, h'.heapCurr)) =
      some (0xC1001000, 0xC1000000, 0xC1002020) := by decide +kernel
  simp only [Option.bind_eq_some_iff, Option.map_eq_some_iff] at hrun
  obtain ⟨h, hh, ⟨h', p⟩, hrun1, h'', hrun2, heq⟩ := hrun
  obtain ⟨rfl, hcurr, hcurr'⟩ : p = 0xC1001000 ∧ h.heapCurr = 0xC1000000 ∧
      h''.heapCurr = 0xC1002020 := by simpa using heq
  refine ⟨h, h', smallHeap_reach hh, ok_of_toOption hrun1, ?_⟩
  rintro ⟨h2, hfree, hsame⟩
  obtain rfl := Except.ok.inj ((ok_of_toOption hrun2).symm.trans hfree)
  exact absurd (hcurr'.symm.trans (hsame.curr.trans hcurr)) (by decide)

end PenOS
