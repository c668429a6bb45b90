import PenOS.HeapUndo

/-!
# Freeing twice

`kfree` looks at the flag of the block first, and the flag of a block just freed still reads
free, also if it was merged or dropped. But `heap_trim` unmaps the pages behind the list, and
the header can be on one of them.
-/

namespace PenOS

open Block RecMem

variable {D : Type} {live : List (ℕ × ℕ)} {h h' : Heap D} {xs ys cs ds : List Chunk} {c : Chunk}
  {p : ℕ}

/-- A second `kfree` of `p` right after the first changes nothing, and the flag it reads is still
mapped. -/
def Heap.DoubleFreeHarmless (h : Heap D) (p : ℕ) : Prop :=
  ∃ h', h.kfree p = .ok h' ∧ p ≤ h'.heapMappedEnd ∧ h'.kfree p = .ok h'

/-- Where the list ends when its last block, at `b`, is freed: a free block in front of it goes
with it. -/
def trimmedEnd (m : RecMem) (b : ℕ) : ℕ :=
  if prev m b ≠ 0 ∧ free m (prev m b) ≠ 0 then prev m b else b

/-- The block of `p` is not the last one, or the page of its header stays. -/
def Heap.HeaderStays (h : Heap D) (p : ℕ) : Prop :=
  next h.window (p - blockOverhead) ≠ 0 ∨
    p ≤ alignUp (trimmedEnd h.window (p - blockOverhead)) 4096

theorem Heap.Inv.end_of_next (hinv : h.Inv (xs ++ c :: ys)) (hys : ys ≠ [])
    (hused : usedAt heapStart ds =
      usedAt heapStart xs ++ usedAt (heapStart + span xs + 16 + c.size) ys) :
    heapStart + span xs + 16 ≤ heapStart + span ds := by
  obtain ⟨-, -, hset⟩ := settled_append.mp hinv.settled
  cases ys with
  | nil => exact absurd rfl hys
  | cons d ys =>
    obtain ⟨k, rest, hfirst⟩ := hset.usedAt_cons (a := heapStart + span xs + 16 + c.size)
    rw [hfirst] at hused
    have hmem : (heapStart + span xs + 16 + c.size + 16 + (if d.free then d.size + 16 else 0), k) ∈
        usedAt heapStart ds := by simp [hused]
    have := (usedAt_range hmem).2
    omega

theorem Heap.Inv.end_of_last (hinv : h.Inv (xs ++ [c])) (hset : Settled true ds)
    (hused : usedAt heapStart ds = usedAt heapStart xs) :
    trimmedEnd h.window (heapStart + span xs) = heapStart + span ds := by
  obtain ⟨hleft, hhead, -⟩ := chain_middle.mp hinv.chain
  have hxs := (settled_append.mp hinv.settled).1
  have hlayout := heap_layout
  rw [trimmedEnd, hhead.blockPrev]
  rcases List.eq_nil_or_concat xs with rfl | ⟨ws, q, hws⟩
  · obtain rfl := hset.eq_of_usedAt (show Settled true [] from trivial) hused
    rfl
  rw [List.concat_eq_append] at hws
  subst hws
  obtain ⟨-, hq, -⟩ := chain_middle.mp hleft
  rw [lastPtr_concat]
  rcases hf : q.free with _ | _
  · obtain rfl := hset.eq_of_usedAt (hxs.after_used hf true) hused
    rw [if_neg]
    rintro ⟨-, hne⟩
    exact absurd (hq.blockFree.mp hne) (by simp [hf])
  · rw [usedAt_append, usedAt_cons_free _ _ hf, usedAt, List.append_nil] at hused
    have hws := (settled_append.mp hxs).1
    rw [headFree_cons, hf] at hws
    obtain rfl := hset.eq_of_usedAt hws hused
    rw [if_pos ⟨by omega, hq.blockFree.mpr hf⟩]

/-- **Freeing twice** is harmless exactly when the block is not the last of the list or its header
is not on a page that goes with it. -/
theorem kfree_twice_iff [Disk D] (hr : HeapReach live h) {u : ℕ × ℕ} (hu : u ∈ live) :
    h.DoubleFreeHarmless u.1 ↔ h.HeaderStays u.1 := by
  obtain ⟨cs, hs⟩ := hr.state
  obtain ⟨k, -, hmem⟩ := hs.live_used u hu
  obtain ⟨xs, c, ys, rfl, hc, hpk⟩ := exists_of_mem_usedAt hmem
  have hinv := hs.inv
  have hp : u.1 = heapStart + span xs + 16 := (Prod.mk.inj hpk).1
  obtain ⟨h', ds, hrun, hinv', hused, -, hfree⟩ := hinv.kfree hc
  obtain ⟨-, hhead, -⟩ := chain_middle.mp hinv.chain
  have hlayout := heap_layout
  have hfits := hinv.fits
  have hspan : span (xs ++ c :: ys) = span xs + (16 + c.size + span ys) := by simp
  have hmapped := hinv'.mapped
  rw [hinv'.curr] at hmapped
  have hblock : heapStart + span xs + 16 - blockOverhead = heapStart + span xs :=
    Nat.add_sub_cancel _ 16
  have htwice : h'.kfree u.1 = .ok h' := by
    rw [hp]
    exact Heap.kfree_of_free (by omega) (by omega) (hblock ▸ hfree)
  -- what is left to ask is whether the window is mapped up to `p`
  have hiff : h.DoubleFreeHarmless u.1 ↔ u.1 ≤ h'.heapMappedEnd := by
    constructor
    · rintro ⟨h1, hrun1, hle, -⟩
      rw [hp, hrun] at hrun1
      cases hrun1
      exact hle
    · exact fun hle => ⟨h', hp ▸ hrun, hle, htwice⟩
  rw [hiff, Heap.HeaderStays, hp, hblock, hhead.blockNext, hmapped]
  cases ys with
  | nil =>
    rw [usedAt, List.append_nil] at hused
    have hend := hinv.end_of_last hinv'.settled hused
    have hle : span ds ≤ 16777216 := hinv'.fits
    rw [hend, alignUp_page (by omega)]
    exact ⟨Or.inr, fun h => h.resolve_left fun hne => hne rfl⟩
  | cons d ys =>
    have hend := hinv.end_of_next (List.cons_ne_nil d ys) hused
    refine ⟨fun _ => Or.inl ?_, fun _ => by omega⟩
    rw [headPtr_cons]
    omega

/-- Two allocations: the header of the first one stays, since the second one follows it. -/
theorem kfree_twice_iff_two :
    ∃ h : Heap DiskImage, HeapReach [(0xC1000084, 100), (0xC1000010, 100)] h ∧
      h.DoubleFreeHarmless 0xC1000010 := by
  have hrun : (smallHeap.bind fun h => (h.kmalloc 100).toOption.bind fun r1 =>
      (r1.1.kmalloc 100).toOption.map fun r2 =>
        (r1.2, r2.2, next r2.1.window 0xC1000000)) =
      some (0xC1000010, 0xC1000084, 0xC1000074) := by decide +kernel
  simp only [Option.bind_eq_some_iff, Option.map_eq_some_iff] at hrun
  obtain ⟨h, hh, ⟨h1, p1⟩, hrun1, ⟨h2, p2⟩, hrun2, heq⟩ := hrun
  obtain ⟨rfl, rfl, hnext⟩ : p1 = 0xC1000010 ∧ p2 = 0xC1000084 ∧
      next h2.window 0xC1000000 = 0xC1000074 := by simpa using heq
  have hr1 : HeapReach [(0xC1000010, 100)] h1 :=
    (smallHeap_reach hh).malloc (by decide) (ok_of_toOption hrun1)
  have hr2 : HeapReach [(0xC1000084, 100), (0xC1000010, 100)] h2 :=
    hr1.malloc (by decide) (ok_of_toOption hrun2)
  refine ⟨h2, hr2, (kfree_twice_iff hr2 (u := (0xC1000010, 100)) (by simp)).mpr (Or.inl ?_)⟩
  rw [show 0xC1000010 - blockOverhead = 0xC1000000 from rfl, hnext]
  decide

/-- One allocation, freed twice: the first call unmaps the page of the header, the second reads
there. -/
theorem second_kfree_reads_unmapped :
    ∃ h : Heap DiskImage, HeapReach [(0xC1000010, 100)] h ∧ ¬ h.DoubleFreeHarmless 0xC1000010 ∧
      ∃ h', h.kfree 0xC1000010 = .ok h' ∧ h'.paging.pagingVirtToPhys 0xC1000000 = 0 := by
  have hrun : (smallHeap.bind fun h => (h.kmalloc 100).toOption.bind fun r1 =>
      (r1.1.kfree 0xC1000010).toOption.map fun h' =>
        (r1.2, h'.heapMappedEnd, h'.paging.pagingVirtToPhys 0xC1000000)) =
      some (0xC1000010, 0xC1000000, 0) := by decide +kernel
  simp only [Option.bind_eq_some_iff, Option.map_eq_some_iff] at hrun
  obtain ⟨h, hh, ⟨h1, p1⟩, hrun1, h2, hrun2, heq⟩ := hrun
  obtain ⟨rfl, hmapped, hphys⟩ : p1 = 0xC1000010 ∧ h2.heapMappedEnd = 0xC1000000 ∧
      h2.paging.pagingVirtToPhys 0xC1000000 = 0 := by simpa using heq
  have hfree := ok_of_toOption hrun2
  refine ⟨h1, (smallHeap_reach hh).malloc (by decide) (ok_of_toOption hrun1), ?_, h2, hfree,
    hphys⟩
  rintro ⟨h', hrun', hle, -⟩
  obtain rfl := Except.ok.inj (hfree.symm.trans hrun')
  rw [hmapped] at hle
  exact absurd hle (by decide)

end PenOS
