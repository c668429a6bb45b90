import PenOS.HeapUndo

/-!
# The sizes `kmalloc` refuses

`kmalloc` rounds the size up and compares the end of the new block with `heap_end` in 32 bits. A
size of a gigabyte carries the end past `2 ^ 32`, and the block is granted without a page behind it.
-/

namespace PenOS

open Block RecMem

variable {D : Type} {live : List (ℕ × ℕ)} {h h' : Heap D} {cs : List Chunk} {want n : ℕ}

/-! ## Which requests are refused -/

/-- No free block of the list has `n` bytes. -/
def Heap.NoBlockFor (h : Heap D) (n : ℕ) : Prop :=
  ∀ bs, Linked h.window h.heapHead bs → ∀ b ∈ bs, ¬ (free h.window b ≠ 0 ∧ n ≤ size h.window b)

theorem Heap.Inv.noBlockFor_iff (hinv : h.Inv cs) : h.NoBlockFor n ↔ ∀ d ∈ cs, ¬ d.Serves n := by
  rw [hinv.noFit_iff]
  constructor
  · exact fun hno => hno _ hinv.linked
  · intro hno bs hbs
    rw [hbs.unique hinv.linked]
    exact hno

/-- Neither the rounded size nor the end of a new block of that size passes `2 ^ 32` and looks
as if it fitted. -/
def Heap.SizeChecked (h : Heap D) (want : ℕ) : Prop :=
  want = 0 ∨
  want ≤ 0xFFFFFFFC ∧
    (h.heapCurr + blockOverhead + (want + 3) / 4 * 4 < 4294967296 ∨
      4294967296 + heapEnd < h.heapCurr + blockOverhead + (want + 3) / 4 * 4) ∨
  0xFFFFFFFC < want ∧ h.NoBlockFor 0 ∧ heapEnd < h.heapCurr + blockOverhead

theorem alignUp_four_wraps (hwant : want < 4294967296) (hbig : 0xFFFFFFFC < want) :
    alignUp want 4 = 0 := by
  obtain rfl | rfl | rfl : want = 0xFFFFFFFD ∨ want = 0xFFFFFFFE ∨ want = 0xFFFFFFFF := by omega
  all_goals decide

theorem alignUp_four_mod (hwant : want < 4294967296) :
    alignUp want 4 % 4 = 0 ∧ alignUp want 4 < 4294967296 := by
  by_cases hbig : 0xFFFFFFFC < want
  · rw [alignUp_four_wraps hwant hbig]
    decide
  · rw [alignUp_four (by omega)]
    omega

theorem Heap.appendBlock_ne_null {b p : ℕ} (hb : b ≤ heapEnd)
    (hrun : h.appendBlock b = .ok (h', p)) : p ≠ 0 := by
  have hlayout := heap_layout
  have hptr : u32 (b + blockOverhead) ≠ 0 := by
    rw [u32_of_lt (show b + 16 < 4294967296 by omega)]
    exact Nat.succ_ne_zero _
  rw [Heap.appendBlock] at hrun
  split at hrun
  · rw [← (ok_pair hrun).2]
    exact hptr
  · split at hrun
    · cases hrun
    · rw [← (ok_pair hrun).2]
      exact hptr

theorem Heap.Inv.checked_iff (hinv : h.Inv cs) (hwant : want < 4294967296)
    (hno : h.NoBlockFor ((want + 3) / 4 * 4))
    (hover : heapEnd < h.heapCurr + want + blockOverhead) :
    h.SizeChecked want ↔ want = 0 ∨ h.NoBlockFor (alignUp want 4) ∧
      heapEnd < u32 (h.heapCurr + alignUp want 4 + blockOverhead) := by
  have hlayout := heap_layout
  have hend : heapEnd = 3254779904 := rfl
  have hfits := hinv.fits
  have hcurr := hinv.curr
  rw [Heap.SizeChecked]
  refine or_congr_right ?_
  by_cases hbig : 0xFFFFFFFC < want
  · rw [alignUp_four_wraps hwant hbig, u32_of_lt (by omega)]
    constructor
    · rintro (⟨hle, -⟩ | ⟨-, hnone, hfull⟩)
      · omega
      · exact ⟨hnone, by omega⟩
    · rintro ⟨hnone, hfull⟩
      exact Or.inr ⟨hbig, hnone, by omega⟩
  · rw [alignUp_four (by omega), u32]
    constructor
    · rintro (⟨-, hend | hend⟩ | ⟨hgt, -⟩)
      · exact ⟨hno, by omega⟩
      · exact ⟨hno, by omega⟩
      · exact absurd hgt hbig
    · rintro ⟨-, hfull⟩
      exact Or.inl ⟨by omega, by omega⟩

theorem Heap.Inv.sizeChecked (hinv : h.Inv cs) (hwant : want ≤ heapSize) : h.SizeChecked want := by
  have hlayout := heap_layout
  have hfits := hinv.fits
  have hcurr := hinv.curr
  exact Or.inr (Or.inl ⟨by omega, Or.inl (by omega)⟩)

variable [Disk D]

/-- **The requests that are refused**: of nothing, or no free block serves and the end of a new one,
in 32 bits, is beyond the heap. -/
theorem Heap.Inv.kmalloc_null_iff (hinv : h.Inv cs) (hwant : want < 4294967296) :
    h.kmalloc want = .ok (h', 0) ↔ h' = h ∧ (want = 0 ∨ h.NoBlockFor (alignUp want 4) ∧
        heapEnd < u32 (h.heapCurr + alignUp want 4 + blockOverhead)) := by
  have hlayout := heap_layout
  have hfits := hinv.fits
  have hcurr := hinv.curr
  have hlen := Heap.length_lt_fuel hinv.fits
  have hmod := Heap.span_mod_four hinv.sizes
  obtain ⟨hfour, hlt⟩ := alignUp_four_mod hwant
  have hstart : alignUp h.heapCurr 4 = h.heapCurr := by
    rw [alignUp_four (by omega)]
    omega
  by_cases hzero : want = 0
  · subst hzero
    rw [Heap.kmalloc, if_pos rfl]
    simp only [Except.ok.injEq, Prod.mk.injEq, and_true, true_or]
    exact eq_comm
  rw [Heap.kmalloc, if_neg hzero, hinv.noBlockFor_iff]
  dsimp only
  generalize alignUp want 4 = n at hfour hlt ⊢
  have hround : (n + 3) / 4 * 4 = n := by omega
  rcases exists_first_fit cs n with ⟨xs, c, ys, rfl, hxs, hc⟩ | hno
  · -- a block that serves the request is returned
    rw [hround] at hxs hc
    rw [List.length_append] at hlen
    have hfind := findFit_of_fit hinv.chain (by decide) hxs hc
      (show xs.length < heapFuel by omega)
    have hptr : headPtr heapStart 0 (xs ++ c :: ys) = heapStart := by cases xs <;> rfl
    have hspan : span (xs ++ c :: ys) = span xs + (16 + c.size + span ys) := by simp
    rw [hinv.head, hptr, hfind]
    dsimp only
    rw [if_pos (by omega), u32_of_lt (by omega)]
    refine iff_of_false (fun hrun => ?_) ?_
    · have := (ok_pair hrun).2
      omega
    · rintro ⟨-, hnull | ⟨hnone, -⟩⟩
      · exact hzero hnull
      · exact hnone c (by simp) hc
  · rw [Heap.NoFit, hround] at hno
    have hfind := findFit_of_none hinv.chain (by decide) hno hlen
    rw [hinv.head, hfind]
    dsimp only
    rw [if_neg (by simp), Heap.requestBlock]
    have hsum : u32 (u32 (h.heapCurr + n) + blockOverhead) =
        u32 (h.heapCurr + n + blockOverhead) := by
      unfold u32
      omega
    rw [hstart, hsum]
    by_cases hover : u32 (h.heapCurr + n + blockOverhead) > heapEnd
    · rw [if_pos hover]
      simp only [if_true, Except.ok.injEq, Prod.mk.injEq, and_true]
      exact ⟨fun heq => ⟨heq.symm, Or.inr ⟨hno, hover⟩⟩, fun heq => heq.1.symm⟩
    · rw [if_neg hover]
      refine iff_of_false (fun hrun => ?_) ?_
      · rcases hspace : h.ensureSpace (u32 (h.heapCurr + n + blockOverhead)) heapFuel with e | h1
        · rw [hspace] at hrun
          cases hrun
        · rw [hspace] at hrun
          dsimp only at hrun
          rw [if_neg (by omega)] at hrun
          exact Heap.appendBlock_ne_null (by omega) hrun rfl
      · rintro ⟨-, hnull | ⟨-, hfull⟩⟩
        · exact hzero hnull
        · exact hover hfull

/-! ## Runs -/

/-- Calls of `kmalloc` of any size, for which `P` holds, and of `kfree`, from `heap_init`, with
the live allocations. -/
inductive SizedRun (P : Heap D → ℕ → Prop) : List (ℕ × ℕ) → Heap D → Prop where
  /-- `heap_init` -/
  | init (h : Heap D) : SizedRun P [] h.heapInit
  /-- `kmalloc` -/
  | malloc {live : List (ℕ × ℕ)} {h h' : Heap D} {want p : ℕ} : SizedRun P live h →
      want < 4294967296 → P h want → h.kmalloc want = .ok (h', p) →
      SizedRun P (if p = 0 then live else (p, want) :: live) h'
  /-- `kfree(NULL)` -/
  | freeNull {live : List (ℕ × ℕ)} {h h' : Heap D} : SizedRun P live h →
      h.kfree 0 = .ok h' → SizedRun P live h'
  /-- `kfree` of a live pointer -/
  | free {live : List (ℕ × ℕ)} {h h' : Heap D} {u : ℕ × ℕ} : SizedRun P live h → u ∈ live →
      h.kfree u.1 = .ok h' → SizedRun P (live.erase u) h'
  /-- clients write to their allocations -/
  | client {live : List (ℕ × ℕ)} {h : Heap D} (bytes : Mem) : SizedRun P live h →
      (∀ x, (∀ u ∈ live, x < u.1 ∨ u.1 + u.2 ≤ x) → bytes x = h.window.bytes x) →
      SizedRun P live { h with window := { h.window with bytes := bytes } }

/-- The runs of the heap are among them. -/
theorem HeapReach.sized (hr : HeapReach live h) : SizedRun Heap.SizeChecked live h := by
  have hlayout := heap_layout
  induction hr with
  | init h => exact .init h
  | malloc hr hwant hrun ih =>
    obtain ⟨cs, hs⟩ := hr.state
    exact ih.malloc (by omega) (hs.inv.sizeChecked hwant) hrun
  | freeNull _ hrun ih => exact .freeNull ih hrun
  | free _ hu hrun ih => exact .free ih hu hrun
  | client bytes _ hbytes ih => exact .client bytes ih hbytes

theorem Heap.Inv.kmalloc_large (hinv : h.Inv cs) (hwant : want < 4294967296)
    (hlarge : heapSize < want) (hchecked : h.SizeChecked want) : h.kmalloc want = .ok (h, 0) := by
  have hlayout := heap_layout
  have hfits := hinv.fits
  have hcurr := hinv.curr
  have hno : h.NoBlockFor ((want + 3) / 4 * 4) := hinv.noBlockFor_iff.mpr fun d hd hserves => by
    obtain ⟨xs, ys, rfl⟩ := List.append_of_mem hd
    have hle := hserves.2
    rw [span_append, span_cons] at hfits
    omega
  exact (hinv.kmalloc_null_iff hwant).mpr
    ⟨rfl, (hinv.checked_iff hwant hno (by omega)).mp hchecked⟩

theorem SizedRun.reach {P : Heap D → ℕ → Prop} (hP : ∀ h want, P h want → h.SizeChecked want)
    (hr : SizedRun P live h) : HeapReach live h := by
  induction hr with
  | init h => exact .init h
  | @malloc live h h' want p _ hwant hcond hrun ih =>
    by_cases hle : want ≤ heapSize
    · exact ih.malloc hle hrun
    · obtain ⟨cs, hs⟩ := ih.state
      have hrefused := hs.inv.kmalloc_large hwant (not_le.mp hle) (hP h want hcond)
      obtain ⟨rfl, rfl⟩ := ok_pair (hrefused.symm.trans hrun)
      exact ih
  | freeNull _ hrun ih => exact .freeNull ih hrun
  | free _ hu hrun ih => exact .free ih hu hrun
  | client bytes _ hbytes ih => exact .client bytes ih hbytes

/-- **Oversized requests**, in every run whose sizes do not slip through: when no free block has the
rounded size and a new one would end beyond the heap, the request is refused, with nothing changed,
exactly when its size does not slip through either. -/
theorem kmalloc_refuses_iff (hr : SizedRun Heap.SizeChecked live h) (hwant : want < 4294967296)
    (hno : h.NoBlockFor ((want + 3) / 4 * 4))
    (hover : heapEnd < h.heapCurr + want + blockOverhead) :
    (∃ h', h.kmalloc want = .ok (h', 0) ∧ h.SameBlocks h') ↔ h.SizeChecked want := by
  obtain ⟨cs, hs⟩ := (hr.reach fun _ _ hP => hP).state
  have hiff := hs.inv.checked_iff hwant hno hover
  constructor
  · rintro ⟨h', hrun, -⟩
    exact hiff.mpr ((hs.inv.kmalloc_null_iff hwant).mp hrun).2
  · intro hchecked
    have hrun := (hs.inv.kmalloc_null_iff hwant).mpr ⟨rfl, hiff.mp hchecked⟩
    exact ⟨h, hrun, hs.inv.sameBlocks hs.inv⟩

theorem warmHeap_sized {h : Heap DiskImage} (hh : warmHeap = some h) :
    SizedRun Heap.SizeChecked [(0xC1000010, 8)] h ∧ h.heapCurr = 0xC1000018 ∧
      ∀ n, h.NoBlockFor n := by
  have hvals : (warmHeap.map fun h => [h.heapCurr, h.heapHead, next h.window 0xC1000000,
      free h.window 0xC1000000]) = some [0xC1000018, 0xC1000000, 0, 0] := by decide +kernel
  rw [hh] at hvals
  obtain ⟨hcurr, hhead, hnext, hfree⟩ : _ ∧ _ ∧ _ ∧ _ := by simpa using hvals
  refine ⟨(warmHeap_reach hh).sized, hcurr, fun n bs hbs b hb => ?_⟩
  rw [hbs.unique (show Linked _ _ [0xC1000000] from ⟨hhead, by decide, hnext⟩)] at hb
  rw [List.mem_singleton.mp hb, hfree]
  exact fun hfit => hfit.1 rfl

/-- 32 MiB are refused. -/
theorem kmalloc_refuses_iff_large :
    ∃ h : Heap DiskImage, SizedRun Heap.SizeChecked [(0xC1000010, 8)] h ∧
      ∃ h', h.kmalloc 0x2000000 = .ok (h', 0) ∧ h.SameBlocks h' := by
  have hsome : warmHeap.isSome = true := by decide +kernel
  obtain ⟨h, hh⟩ := Option.isSome_iff_exists.mp hsome
  obtain ⟨hr, hcurr, hno⟩ := warmHeap_sized hh
  have hchecked : h.SizeChecked 0x2000000 := Or.inr (Or.inl ⟨by decide, Or.inl (by
    rw [hcurr]
    decide)⟩)
  exact ⟨h, hr, (kmalloc_refuses_iff hr (by decide) (hno _) (by rw [hcurr]; decide)).mpr hchecked⟩

/-- A gigabyte is granted behind a block of 8 bytes: the end of the new block, `0x101000028`, loses
its highest digit, and its header lies on the page that is mapped already. -/
theorem kmalloc_grants_gigabyte :
    ∃ h : Heap DiskImage, SizedRun Heap.SizeChecked [(0xC1000010, 8)] h ∧
      h.NoBlockFor 0x40000000 ∧ heapEnd < h.heapCurr + 0x40000000 + blockOverhead ∧
      (∃ h', h.kmalloc 0x40000000 = .ok (h', 0xC1000028)) ∧
      ¬ ∃ h', h.kmalloc 0x40000000 = .ok (h', 0) ∧ h.SameBlocks h' := by
  have hrun : (warmHeap.bind fun h => (h.kmalloc 0x40000000).toOption.map Prod.snd) =
      some 0xC1000028 := by decide +kernel
  obtain ⟨h, hh, hrun⟩ := Option.bind_eq_some_iff.mp hrun
  obtain ⟨⟨h1, p⟩, hrun, rfl⟩ := Option.map_eq_some_iff.mp hrun
  obtain ⟨hr, hcurr, hno⟩ := warmHeap_sized hh
  refine ⟨h, hr, hno _, by rw [hcurr]; decide, ⟨h1, ok_of_toOption hrun⟩, ?_⟩
  rintro ⟨h', hnull, -⟩
  have heq := (ok_pair ((ok_of_toOption hrun).symm.trans hnull)).2
  exact absurd heq (by decide)

end PenOS
