import PenOS.HeapSafe

/-!
# The pages behind the heap

Seen from the paging layer, `kmalloc` maps pages behind the end of the heap (`growUp`) and
`kfree` unmaps some at its end (`shrinkDown`), whatever the list of blocks looks like.
-/

namespace PenOS

open Block

variable {D : Type}
variable {e fuel k target : ℕ} {s : Paging D} {I : ℕ → Paging D → ℕ → Prop}

namespace Paging

/-- One round of the second loop of `heap_trim`: unmap a page and free its frame. -/
def shrinkPage (s : Paging D) (page : ℕ) : Paging D :=
  let phys := s.pagingVirtToPhys page
  let s := s.pagingUnmap page
  if phys ≠ 0 then { s with pmm := pmmFreeFrame s.pmm phys } else s

/-- `k` rounds, from the end `e` of the heap. -/
def shrinkDown : ℕ → Paging D → ℕ → Paging D
  | 0, s, _ => s
  | k + 1, s, e => shrinkDown k (s.shrinkPage (e - 4096)) (e - 4096)

variable [Disk D]

/-- `map_new_page`, as far as frames and tables go. -/
def growPage (s : Paging D) (page : ℕ) : Except Halt (Paging D) :=
  let out := pmmAllocFrame s.pmm
  if out.2 = 0 then .error .outOfFrames
  else { s with pmm := out.1 }.pagingMap page out.2 (pageRw ||| pagePresent)

/-- `k` new pages, from the end `e` of the heap. -/
def growUp : ℕ → Paging D → ℕ → Except Halt (Paging D)
  | 0, s, _ => .ok s
  | k + 1, s, e =>
    match s.growPage e with
    | .error h => .error h
    | .ok s => growUp k s (e + 4096)

theorem growUp_induct {s' : Paging D} (hI : I k s e)
    (hstep : ∀ j s e s1, j < k → I (j + 1) s e → s.growPage e = .ok s1 → I j s1 (e + 4096))
    (h : growUp k s e = .ok s') : I 0 s' (e + k * 4096) := by
  induction k generalizing s e with
  | zero =>
    cases h
    rwa [Nat.zero_mul, Nat.add_zero]
  | succ k ih =>
    rw [growUp] at h
    rcases hgrow : s.growPage e with err | s1
    · rw [hgrow] at h
      cases h
    · rw [hgrow] at h
      have h1 := ih (hstep k s e s1 (Nat.lt_succ_self k) hI hgrow)
        (fun j s e s1 hj => hstep j s e s1 (by omega)) h
      rwa [show e + 4096 + k * 4096 = e + (k + 1) * 4096 by omega] at h1

omit [Disk D] in
theorem shrinkDown_induct
    (hI : I k s e)
    (hstep : ∀ j s e, j < k → I (j + 1) s e → I j (s.shrinkPage (e - 4096)) (e - 4096)) :
    I 0 (shrinkDown k s e) (e - k * 4096) := by
  induction k generalizing s e with
  | zero => rwa [Nat.zero_mul]
  | succ k ih =>
    have h1 := ih (hstep k s e (Nat.lt_succ_self k) hI) fun j s e hj => hstep j s e (by omega)
    rw [show e - 4096 - k * 4096 = e - (k + 1) * 4096 by omega] at h1
    rw [shrinkDown]
    exact h1

end Paging

namespace Heap

variable {h h' : Heap D} {cs ds : List Chunk} {want p : ℕ}

/-- The end of the mapped part of the window. -/
theorem Inv.mapped_range (hinv : h.Inv cs) :
    heapStart ≤ h.heapMappedEnd ∧ h.heapMappedEnd ≤ heapEnd ∧
      (h.heapMappedEnd - heapStart) % 4096 = 0 := by
  have hcurr := hinv.curr
  have hmapped := hinv.mapped
  have hfits := hinv.fits
  have hlayout := heap_layout
  omega

/-! ## `kfree` -/

theorem trimTail_paging (hrun : trimTail fuel h = .ok h') :
    h'.paging = h.paging ∧ h'.heapMappedEnd = h.heapMappedEnd := by
  induction fuel generalizing h with
  | zero => cases hrun
  | succ fuel ih =>
    rw [trimTail] at hrun
    rcases htail : heapTail h.window h.heapHead with e | tail <;> rw [htail] at hrun
    · cases hrun
    · dsimp only at hrun
      split_ifs at hrun
      · cases hrun
        exact ⟨rfl, rfl⟩
      · cases hrun
        exact ⟨rfl, rfl⟩
      · have hrest := ih hrun
        exact hrest
      · have hrest := ih hrun
        exact hrest

theorem unmapDown_le (hrun : unmapDown target fuel h = .ok h') : h'.heapMappedEnd ≤ target := by
  induction fuel generalizing h with
  | zero => cases hrun
  | succ fuel ih =>
    rw [unmapDown] at hrun
    split_ifs at hrun with hgt
    · exact ih hrun
    · cases hrun
      omega

theorem unmapDown_paging (htarget : 4096 ≤ target)
    (hrun : unmapDown target fuel h = .ok h') (hlt : h.heapMappedEnd < 4294967296) :
    ∃ k, h'.paging = Paging.shrinkDown k h.paging h.heapMappedEnd ∧
      h'.heapMappedEnd + k * 4096 = h.heapMappedEnd := by
  induction fuel generalizing h with
  | zero => cases hrun
  | succ fuel ih =>
    rw [unmapDown] at hrun
    split_ifs at hrun with hgt
    · rw [sub32_of_le hlt (by omega)] at hrun
      have hlt' : h.heapMappedEnd - 4096 < 4294967296 := by omega
      obtain ⟨k, hpaging, hend⟩ := ih hrun hlt'
      have hge : 4096 ≤ h.heapMappedEnd := htarget.trans hgt.le
      have hend' : h'.heapMappedEnd + (k + 1) * 4096 = h.heapMappedEnd := by
        rw [Nat.succ_mul, ← Nat.add_assoc, hend, Nat.sub_add_cancel hge]
      refine ⟨k + 1, ?_, hend'⟩
      rw [hpaging, Paging.shrinkDown]
      rfl
    · cases hrun
      exact ⟨0, rfl, by omega⟩

/-- **`kfree`** unmaps pages at the end of the heap. -/
theorem kfree_paging (hinv : h.Inv cs) (hinv' : h'.Inv ds) (hrun : h.kfree p = .ok h') :
    ∃ k, h'.paging = Paging.shrinkDown k h.paging h.heapMappedEnd ∧
      h'.heapMappedEnd + k * 4096 = h.heapMappedEnd := by
  have hlayout := heap_layout
  have hrange := hinv.mapped_range
  have hrange' := hinv'.mapped_range
  rw [kfree] at hrun
  dsimp only at hrun
  split_ifs at hrun
  · cases hrun
    exact ⟨0, rfl, by omega⟩
  · cases hrun
    exact ⟨0, rfl, by omega⟩
  · rw [heapTrim] at hrun
    rcases htrim : trimTail heapFuel { h with
        window := coalesce (setFree h.window (sub32 p blockOverhead) 1) (sub32 p blockOverhead)
        allocatedBytes := sub32 h.allocatedBytes
          (size (setFree h.window (sub32 p blockOverhead) 1) (sub32 p blockOverhead)) } with e | h1
    · rw [htrim] at hrun
      cases hrun
    · rw [htrim] at hrun
      obtain ⟨hpaging, hend⟩ := trimTail_paging htrim
      have hle := unmapDown_le hrun
      dsimp only at hend hpaging
      obtain ⟨k, hk, hk'⟩ := unmapDown_paging (by omega) hrun (by omega)
      rw [hpaging, hend] at hk
      exact ⟨k, hk, by omega⟩

/-! ## `kmalloc` -/

variable [Disk D]

/-- The page is new, and cleared. -/
theorem mapNewPage_eq (h : Heap D) (virt : ℕ) : h.mapNewPage virt =
    (h.paging.growPage virt).map fun s =>
      { h with paging := s, window := h.window.fill virt 4096 0 } := by
  simp only [mapNewPage, Paging.growPage]
  split_ifs
  · rfl
  · cases { h.paging with pmm := (pmmAllocFrame h.paging.pmm).1 }.pagingMap virt
      (pmmAllocFrame h.paging.pmm).2 (pageRw ||| pagePresent) <;> rfl

theorem ensureSpace_paging (htarget : target ≤ heapEnd)
    (hrun : h.ensureSpace target fuel = .ok h') :
    ∃ k, Paging.growUp k h.paging h.heapMappedEnd = .ok h'.paging ∧
      h'.heapMappedEnd = h.heapMappedEnd + k * 4096 ∧
      (k = 0 ∨ h.heapMappedEnd + k * 4096 < target + 4096) := by
  have hlayout := heap_layout
  induction fuel generalizing h with
  | zero => cases hrun
  | succ fuel ih =>
    rw [ensureSpace, mapNewPage_eq] at hrun
    split_ifs at hrun with hlt
    · rcases hgrow : h.paging.growPage h.heapMappedEnd with e | s <;>
        simp only [hgrow, Except.map] at hrun
      · cases hrun
      · rw [u32_of_lt (by omega)] at hrun
        obtain ⟨k, hk, hend, hlast⟩ := ih hrun
        dsimp only at hk hend hlast
        refine ⟨k + 1, ?_, by omega, Or.inr (by omega)⟩
        rw [Paging.growUp, hgrow]
        exact hk
    · cases hrun
      exact ⟨0, rfl, by omega, Or.inl rfl⟩

omit [Disk D] in
theorem appendBlock_paging {block : ℕ} (hrun : h.appendBlock block = .ok (h', p)) :
    h'.paging = h.paging ∧ h'.heapMappedEnd = h.heapMappedEnd := by
  rw [appendBlock] at hrun
  split_ifs at hrun
  · cases hrun
    exact ⟨rfl, rfl⟩
  · rcases hlast : lastFrom h.window heapFuel h.heapHead with e | tail <;> rw [hlast] at hrun
    · cases hrun
    · cases hrun
      exact ⟨rfl, rfl⟩

/-- The first block of the heap, in its first page. -/
theorem kmalloc_first (hhead : h.heapHead = 0) (hcurr : h.heapCurr = heapStart)
    (hend : h.heapMappedEnd = heapStart) (hgrow : h.paging.growPage heapStart = .ok s)
    (hpos : 0 < want) (hwant : want ≤ 4080) :
    ∃ h', h.kmalloc want = .ok (h', heapStart + 16) ∧ h'.paging = s := by
  have hlayout := heap_layout
  have hfind : findFit h.window (alignUp want 4) heapFuel h.heapHead = .ok 0 := by
    rw [hhead, show heapFuel = 16777215 + 1 from rfl, findFit, if_pos rfl]
  -- one round of `ensure_space` is enough
  have hspace : h.ensureSpace (heapStart + (want + 3) / 4 * 4 + blockOverhead) heapFuel =
      .ok { h with
        paging := s
        window := h.window.fill heapStart 4096 0
        heapMappedEnd := heapStart + 4096 } := by
    rw [show heapFuel = 16777214 + 1 + 1 from rfl, ensureSpace, hend, if_pos (by omega),
      mapNewPage_eq, hgrow]
    simp only [Except.map]
    rw [u32_of_lt (by omega), ensureSpace, if_neg (by dsimp only; omega), hend]
  have hstart : alignUp heapStart 4 = heapStart := by decide
  rw [kmalloc, if_neg hpos.ne']
  dsimp only
  rw [hfind]
  dsimp only
  rw [if_neg (not_not.mpr rfl), requestBlock, hcurr, hstart, alignUp_four (by omega),
    u32_of_lt (show heapStart + (want + 3) / 4 * 4 < 4294967296 by omega), u32_of_lt (by omega),
    if_neg (by omega), hspace]
  dsimp only
  rw [if_neg (by decide), appendBlock, if_pos hhead]
  exact ⟨_, rfl, rfl⟩

/-- **`kmalloc`** maps pages at the end of the heap, no more than the request needs. -/
theorem kmalloc_paging (hinv : h.Inv cs) (hwant : want ≤ heapSize)
    (hrun : h.kmalloc want = .ok (h', p)) :
    ∃ k, Paging.growUp k h.paging h.heapMappedEnd = .ok h'.paging ∧
      h'.heapMappedEnd = h.heapMappedEnd + k * 4096 ∧ k ≤ want / 4096 + 2 := by
  have hlayout := heap_layout
  have hcurr := hinv.curr
  have hmapped := hinv.mapped
  have hfits := hinv.fits
  rw [kmalloc] at hrun
  split_ifs at hrun
  · cases hrun
    exact ⟨0, rfl, by omega, by omega⟩
  dsimp only at hrun
  rcases hfit : findFit h.window (alignUp want 4) heapFuel h.heapHead with e | block <;>
    rw [hfit] at hrun
  · cases hrun
  dsimp only at hrun
  split_ifs at hrun
  · cases hrun
    exact ⟨0, rfl, by dsimp only; omega, by omega⟩
  -- a new block at the end of the list
  rcases hreq : h.requestBlock (alignUp want 4) with e | ⟨h1, block1⟩ <;> rw [hreq] at hrun
  · cases hrun
  dsimp only at hrun
  have hgrow : ∃ k, Paging.growUp k h.paging h.heapMappedEnd = .ok h1.paging ∧
      h1.heapMappedEnd = h.heapMappedEnd + k * 4096 ∧ k ≤ want / 4096 + 2 := by
    have hstart : alignUp h.heapCurr 4 = (h.heapCurr + 3) / 4 * 4 := alignUp_four (by omega)
    have hneed : alignUp want 4 = (want + 3) / 4 * 4 := alignUp_four (by omega)
    have htotal : u32 (alignUp h.heapCurr 4 + alignUp want 4) =
        (h.heapCurr + 3) / 4 * 4 + (want + 3) / 4 * 4 := by
      rw [hstart, hneed]
      exact u32_of_lt (by omega)
    rw [requestBlock, htotal, u32_of_lt (by omega)] at hreq
    split_ifs at hreq with hfull
    · cases hreq
      exact ⟨0, rfl, by omega, by omega⟩
    rcases hens : h.ensureSpace ((h.heapCurr + 3) / 4 * 4 + (want + 3) / 4 * 4 + blockOverhead)
      heapFuel with e | h2 <;> rw [hens] at hreq
    · cases hreq
    · cases hreq
      obtain ⟨k, hk, hend, hlast⟩ := ensureSpace_paging (by omega) hens
      exact ⟨k, hk, hend, by omega⟩
  split_ifs at hrun
  · cases hrun
    exact hgrow
  · obtain ⟨hpaging, hend⟩ := appendBlock_paging hrun
    rw [hpaging, hend]
    exact hgrow

end Heap

end PenOS
