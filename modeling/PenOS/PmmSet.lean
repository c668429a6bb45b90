import PenOS.Pmm
import Mathlib.Data.Finset.Max

/-!
# The frame allocator refines a set

The manager holds a finite set of free frames (`Pmm.freeSet`), hands out the least one and takes
frames back. `Pmm.Inv`: the counter is its size, every bit outside the managed range is set, and no
free frame lies between the base and the search hint.
-/

namespace PenOS

open Finset

variable {addr base f fuel kernelEnd : ℕ} {l : List ℕ} {mb : MultibootInfo}
  {mbInfo : Option MultibootInfo} {p s : Pmm}

namespace Pmm

/-- The set of free frames: clear bits of the managed range. -/
def freeSet (s : Pmm) : Finset ℕ := clearBits s.frameBitmap s.baseUsableFrame s.totalFrames

theorem mem_freeSet :
    f ∈ s.freeSet ↔ s.baseUsableFrame ≤ f ∧ f < s.totalFrames ∧ s.testFrame f = false :=
  mem_clearBits

/-- The invariant of the manager. -/
structure Inv (s : Pmm) : Prop where
  /-- the first MiB is never managed -/
  floor : 256 ≤ s.baseUsableFrame
  base_le : s.baseUsableFrame ≤ s.totalFrames
  total_le : s.totalFrames ≤ 1048576
  hint_le : s.searchHint ≤ s.totalFrames
  /-- the counter counts the set -/
  count : s.freeFrames = s.freeSet.card
  /-- bits outside the managed range are set -/
  outside : ∀ f, f < 1048576 → f < s.baseUsableFrame ∨ s.totalFrames ≤ f →
    s.testFrame f = true
  /-- nothing below the hint is free -/
  hint : ∀ f, s.baseUsableFrame ≤ f → f < s.searchHint → s.testFrame f = true

theorem Inv.card_le (hs : s.Inv) : s.freeFrames ≤ 1048576 := by
  rw [hs.count]
  calc s.freeSet.card ≤ (range s.totalFrames).card :=
        card_le_card (filter_subset _ _)
    _ = s.totalFrames := card_range _
    _ ≤ 1048576 := hs.total_le

theorem Inv.freeFrames_eq_zero (hs : s.Inv) : s.freeFrames = 0 ↔ s.freeSet = ∅ := by
  rw [hs.count, card_eq_zero]

theorem Inv.nonempty (hs : s.Inv) (h : s.freeFrames ≠ 0) : s.freeSet.Nonempty := by
  rw [nonempty_iff_ne_empty]
  exact fun he => h (hs.freeFrames_eq_zero.mpr he)

/-! ## Taking a frame -/

@[simp] theorem freeSet_takeFrame (s : Pmm) (f : ℕ) :
    (s.takeFrame f).1.freeSet = s.freeSet.erase f :=
  clearBits_set _ _ _ _

/-- Taking the least free frame keeps the invariant. -/
theorem Inv.takeFrame (hs : s.Inv) (hf : f ∈ s.freeSet)
    (hmin : ∀ g ∈ s.freeSet, f ≤ g) : (s.takeFrame f).1.Inv := by
  obtain ⟨hbase, htotal, hclear⟩ := mem_freeSet.mp hf
  refine ⟨hs.floor, hs.base_le, hs.total_le, htotal.le, ?_, ?_, ?_⟩
  · rw [freeSet_takeFrame, card_erase_of_mem hf, ← hs.count]
    rfl
  · intro g hg hout
    have hne : g ≠ f := by
      rintro rfl
      have hset := hs.outside g hg hout
      rw [hclear] at hset
      cases hset
    exact (Bitmap.test_set_of_ne _ hne).trans (hs.outside g hg hout)
  · -- the new hint is `f`, and `f` was the least free frame
    intro g hg hlt
    have hlt' : g < f := hlt
    have hne : g ≠ f := by omega
    refine (Bitmap.test_set_of_ne _ hne).trans ?_
    rcases hb : s.frameBitmap.test g with _ | _
    · have := hmin g (mem_freeSet.mpr ⟨hg, by omega, hb⟩)
      omega
    · rfl

theorem Inv.scanClear_hint (hs : s.Inv) (h : s.scanClear s.searchHint s.totalFrames = some f) :
    f ∈ s.freeSet ∧ ∀ g ∈ s.freeSet, f ≤ g := by
  obtain ⟨hlo, hhi, hf, hmin⟩ := firstIn_eq_some h
  have hbase : s.baseUsableFrame ≤ f := by
    by_contra hlt
    have := hs.outside f (by have := hs.total_le; omega) (.inl (by omega))
    simp [this] at hf
  refine ⟨mem_freeSet.mpr ⟨hbase, hhi, by simpa using hf⟩, fun g hg => ?_⟩
  obtain ⟨hgb, hgt, hgc⟩ := mem_freeSet.mp hg
  by_contra hlt
  have hset : s.testFrame g = true := by
    rcases lt_or_ge g s.searchHint with hlow | hge
    · exact hs.hint g hgb hlow
    · simpa using hmin g hge (by omega)
  rw [hgc] at hset
  cases hset

/-- A failing first pass means that nothing is free. -/
theorem Inv.scanClear_none (hs : s.Inv)
    (h : s.scanClear s.searchHint s.totalFrames = none) : s.freeSet = ∅ := by
  apply eq_empty_of_forall_notMem
  intro g hg
  obtain ⟨hgb, hgt, hgc⟩ := mem_freeSet.mp hg
  have hset : s.testFrame g = true := by
    rcases lt_or_ge g s.searchHint with hlow | hge
    · exact hs.hint g hgb hlow
    · simpa using firstIn_eq_none h g hge hgt
  rw [hgc] at hset
  cases hset

end Pmm

open Pmm

/-! ## The two operations -/

/-- **Allocation, exhausted**: nothing changes and the result is `0`. -/
theorem pmmAllocFrame_of_empty (hs : s.Inv) (he : s.freeSet = ∅) : pmmAllocFrame s = (s, 0) := by
  unfold pmmAllocFrame
  rw [if_pos (.inl (hs.freeFrames_eq_zero.mpr he))]

/-- **Allocation**: the least free frame is taken. -/
theorem pmmAllocFrame_of_nonempty (hs : s.Inv) (hne : s.freeSet.Nonempty) :
    pmmAllocFrame s = s.takeFrame (s.freeSet.min' hne) := by
  have hcount : s.freeFrames ≠ 0 := fun h =>
    hne.ne_empty (hs.freeFrames_eq_zero.mp h)
  have htotal : s.totalFrames ≠ 0 := by
    have := hs.floor
    have := hs.base_le
    omega
  unfold pmmAllocFrame
  rw [if_neg (by tauto)]
  rcases hscan : s.scanClear s.searchHint s.totalFrames with _ | f
  · exact absurd (hs.scanClear_none hscan) hne.ne_empty
  · obtain ⟨hf, hmin⟩ := hs.scanClear_hint hscan
    have heq : s.freeSet.min' hne = f :=
      le_antisymm (min'_le _ _ hf) (le_min' _ _ _ hmin)
    simp only [heq]

theorem pmmAllocFrame_range (p : Pmm) : (pmmAllocFrame p).1.baseUsableFrame = p.baseUsableFrame ∧
    (pmmAllocFrame p).1.totalFrames = p.totalFrames := by
  simp only [pmmAllocFrame]
  split_ifs
  · exact ⟨rfl, rfl⟩
  · split
    · exact ⟨rfl, rfl⟩
    · split <;> exact ⟨rfl, rfl⟩

theorem pmmAllocFrame_lt (p : Pmm) : (pmmAllocFrame p).2 < 4294967296 := by
  have hzero : 0 < 4294967296 := by decide
  simp only [pmmAllocFrame]
  split_ifs
  · exact hzero
  · split
    · exact Nat.mod_lt _ hzero
    · split
      · exact Nat.mod_lt _ hzero
      · exact hzero

theorem pmmAllocFrame_inv (hs : s.Inv) : (pmmAllocFrame s).1.Inv := by
  rcases s.freeSet.eq_empty_or_nonempty with he | hne
  · rw [pmmAllocFrame_of_empty hs he]
    exact hs
  · rw [pmmAllocFrame_of_nonempty hs hne]
    exact hs.takeFrame (min'_mem _ hne) fun g hg => min'_le _ _ hg

theorem Pmm.Inv.address_eq (hs : s.Inv) (hf : f ∈ s.freeSet) : u32 (f * 4096) = 4096 * f := by
  obtain ⟨-, hlt, -⟩ := mem_freeSet.mp hf
  have := hs.total_le
  unfold u32
  omega

/-- **Release, out of range**: nothing changes. -/
theorem pmmFreeFrame_of_not_mem
    (h : addr / 4096 < s.baseUsableFrame ∨ s.totalFrames ≤ addr / 4096) :
    pmmFreeFrame s addr = s := by
  unfold pmmFreeFrame
  by_cases h0 : addr = 0
  · rw [if_pos h0]
  · rw [if_neg h0, if_pos h]

theorem pmmFreeFrame_of_mem (h : addr / 4096 ∈ s.freeSet) : pmmFreeFrame s addr = s := by
  obtain ⟨hb, ht, hc⟩ := mem_freeSet.mp h
  unfold pmmFreeFrame
  by_cases h0 : addr = 0
  · rw [if_pos h0]
  · simp only [hc]
    rw [if_neg h0, if_neg (by omega), if_pos (by decide)]

/-- Releasing an allocated frame of the range. -/
theorem pmmFreeFrame_of_used (hpos : 0 < s.baseUsableFrame)
    (hb : s.baseUsableFrame ≤ addr / 4096) (ht : addr / 4096 < s.totalFrames)
    (hset : s.testFrame (addr / 4096) = true) : pmmFreeFrame s addr =
      { s.clearFrame (addr / 4096) with
        freeFrames := u32 (s.freeFrames + 1)
        searchHint := if addr / 4096 < s.searchHint then addr / 4096 else s.searchHint } := by
  have h0 : addr ≠ 0 := by
    rintro rfl
    omega
  unfold pmmFreeFrame
  simp only [hset]
  rw [if_neg h0, if_neg (by omega), if_neg (by decide)]

theorem Pmm.Inv.base_pos (hs : s.Inv) : 0 < s.baseUsableFrame :=
  (show 0 < 256 by decide).trans_le hs.floor

theorem freeSet_pmmFreeFrame_of_pos (hpos : 0 < s.baseUsableFrame)
    (hb : s.baseUsableFrame ≤ addr / 4096) (ht : addr / 4096 < s.totalFrames) :
    (pmmFreeFrame s addr).freeSet = insert (addr / 4096) s.freeSet := by
  rcases hset : s.testFrame (addr / 4096) with _ | _
  · have hmem : addr / 4096 ∈ s.freeSet := mem_freeSet.mpr ⟨hb, ht, hset⟩
    rw [pmmFreeFrame_of_mem hmem, insert_eq_of_mem hmem]
  · rw [pmmFreeFrame_of_used hpos hb ht hset]
    exact clearBits_clear _ hb ht

/-- **Release, in range**: the frame joins the set. -/
theorem freeSet_pmmFreeFrame (hs : s.Inv)
    (hb : s.baseUsableFrame ≤ addr / 4096) (ht : addr / 4096 < s.totalFrames) :
    (pmmFreeFrame s addr).freeSet = insert (addr / 4096) s.freeSet :=
  freeSet_pmmFreeFrame_of_pos hs.base_pos hb ht

@[simp] theorem pmmFreeFrame_base (s : Pmm) (addr : ℕ) :
    (pmmFreeFrame s addr).baseUsableFrame = s.baseUsableFrame := by
  simp only [pmmFreeFrame]
  split_ifs <;> rfl

@[simp] theorem pmmFreeFrame_total (s : Pmm) (addr : ℕ) :
    (pmmFreeFrame s addr).totalFrames = s.totalFrames := by
  simp only [pmmFreeFrame]
  split_ifs <;> rfl

/-- A release takes nothing from the set. -/
theorem freeSet_subset_pmmFreeFrame (hpos : 0 < s.baseUsableFrame) (addr : ℕ) :
    s.freeSet ⊆ (pmmFreeFrame s addr).freeSet := by
  by_cases hr : addr / 4096 < s.baseUsableFrame ∨ s.totalFrames ≤ addr / 4096
  · rw [pmmFreeFrame_of_not_mem hr]
  · rw [freeSet_pmmFreeFrame_of_pos hpos (by omega) (by omega)]
    exact subset_insert _ _

/-- A release adds the frame of the address at most. -/
theorem freeSet_pmmFreeFrame_subset (hpos : 0 < s.baseUsableFrame) (addr : ℕ) :
    (pmmFreeFrame s addr).freeSet ⊆ insert (addr / 4096) s.freeSet := by
  by_cases hr : addr / 4096 < s.baseUsableFrame ∨ s.totalFrames ≤ addr / 4096
  · rw [pmmFreeFrame_of_not_mem hr]
    exact subset_insert _ _
  · rw [freeSet_pmmFreeFrame_of_pos hpos (by omega) (by omega)]

theorem pmmFreeFrame_inv (hs : s.Inv) (addr : ℕ) : (pmmFreeFrame s addr).Inv := by
  by_cases hr : addr / 4096 < s.baseUsableFrame ∨ s.totalFrames ≤ addr / 4096
  · rw [pmmFreeFrame_of_not_mem hr]
    exact hs
  have hb : s.baseUsableFrame ≤ addr / 4096 := by omega
  have ht : addr / 4096 < s.totalFrames := by omega
  rcases hset : s.testFrame (addr / 4096) with _ | _
  · rw [pmmFreeFrame_of_mem (mem_freeSet.mpr ⟨hb, ht, hset⟩)]
    exact hs
  have hnot : addr / 4096 ∉ s.freeSet := fun hmem => by
    have := (mem_freeSet.mp hmem).2.2
    rw [hset] at this
    cases this
  have hfree := freeSet_pmmFreeFrame hs hb ht
  have hcard := hs.card_le
  rw [pmmFreeFrame_of_used hs.base_pos hb ht hset] at hfree ⊢
  refine ⟨hs.floor, hs.base_le, hs.total_le, ?_, ?_, ?_, ?_⟩
  · have := hs.hint_le
    dsimp only [clearFrame]
    split <;> omega
  · rw [hfree, card_insert_of_notMem hnot, ← hs.count]
    exact u32_of_lt (by omega)
  · intro g hg hout
    have hne : g ≠ addr / 4096 := by
      rintro rfl
      dsimp only [clearFrame] at hout
      omega
    exact (Bitmap.test_clear_of_ne _ hne).trans (hs.outside g hg hout)
  · -- the hint moves down to the released frame, so nothing below it is free
    intro g hg hlt
    dsimp only [clearFrame] at hlt
    have hne : g ≠ addr / 4096 := by
      rintro rfl
      split at hlt <;> omega
    refine (Bitmap.test_clear_of_ne _ hne).trans (hs.hint g hg ?_)
    split at hlt <;> omega

/-- A release gives one frame at most. -/
theorem card_pmmFreeFrame_le (hp : p.Inv) (addr : ℕ) :
    (pmmFreeFrame p addr).freeSet.card ≤ p.freeSet.card + 1 :=
  (card_le_card (freeSet_pmmFreeFrame_subset hp.base_pos addr)).trans
    (card_insert_le _ _)

theorem card_pmmAllocFrame (hp : p.Inv) : (pmmAllocFrame p).1.freeSet.card = p.freeSet.card - 1 ∧
      ((pmmAllocFrame p).2 = 0 ↔ p.freeSet = ∅) := by
  rcases p.freeSet.eq_empty_or_nonempty with he | hne
  · rw [pmmAllocFrame_of_empty hp he, he]
    exact ⟨rfl, iff_of_true rfl rfl⟩
  · have hmem := min'_mem _ hne
    have haddr := hp.address_eq hmem
    have hfloor := hp.floor
    have hbase := (mem_freeSet.mp hmem).1
    rw [pmmAllocFrame_of_nonempty hp hne, freeSet_takeFrame, card_erase_of_mem hmem]
    refine ⟨rfl, iff_of_false ?_ hne.ne_empty⟩
    change u32 (p.freeSet.min' hne * 4096) ≠ 0
    omega

/-- Releasing twice is releasing once. -/
theorem pmmFreeFrame_idem (hs : s.Inv) (addr : ℕ) :
    pmmFreeFrame (pmmFreeFrame s addr) addr = pmmFreeFrame s addr := by
  by_cases hr : addr / 4096 < s.baseUsableFrame ∨ s.totalFrames ≤ addr / 4096
  · rw [pmmFreeFrame_of_not_mem hr, pmmFreeFrame_of_not_mem hr]
  · apply pmmFreeFrame_of_mem
    rw [freeSet_pmmFreeFrame hs (by omega) (by omega)]
    exact mem_insert_self _ _

/-! ## Initialization

While `pmm_init` releases regions the hint stays at the base, so the hint part
of the invariant is vacuous and only the count and the outside bits matter. -/

namespace Pmm

/-- The invariant during initialization. -/
structure InitInv (s : Pmm) : Prop extends Inv s where
  hint_eq : s.searchHint = s.baseUsableFrame

theorem InitInv.releaseFrame (hs : s.InitInv) (hf : f < s.totalFrames) :
    (s.releaseFrame f).InitInv ∧ (s.releaseFrame f).totalFrames = s.totalFrames := by
  unfold Pmm.releaseFrame
  by_cases hb : f < s.baseUsableFrame
  · rw [if_pos hb]
    exact ⟨hs, rfl⟩
  rw [if_neg hb]
  rcases hset : s.testFrame f with _ | _
  · exact ⟨hs, rfl⟩
  have hnot : f ∉ s.freeSet := fun hmem => by
    have := (mem_freeSet.mp hmem).2.2
    rw [hset] at this
    cases this
  have hcard := hs.card_le
  rw [if_neg (by decide)]
  refine ⟨⟨⟨hs.floor, hs.base_le, hs.total_le, hs.hint_le, ?_, ?_, ?_⟩, hs.hint_eq⟩, rfl⟩
  · have hins : clearBits (s.frameBitmap.clear f) s.baseUsableFrame s.totalFrames =
        insert f s.freeSet := clearBits_clear _ (by omega) hf
    change u32 (s.freeFrames + 1) =
      (clearBits (s.frameBitmap.clear f) s.baseUsableFrame s.totalFrames).card
    rw [hins, card_insert_of_notMem hnot, ← hs.count]
    exact u32_of_lt (by omega)
  · intro g hg hout
    have hne : g ≠ f := by
      rintro rfl
      change g < s.baseUsableFrame ∨ s.totalFrames ≤ g at hout
      omega
    exact (Bitmap.test_clear_of_ne _ hne).trans (hs.outside g hg hout)
  · intro g hg hlt
    change s.baseUsableFrame ≤ g at hg
    change g < s.searchHint at hlt
    have := hs.hint_eq
    omega

theorem InitInv.foldl_releaseFrame :
    ∀ {s : Pmm}, s.InitInv → (∀ f ∈ l, f < s.totalFrames) →
      (l.foldl Pmm.releaseFrame s).InitInv := by
  induction l with
  | nil => exact fun hs _ => hs
  | cons f l ih =>
    intro s hs hl
    obtain ⟨hs', htotal⟩ := hs.releaseFrame (hl f (List.mem_cons_self ..))
    refine ih hs' fun g hg => ?_
    rw [htotal]
    exact hl g (List.mem_cons_of_mem _ hg)

theorem InitInv.releaseRange (hs : s.InitInv) {start stop : ℕ} (hstop : u32 stop ≤ s.totalFrames) :
    ((List.range' (u32 start) (u32 stop - u32 start)).foldl Pmm.releaseFrame s).InitInv := by
  apply hs.foldl_releaseFrame
  intro f hf
  rw [List.mem_range'_1] at hf
  omega

theorem InitInv.releaseRegion (hs : s.InitInv) (base length : ℕ) :
    (s.releaseRegion base length).InitInv := by
  unfold Pmm.releaseRegion
  dsimp only
  split_ifs with _ _ _ hstop
  · exact hs
  · exact hs
  · exact hs
  · exact hs.releaseRange (Nat.mod_le _ _)
  · exact hs.releaseRange ((Nat.mod_le _ _).trans (not_lt.mp hstop))

end Pmm

/-- The invariant rule for walks over the memory map. -/
theorem mmapWalk_induct {α : Type} {body : α → MmapEntry → α} {P : α → Prop}
    (hbody : ∀ acc entry, P acc → P (body acc entry)) :
    ∀ {offset : ℕ} {acc r : α}, P acc → mmapWalk mb body fuel offset acc = some r → P r := by
  induction fuel with
  | zero => intro offset acc r _ h; cases h
  | succ fuel ih =>
    intro offset acc r hacc h
    unfold mmapWalk at h
    by_cases hlt : offset < mb.mmapLength
    · rw [if_pos hlt] at h
      exact ih (hbody _ _ hacc) h
    · rw [if_neg hlt] at h
      cases h
      exact hacc

theorem processAvailableRegions_initInv {r : Pmm}
    (hs : s.InitInv) (h : processAvailableRegions fuel s mbInfo = some r) : r.InitInv := by
  unfold processAvailableRegions at h
  rcases mbInfo with _ | mb
  · cases h
    exact hs.releaseRegion _ _
  · dsimp only at h
    by_cases h0 : mb.mmapLength = 0
    · rw [if_pos h0] at h
      cases h
      exact hs.releaseRegion _ _
    · rw [if_neg h0] at h
      refine mmapWalk_induct ?_ hs h
      intro acc entry hacc
      by_cases ht : entry.type = 1
      · rw [if_pos ht]
        exact hacc.releaseRegion _ _
      · rw [if_neg ht]
        exact hacc

theorem initInv_reserved {total : ℕ} (hfloor : 256 ≤ base) (hle : base ≤ total)
    (htotal : total ≤ 1048576) : InitInv ⟨total, 0, base, base, fun _ => 0xFF#8⟩ := by
  have hset : ∀ f, Bitmap.test (fun _ => 0xFF#8) f = true := by
    intro f
    have h8 : f % 8 < 8 := Nat.mod_lt _ (by decide)
    have hall : ∀ k < 8, (0xFF#8).getLsbD k = true := by decide
    rw [Bitmap.test_eq]
    exact hall _ h8
  refine ⟨⟨hfloor, hle, htotal, hle, ?_, fun f _ _ => hset f, fun f _ _ => hset f⟩, rfl⟩
  refine (card_eq_zero.mpr (eq_empty_of_forall_notMem fun f hf => ?_)).symm
  have := (mem_freeSet.mp hf).2.2
  change Bitmap.test (fun _ => 0xFF#8) f = false at this
  rw [hset f] at this
  cases this

theorem reserveFloor_bounds (kernelEnd : ℕ) :
    256 ≤ reserveFloor kernelEnd ∧ reserveFloor kernelEnd ≤ 1048576 := by
  have hmin : alignFrameUp 0x00100000 = 256 := by decide
  have hle : alignFrameUp kernelEnd ≤ 1048576 := by
    unfold alignFrameUp u32
    omega
  unfold reserveFloor
  rw [hmin]
  dsimp only
  split <;> omega

theorem clampFrames_bounds (hbase : base ≤ 1048576) (maxAddr : ℕ) :
    base ≤ clampFrames base maxAddr ∧ clampFrames base maxAddr ≤ 1048576 := by
  simp only [clampFrames, pmmMaxFrames]
  split_ifs <;> omega

/-- `pmm_init` leaves the hint at the base. -/
theorem pmmInit_initInv (h : pmmInit fuel kernelEnd mbInfo = some s) : s.InitInv := by
  unfold pmmInit at h
  obtain ⟨highest, -, h⟩ := Option.bind_eq_some_iff.mp h
  obtain ⟨hfloor, hmax⟩ := reserveFloor_bounds kernelEnd
  exact processAvailableRegions_initInv (initInv_reserved hfloor
    (clampFrames_bounds hmax _).1 (clampFrames_bounds hmax _).2) h

theorem pmmInit_inv (h : pmmInit fuel kernelEnd mbInfo = some s) : s.Inv :=
  (pmmInit_initInv h).toInv

/-! ### Without a memory map -/

namespace Pmm

/-- What `release_frame` adds. -/
theorem mem_freeSet_releaseFrame (hf : f < s.totalFrames) :
    (∀ g, g ∈ (s.releaseFrame f).freeSet ↔ g ∈ s.freeSet ∨ g = f ∧ s.baseUsableFrame ≤ g) ∧
      (s.releaseFrame f).baseUsableFrame = s.baseUsableFrame ∧
      (s.releaseFrame f).totalFrames = s.totalFrames := by
  rw [releaseFrame]
  by_cases hb : f < s.baseUsableFrame
  · rw [if_pos hb]
    refine ⟨fun g => ⟨.inl, fun hg => hg.resolve_right ?_⟩, rfl, rfl⟩
    rintro ⟨rfl, hle⟩
    omega
  rw [if_neg hb]
  rcases hset : s.testFrame f with _ | _
  · refine ⟨fun g => ⟨.inl, ?_⟩, rfl, rfl⟩
    rintro (hg | ⟨rfl, hle⟩)
    · exact hg
    · exact mem_freeSet.mpr ⟨hle, hf, hset⟩
  · refine ⟨fun g => ?_, rfl, rfl⟩
    have hins : freeSet { s.clearFrame f with freeFrames := u32 (s.freeFrames + 1) } =
        insert f s.freeSet := clearBits_clear _ (not_lt.mp hb) hf
    change g ∈ freeSet { s.clearFrame f with freeFrames := u32 (s.freeFrames + 1) } ↔ _
    rw [hins, mem_insert]
    constructor
    · rintro (rfl | hg)
      · exact .inr ⟨rfl, not_lt.mp hb⟩
      · exact .inl hg
    · rintro (hg | ⟨rfl, -⟩)
      · exact .inr hg
      · exact .inl rfl

theorem mem_freeSet_releaseFrames : ∀ {s : Pmm}, (∀ f ∈ l, f < s.totalFrames) →
      (∀ g, g ∈ (l.foldl Pmm.releaseFrame s).freeSet ↔
        g ∈ s.freeSet ∨ g ∈ l ∧ s.baseUsableFrame ≤ g) ∧
      (l.foldl Pmm.releaseFrame s).baseUsableFrame = s.baseUsableFrame ∧
      (l.foldl Pmm.releaseFrame s).totalFrames = s.totalFrames := by
  induction l with
  | nil => exact fun _ => ⟨fun g => by simp, rfl, rfl⟩
  | cons f l ih =>
    intro s hl
    obtain ⟨hmem, hbase, htotal⟩ := mem_freeSet_releaseFrame (hl f List.mem_cons_self)
    obtain ⟨hmem', hbase', htotal'⟩ := ih fun g hg =>
      htotal ▸ hl g (List.mem_cons_of_mem f hg)
    refine ⟨fun g => ?_, hbase'.trans hbase, htotal'.trans htotal⟩
    rw [List.foldl_cons, hmem', hmem, hbase, List.mem_cons, or_assoc, ← or_and_right]

/-- **`release_region`** adds the frames of the managed range that the region reaches into, both
ends rounded outward. -/
theorem mem_freeSet_releaseRegion (htotal : s.totalFrames ≤ 1048576) (b length : ℕ) :
    (∀ g, g ∈ (s.releaseRegion b length).freeSet ↔ g ∈ s.freeSet ∨
      length ≠ 0 ∧ s.baseUsableFrame ≤ g ∧ g < s.totalFrames ∧ b / 4096 ≤ g ∧
        g < u64 (b + length + 4096 - 1) / 4096) ∧
      (s.releaseRegion b length).baseUsableFrame = s.baseUsableFrame ∧
      (s.releaseRegion b length).totalFrames = s.totalFrames := by
  rw [releaseRegion]
  dsimp only
  generalize hstop : u64 (b + length + 4096 - 1) / 4096 = stop
  by_cases hzero : length = 0 ∨ s.totalFrames = 0
  · rw [if_pos hzero]
    refine ⟨fun g => ⟨.inl, fun hg => hg.resolve_right ?_⟩, rfl, rfl⟩
    omega
  rw [if_neg hzero]
  by_cases hnone : b / 4096 ≥ stop ∨ b / 4096 ≥ s.totalFrames
  · have hsame : (if b / 4096 ≥ stop then s else if b / 4096 ≥ s.totalFrames then s else
        (List.range' (u32 (b / 4096)) (u32 (if stop > s.totalFrames then s.totalFrames else stop) -
          u32 (b / 4096))).foldl releaseFrame s) = s := by
      rcases hnone with h1 | h2
      · rw [if_pos h1]
      · rw [if_pos h2, ite_self]
    rw [hsame]
    refine ⟨fun g => ⟨.inl, fun hg => hg.resolve_right ?_⟩, rfl, rfl⟩
    omega
  rw [if_neg (by omega), if_neg (by omega)]
  have hle : (if stop > s.totalFrames then s.totalFrames else stop) ≤ s.totalFrames := by
    split_ifs <;> omega
  have hiff : ∀ g, g < (if stop > s.totalFrames then s.totalFrames else stop) ↔
      g < s.totalFrames ∧ g < stop := by
    intro g
    split_ifs <;> omega
  generalize (if stop > s.totalFrames then s.totalFrames else stop) = stop' at hle hiff ⊢
  rw [u32_of_lt (show b / 4096 < 4294967296 by omega),
    u32_of_lt (show stop' < 4294967296 by omega)]
  obtain ⟨hmem, hbase, htot⟩ := mem_freeSet_releaseFrames (s := s)
    (l := List.range' (b / 4096) (stop' - b / 4096)) fun f hf => by
      rw [List.mem_range'_1] at hf
      omega
  refine ⟨fun g => ?_, hbase, htot⟩
  rw [hmem, List.mem_range'_1]
  refine or_congr_right ?_
  have := hiff g
  omega

end Pmm

theorem pmmInit_of_noMap (hmb : mb.mmapLength = 0) (fuel kernelEnd : ℕ) :
    ∃ p, pmmInit fuel kernelEnd (some mb) = some p ∧ p.baseUsableFrame = reserveFloor kernelEnd ∧
      p.totalFrames =
        clampFrames (reserveFloor kernelEnd) (u64 ((mb.memLower + mb.memUpper) * 1024)) ∧
      p.freeSet = Finset.Ico p.baseUsableFrame p.totalFrames := by
  obtain ⟨hfloor, hmax⟩ := reserveFloor_bounds kernelEnd
  set base := reserveFloor kernelEnd with hbase
  obtain ⟨hle, htotal⟩ := clampFrames_bounds hmax (u64 ((mb.memLower + mb.memUpper) * 1024))
  set total := clampFrames base (u64 ((mb.memLower + mb.memUpper) * 1024)) with htot
  have hs := initInv_reserved hfloor hle htotal
  have hempty := hs.freeFrames_eq_zero.mp rfl
  have hrun : pmmInit fuel kernelEnd (some mb) = some (releaseRegion
      ⟨total, 0, base, base, fun _ => 0xFF#8⟩ (base * 4096) ((total - base) * 4096)) := by
    simp only [pmmInit, highestAddressFromMmap, processAvailableRegions, hmb, if_true]
    rfl
  obtain ⟨hmem, hb, ht⟩ := mem_freeSet_releaseRegion
    (s := ⟨total, 0, base, base, fun _ => 0xFF#8⟩) htotal (base * 4096) ((total - base) * 4096)
  refine ⟨_, hrun, hb, ht, ?_⟩
  rw [hb, ht]
  ext g
  rw [hmem, hempty, mem_Ico, u64]
  dsimp only
  have hno : g ∉ (∅ : Finset ℕ) := notMem_empty g
  constructor
  · rintro (hg | ⟨-, h1, h2, -⟩)
    · exact absurd hg hno
    · exact ⟨h1, h2⟩
  · rintro ⟨h1, h2⟩
    exact .inr ⟨by omega, h1, h2, by omega, by omega⟩

/-! ## Whole runs -/

/-- The calls clients make. -/
inductive PmmOp : Type where
  /-- `pmm_alloc_frame()` -/
  | alloc : PmmOp
  /-- `pmm_free_frame(addr)` -/
  | free : ℕ → PmmOp

/-- The state after a call. -/
def PmmOp.run (s : Pmm) : PmmOp → Pmm
  | .alloc => (pmmAllocFrame s).1
  | .free addr => pmmFreeFrame s addr

/-- States reached from some `pmm_init` by some sequence of calls. -/
def PmmReachable (s : Pmm) : Prop :=
  ∃ (fuel kernelEnd : ℕ) (mbInfo : Option MultibootInfo) (s₀ : Pmm) (ops : List PmmOp),
    pmmInit fuel kernelEnd mbInfo = some s₀ ∧ s = ops.foldl PmmOp.run s₀

theorem PmmOp.run_inv (hs : s.Inv) (op : PmmOp) : (op.run s).Inv := by
  cases op with
  | alloc => exact pmmAllocFrame_inv hs
  | free addr => exact pmmFreeFrame_inv hs addr

theorem PmmReachable.inv (h : PmmReachable s) : s.Inv := by
  obtain ⟨fuel, kernelEnd, mbInfo, s0, ops, hinit, rfl⟩ := h
  have hs0 := pmmInit_inv hinit
  clear hinit
  induction ops generalizing s0 with
  | nil => exact hs0
  | cons op ops ih => exact ih _ (op.run_inv hs0)

/-- **The frame manager is a set allocator.** The counter is the number of free frames, the bits
outside the managed range are set and the hint skips no free frame; allocation removes and returns
the least one, or returns `0`; release adds a frame of the range, is idempotent, and ignores other
addresses. -/
theorem pmm_refines_set {s : Pmm} (h : PmmReachable s) : s.freeFrames = s.freeSet.card ∧
    (∀ f < pmmMaxFrames, f < s.baseUsableFrame ∨ s.totalFrames ≤ f → s.testFrame f = true) ∧
    (∀ f, s.baseUsableFrame ≤ f → f < s.searchHint → f ∉ s.freeSet) ∧ (∀ hne : s.freeSet.Nonempty,
      (pmmAllocFrame s).2 = 4096 * s.freeSet.min' hne ∧
      (pmmAllocFrame s).1.freeSet = s.freeSet.erase (s.freeSet.min' hne)) ∧
    ((pmmAllocFrame s).2 = 0 ↔ s.freeSet = ∅) ∧ (s.freeSet = ∅ → (pmmAllocFrame s).1 = s) ∧
    (pmmAllocFrame s).2 = ((s.scanClear s.baseUsableFrame s.totalFrames).map (4096 * ·)).getD 0 ∧
    (0 < s.freeFrames → (pmmAllocFrame s).2 ≠ 0) ∧
    (∀ addr, s.baseUsableFrame ≤ addr / 4096 → addr / 4096 < s.totalFrames →
      (pmmFreeFrame s addr).freeSet = insert (addr / 4096) s.freeSet) ∧
    (∀ addr, addr / 4096 < s.baseUsableFrame ∨ s.totalFrames ≤ addr / 4096 →
      pmmFreeFrame s addr = s) ∧
    (∀ addr, pmmFreeFrame (pmmFreeFrame s addr) addr = pmmFreeFrame s addr) := by
  have hs := h.inv
  have halloc : ∀ hne : s.freeSet.Nonempty, (pmmAllocFrame s).2 = 4096 * s.freeSet.min' hne := by
    intro hne
    rw [pmmAllocFrame_of_nonempty hs hne]
    exact hs.address_eq (min'_mem _ hne)
  have hzero : (pmmAllocFrame s).2 = 0 ↔ s.freeSet = ∅ := by
    constructor
    · intro h0
      by_contra hne
      have hne' := nonempty_iff_ne_empty.mpr hne
      have hmin := (mem_freeSet.mp (min'_mem _ hne')).1
      have := hs.floor
      rw [halloc hne'] at h0
      omega
    · intro he
      rw [pmmAllocFrame_of_empty hs he]
  refine ⟨hs.count, hs.outside, ?_, fun hne => ⟨halloc hne, ?_⟩, hzero, ?_, ?_, ?_,
    fun addr hb ht => freeSet_pmmFreeFrame hs hb ht, fun addr => pmmFreeFrame_of_not_mem,
    pmmFreeFrame_idem hs⟩
  · intro f hb hlt hf
    have := hs.hint f hb hlt
    rw [(mem_freeSet.mp hf).2.2] at this
    cases this
  · rw [pmmAllocFrame_of_nonempty hs hne, freeSet_takeFrame]
  · intro he
    rw [pmmAllocFrame_of_empty hs he]
  · rcases s.freeSet.eq_empty_or_nonempty with he | hne
    · have hscan : s.scanClear s.baseUsableFrame s.totalFrames = none := by
        apply firstIn_of_forall
        intro f hb ht
        by_contra hf
        have : f ∈ s.freeSet := mem_freeSet.mpr ⟨hb, ht, by simpa using hf⟩
        rw [he] at this
        exact absurd this (notMem_empty f)
      rw [hscan, hzero.mpr he]
      rfl
    · obtain ⟨hb, ht, hc⟩ := mem_freeSet.mp (min'_mem _ hne)
      have hscan : s.scanClear s.baseUsableFrame s.totalFrames = some (s.freeSet.min' hne) := by
        refine firstIn_of_least hb ht (by simp [hc]) fun f hfb hlt => ?_
        by_contra hf
        have hmem : f ∈ s.freeSet := mem_freeSet.mpr ⟨hfb, by omega, by simpa using hf⟩
        have := min'_le _ _ hmem
        omega
      rw [hscan, halloc hne]
      rfl
  · intro hpos h0
    rw [hs.count, hzero.mp h0, card_empty] at hpos
    omega

/-- Four frames above the first MiB, one of them taken and two released (one of
these out of range). -/
theorem pmm_refines_set_small :
    ∃ s : Pmm, PmmReachable s ∧ s.freeFrames = s.freeSet.card ∧ s.freeFrames = 3 := by
  let mb : MultibootInfo := ⟨1024, 16, 0, fun _ => ⟨0, 0, 0, 0⟩⟩
  have hinit : (pmmInit 1 0 (some mb)).isSome = true := by decide
  obtain ⟨s0, hs0⟩ := Option.isSome_iff_exists.mp hinit
  have hr : PmmReachable ([PmmOp.alloc, .free 0x103000, .free 0x5000].foldl PmmOp.run s0) :=
    ⟨1, 0, some mb, s0, _, hs0, rfl⟩
  refine ⟨_, hr, (pmm_refines_set hr).1, ?_⟩
  have hrun : ((pmmInit 1 0 (some mb)).map fun s =>
      ([PmmOp.alloc, .free 0x103000, .free 0x5000].foldl PmmOp.run s).freeFrames) = some 3 := by
    decide
  rw [hs0] at hrun
  exact Option.some.inj hrun

end PenOS
