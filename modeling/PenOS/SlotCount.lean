import PenOS.KernelFrames
import Mathlib.Data.Set.Function

/-!
# Slots and the words that name them

`swap_bitmap` marks the slots in use, the page-table words with `PAGE_SWAPPED` say for what; a word
is given by the frame of its table and an index. `SlotsExact`: the two are in bijection. The paging
code writes one word at a time (`WordSet`).
-/

namespace PenOS

open Finset

variable {D : Type}
variable {d flags i j port slot virt : ℕ}

/-- The slots marked in `swap_bitmap`. -/
def Swap.usedSlots (s : Swap D) : Finset ℕ :=
  (Finset.range swapSizePages).filter fun slot => s.swapBitmap.test slot = true

theorem Swap.mem_usedSlots {s : Swap D} :
    slot ∈ s.usedSlots ↔ slot < swapSizePages ∧ s.swapBitmap.test slot = true := by
  rw [usedSlots, mem_filter, mem_range]

theorem SwapWritten.usedSlots [Disk D] {s s' : Swap D} {buffer : ℕ → UInt8}
    (h : SwapWritten s s' buffer slot port) :
    s'.usedSlots = insert slot s.usedSlots ∧ slot ∉ s.usedSlots := by
  constructor
  · ext x
    rw [mem_insert, Swap.mem_usedSlots, Swap.mem_usedSlots, h.result, Bitmap.test_set,
      Bool.or_eq_true, decide_eq_true_eq]
    constructor
    · rintro ⟨hlt, rfl | hx⟩
      · exact Or.inl rfl
      · exact Or.inr ⟨hlt, hx⟩
    · rintro (rfl | ⟨hlt, hx⟩)
      · exact ⟨h.slot_lt, Or.inl rfl⟩
      · exact ⟨hlt, Or.inr hx⟩
  · rw [Swap.mem_usedSlots, h.was_free]
    exact fun hx => Bool.false_ne_true hx.2

theorem Swap.usedSlots_swapFree {s : Swap D} (h : slot ∈ s.usedSlots) :
    (s.swapFree slot).usedSlots = s.usedSlots.erase slot := by
  ext x
  rw [mem_erase, mem_usedSlots, mem_usedSlots, swapFree, if_pos (mem_usedSlots.mp h).1]
  change x < swapSizePages ∧ (s.swapBitmap.clear slot).test x = true ↔ _
  by_cases hx : x = slot
  · subst hx
    simp
  · rw [Bitmap.test_clear_of_ne _ hx]
    simp only [hx, ne_eq, not_false_eq_true, true_and]

namespace Paging

variable {s s' : Paging D} {live live' : List ℕ} {own own' : ℕ → Role}

/-! ## Counting words -/

/-- The frames of the page tables below the directories. -/
def pageTables (s : Paging D) (live : List ℕ) : Finset ℕ :=
  live.toFinset.biUnion fun d =>
    ((Finset.range 1023).filter fun i => s.entry d i % 2 = 1).image fun i => s.entry d i / 4096

/-- The words of pages in the swap area, by table and index. -/
def swappedWords (s : Paging D) (live : List ℕ) : Finset (ℕ × ℕ) :=
  (s.pageTables live ×ˢ Finset.range 1024).filter fun w => Swapped (s.entry (w.1 * 4096) w.2)

/-- The slot a word names. -/
def slotOf (s : Paging D) (w : ℕ × ℕ) : ℕ := s.entry (w.1 * 4096) w.2 / 4096

/-- The words of pages in the swap area and the slots in use correspond. -/
def SlotsExact (s : Paging D) (live : List ℕ) : Prop :=
  Set.BijOn s.slotOf (s.swappedWords live) s.swap.usedSlots

theorem SlotsExact.card (h : s.SlotsExact live) :
    s.swap.usedSlots.card = (s.swappedWords live).card := (Set.BijOn.finsetCard_eq _ h).symm

theorem Swapped.entry_present (h : Swapped (s.pte d i j)) : s.entry d i % 2 = 1 := by
  by_contra hp
  rw [pte_of_absent hp] at h
  exact absurd h.2 (by decide)

theorem slotOf_table (hp : s.entry d i % 2 = 1) (j : ℕ) :
    s.slotOf (s.entry d i / 4096, j) = s.pte d i j / 4096 := by
  rw [slotOf, pte_of_present hp]

theorem mem_swappedWords {w : ℕ × ℕ} : w ∈ s.swappedWords live ↔
    ∃ d ∈ live, ∃ i < 1023, ∃ j < 1024, Swapped (s.pte d i j) ∧ w = (s.entry d i / 4096, j) := by
  obtain ⟨t, j⟩ := w
  simp only [swappedWords, pageTables, mem_filter, mem_product, mem_biUnion,
    List.mem_toFinset, mem_image, mem_range, Prod.mk.injEq]
  constructor
  · rintro ⟨⟨⟨d, hd, i, ⟨hi, hp⟩, rfl⟩, hj⟩, hsw⟩
    rw [← pte_of_present hp] at hsw
    exact ⟨d, hd, i, hi, j, hj, hsw, rfl, rfl⟩
  · rintro ⟨d, hd, i, hi, j', hj, hsw, rfl, rfl⟩
    have hp := hsw.entry_present
    rw [pte_of_present hp] at hsw
    exact ⟨⟨⟨d, hd, i, ⟨hi, hp⟩, rfl⟩, hj⟩, hsw⟩

theorem not_mem_swappedWords (hp : s.entry d i % 2 = 1)
    (h : ¬ Swapped (s.pte d i j)) : (s.entry d i / 4096, j) ∉ s.swappedWords live := by
  rw [mem_swappedWords]
  rintro ⟨d', -, i', -, j', -, hsw, heq⟩
  obtain ⟨ht, rfl⟩ := Prod.mk.inj heq
  rw [pte_of_present hsw.entry_present, ← ht, ← pte_of_present hp] at hsw
  exact h hsw

theorem SlotsExact.kept (hx : s.SlotsExact live)
    (hmem : ∀ w, w ∈ s'.swappedWords live' ↔ w ∈ s.swappedWords live)
    (hslot : ∀ w ∈ s.swappedWords live, s'.slotOf w = s.slotOf w)
    (hused : s'.swap.usedSlots = s.swap.usedSlots) : s'.SlotsExact live' := by
  have hset : s'.swappedWords live' = s.swappedWords live := Finset.ext hmem
  rw [SlotsExact, hset, hused]
  exact Set.BijOn.congr hx fun w hw => (hslot w hw).symm

/-- Only memory and the bitmap count. -/
theorem SlotsExact.congr (hx : s.SlotsExact live) (hmem : s'.mem = s.mem)
    (hbits : s'.swap.swapBitmap = s.swap.swapBitmap) : s'.SlotsExact live := by
  refine hx.kept (fun w => ?_) (fun w _ => ?_) ?_
  · simp only [mem_swappedWords, pte_congr hmem, entry_congr hmem]
  · simp only [slotOf, entry_congr hmem]
  · simp only [Swap.usedSlots, hbits]

/-! ## Writing a word -/

/-- The word at `j₀` of the table in frame `t₀` is `v` now; there may be new tables. -/
structure WordSet (s s' : Paging D) (live : List ℕ) (t₀ j₀ v : ℕ) : Prop where
  tables : ∀ d ∈ live, ∀ i < 1023, s.entry d i % 2 = 1 →
    s'.entry d i % 2 = 1 ∧ s'.entry d i / 4096 = s.entry d i / 4096
  pte : ∀ d ∈ live, ∀ i < 1023, ∀ j < 1024, s'.pte d i j =
    if s'.entry d i % 2 = 1 ∧ s'.entry d i / 4096 = t₀ ∧ j = j₀ then v else s.pte d i j

namespace WordSet

variable {t₀ j₀ v : ℕ} {w : ℕ × ℕ}

/-- The other words are those there were. -/
theorem mem_iff (h : s.WordSet s' live t₀ j₀ v) (hw : w ≠ (t₀, j₀)) :
    w ∈ s'.swappedWords live ↔ w ∈ s.swappedWords live := by
  simp only [mem_swappedWords]
  constructor
  · rintro ⟨d, hd, i, hi, j, hj, hsw, rfl⟩
    have hold : s'.pte d i j = s.pte d i j := (h.pte d hd i hi j hj).trans
      (if_neg fun hc => hw (Prod.ext hc.2.1 hc.2.2))
    rw [hold] at hsw
    exact ⟨d, hd, i, hi, j, hj, hsw,
      Prod.ext (h.tables d hd i hi hsw.entry_present).2 rfl⟩
  · rintro ⟨d, hd, i, hi, j, hj, hsw, rfl⟩
    obtain ⟨-, hframe⟩ := h.tables d hd i hi hsw.entry_present
    have hold : s'.pte d i j = s.pte d i j := (h.pte d hd i hi j hj).trans
      (if_neg fun hc => hw (Prod.ext (hframe.symm.trans hc.2.1) hc.2.2))
    rw [← hold] at hsw
    exact ⟨d, hd, i, hi, j, hj, hsw, Prod.ext hframe.symm rfl⟩

theorem slotOf_eq (h : s.WordSet s' live t₀ j₀ v) (hw : w ≠ (t₀, j₀))
    (hmem : w ∈ s.swappedWords live) : s'.slotOf w = s.slotOf w := by
  obtain ⟨d, hd, i, hi, j, hj, hsw, rfl⟩ := mem_swappedWords.mp hmem
  obtain ⟨hp, hframe⟩ := h.tables d hd i hi hsw.entry_present
  rw [slotOf_table hsw.entry_present, ← hframe, slotOf_table hp, h.pte d hd i hi j hj,
    if_neg fun hc => hw (Prod.ext (hframe.symm.trans hc.2.1) hc.2.2)]

/-- The word itself. -/
theorem not_mem (h : s.WordSet s' live t₀ j₀ v) (hv : ¬ Swapped v) :
    (t₀, j₀) ∉ s'.swappedWords live := by
  rw [mem_swappedWords]
  rintro ⟨d, hd, i, hi, j, hj, hsw, heq⟩
  cases heq
  have hword := (h.pte d hd i hi _ hj).trans (if_pos ⟨hsw.entry_present, rfl, rfl⟩)
  exact hv (hword ▸ hsw)

end WordSet

section

variable {t₀ j₀ v : ℕ}

/-- No page in the swap area is involved. -/
theorem SlotsExact.wordSet (hx : s.SlotsExact live) (h : s.WordSet s' live t₀ j₀ v)
    (hold : (t₀, j₀) ∉ s.swappedWords live) (hv : ¬ Swapped v)
    (hused : s'.swap.usedSlots = s.swap.usedSlots) : s'.SlotsExact live := by
  have hne : ∀ w ∈ s.swappedWords live, w ≠ (t₀, j₀) := fun w hw heq => hold (heq ▸ hw)
  refine hx.kept (fun w => ?_) (fun w hw => h.slotOf_eq (hne w hw) hw) hused
  by_cases hw : w = (t₀, j₀)
  · subst hw
    exact iff_of_false (h.not_mem hv) hold
  · exact h.mem_iff hw

theorem SlotsExact.wordOut (hx : s.SlotsExact live) (h : s.WordSet s' live t₀ j₀ v)
    (hold : (t₀, j₀) ∉ s.swappedWords live) (hnew : (t₀, j₀) ∈ s'.swappedWords live)
    (hused : s'.swap.usedSlots = insert (s'.slotOf (t₀, j₀)) s.swap.usedSlots)
    (hfree : s'.slotOf (t₀, j₀) ∉ s.swap.usedSlots) : s'.SlotsExact live := by
  have hset : s'.swappedWords live = insert (t₀, j₀) (s.swappedWords live) := by
    ext w
    by_cases hw : w = (t₀, j₀)
    · subst hw
      exact iff_of_true hnew (mem_insert_self _ _)
    · rw [h.mem_iff hw, mem_insert, or_iff_right hw]
  have hx' : Set.BijOn s'.slotOf (s.swappedWords live) s.swap.usedSlots :=
    Set.BijOn.congr hx fun w hw => (h.slotOf_eq (fun heq => hold (heq ▸ hw)) hw).symm
  rw [SlotsExact, hset, hused, coe_insert, coe_insert]
  exact hx'.insert hfree

theorem SlotsExact.wordIn (hx : s.SlotsExact live) (h : s.WordSet s' live t₀ j₀ v)
    (hold : (t₀, j₀) ∈ s.swappedWords live) (hv : ¬ Swapped v)
    (hused : s'.swap.usedSlots = s.swap.usedSlots.erase (s.slotOf (t₀, j₀))) :
    s'.SlotsExact live := by
  have hset : s'.swappedWords live = (s.swappedWords live).erase (t₀, j₀) := by
    ext w
    by_cases hw : w = (t₀, j₀)
    · subst hw
      exact iff_of_false (h.not_mem hv) (notMem_erase _ _)
    · rw [h.mem_iff hw, mem_erase, and_iff_right hw]
  rw [SlotsExact, hset, hused, coe_erase, coe_erase]
  exact (Set.BijOn.sdiff_singleton hx hold).congr fun w hw =>
    (h.slotOf_eq hw.2 hw.1).symm

end

/-! ## The operations -/

/-- Writing a word of a table. -/
theorem TableInv.wordSet (hs : s.TableInv live own) {d0 i0 k : ℕ} (hd0 : d0 ∈ live)
    (hi0 : i0 < 1023) (hk : k < 1024) (hp : s.entry d0 i0 % 2 = 1) (v : ℕ) :
    s.WordSet (s.setEntry (s.entry d0 i0 / 4096 * 4096) k v) live (s.entry d0 i0 / 4096) k
      (u32 v) := by
  have hentry := fun d hd i (hi : i < 1023) =>
    hs.entry_setPte (v := v) hd0 hi0 hk hp (d := d) (i := i) hd (by omega)
  refine ⟨fun d hd i hi hpi => ?_, fun d hd i hi j hj => ?_⟩
  · rw [hentry d hd i hi]
    exact ⟨hpi, rfl⟩
  · rw [hs.pte_setPte hd0 hi0 hk hp hd hi hj, hentry d hd i hi]
    exact if_congr ⟨fun h => ⟨h.2.1, h.2.2, h.1⟩, fun h => ⟨h.2.2, h.1, h.2.1⟩⟩ rfl rfl

theorem Mapped.wordSet {word : ℕ} (hm : s.Mapped s' live own own' virt word flags)
    (hcur : s.currentPd ∈ live) (hv : pdIndex virt < 1023) :
    s.WordSet s' live (s'.entry s.currentPd (pdIndex virt) / 4096) (ptIndex virt) word := by
  refine ⟨fun d hd i hi hp => ?_, fun d hd i hi j hj => ?_⟩
  · by_cases heq : d = s.currentPd ∧ i = pdIndex virt
    · obtain ⟨rfl, rfl⟩ := heq
      refine ⟨hm.present, ?_⟩
      rcases hm.kept hp with hk | ⟨-, hk⟩
      · rw [hk]
      · rw [hk]
        exact (or_user_facts (s.entry_lt _ _)).2.1
    · rw [hm.entry_eq d hd i (by omega) heq]
      exact ⟨hp, rfl⟩
  · by_cases hij : i = pdIndex virt ∧ j = ptIndex virt
    · obtain ⟨rfl, rfl⟩ := hij
      rw [hm.pte_virt d hd]
      simp only [and_true]
    · -- no other entry has the table
      rw [hm.pte_other d hd i hi j hj (by tauto), if_neg]
      rintro ⟨hp, hframe, rfl⟩
      exact hij ⟨(hm.inv.table_inj hd hcur hi hv hp hm.present hframe).1, rfl⟩

/-- Nobody has the table before it is made. -/
theorem TableInv.free_not_swapped (hs : s.TableInv live own) {t : ℕ} (ht : t ∈ s.pmm.freeSet) :
    (t, j) ∉ s.swappedWords live := by
  rw [mem_swappedWords]
  rintro ⟨d, hd, i, hi, j', -, hsw, heq⟩
  cases heq
  have hrole := hs.table_own d hd i hi hsw.entry_present
  rw [(hs.free_iff _).mpr ht] at hrole
  exact tableRole_ne_free d i hrole.symm

theorem SlotsExact.mapped {phys : ℕ} (hx : s.SlotsExact live)
    (hs : s.TableInv live own) (hcur : s.currentPd ∈ live) (hv : pdIndex virt < 1023)
    (hword : ¬ Swapped (s.pte s.currentPd (pdIndex virt) (ptIndex virt)))
    (hm : s.Mapped s' live own own' virt (pageEntry phys flags) flags) : s'.SlotsExact live := by
  refine hx.wordSet (hm.wordSet hcur hv) ?_ (fun h => h.1 (pageEntry_mod_two _ _))
    (congrArg Swap.usedSlots hm.swap)
  by_cases hp : s.entry s.currentPd (pdIndex virt) % 2 = 1
  · rw [((hm.wordSet hcur hv).tables _ hcur _ hv hp).2]
    exact not_mem_swappedWords hp hword
  · exact hs.free_not_swapped (hm.table_frame hp).1

/-- A frame is taken. -/
theorem SlotsExact.fresh {f : ℕ} (hx : s.SlotsExact live) (hs : s.TableInv live own)
    (h : s.FreshFrame s' live own f) : s'.SlotsExact live := by
  have hentry : ∀ d ∈ live, ∀ i < 1023, s'.entry d i = s.entry d i := fun d hd i hi =>
    h.entry_eq d (hs.dir_aligned d hd)
      (hs.free_apart ((hs.free_iff f).mp h.was_free) hd).1 i (by omega)
  have hmem : ∀ w, w ∈ s'.swappedWords live ↔ w ∈ s.swappedWords live := fun w => by
    simp only [mem_swappedWords]
    constructor
    · rintro ⟨d, hd, i, hi, j, hj, hsw, rfl⟩
      rw [h.pte_eq d hd i hi j hj] at hsw
      exact ⟨d, hd, i, hi, j, hj, hsw, by rw [hentry d hd i hi]⟩
    · rintro ⟨d, hd, i, hi, j, hj, hsw, rfl⟩
      rw [← h.pte_eq d hd i hi j hj] at hsw
      exact ⟨d, hd, i, hi, j, hj, hsw, by rw [hentry d hd i hi]⟩
  refine hx.kept hmem (fun w hw => ?_) (congrArg Swap.usedSlots h.swap)
  obtain ⟨d, hd, i, hi, j, hj, hsw, rfl⟩ := mem_swappedWords.mp hw
  have hp := hsw.entry_present
  rw [slotOf_table hp, ← hentry d hd i hi, slotOf_table (by rw [hentry d hd i hi]; exact hp),
    h.pte_eq d hd i hi j hj]

variable [Disk D] {boot : ℕ}

/-- A page is swapped out. -/
theorem SlotsExact.swappedOut (hx : s.SlotsExact live)
    (hs : s.TableInv live own) (hcur : s.currentPd ∈ live) (hi : i < 1023) (hj : j < 1024)
    (h : s.SwappedOut s' i j slot port) : s'.SlotsExact live := by
  have hlt : slot < 4096 := h.swap.slot_lt
  have hp := entry_of_pte h.present
  have hword : u32 (slot * 4096 + 512) = slot * 4096 + 512 := u32_of_lt (by omega)
  have hset := hs.wordSet hcur hi hj hp (slot * 4096 + 512)
  have hmem : s'.mem = (s.setEntry (s.entry s.currentPd i / 4096 * 4096) j
      (slot * 4096 + 512)).mem := by rw [h.result]
  have hset' : s.WordSet s' live (s.entry s.currentPd i / 4096) j (slot * 4096 + 512) := by
    rw [hword] at hset
    exact ⟨by simpa only [entry_congr hmem] using hset.tables,
      by simpa only [entry_congr hmem, pte_congr hmem] using hset.pte⟩
  obtain ⟨hp', hframe⟩ := hset'.tables _ hcur i hi hp
  have hpte : s'.pte s.currentPd i j = slot * 4096 + 512 :=
    (hset'.pte _ hcur i hi j hj).trans (if_pos ⟨hp', hframe, rfl⟩)
  have hslot : s'.slotOf (s.entry s.currentPd i / 4096, j) = slot := by
    rw [← hframe, slotOf_table hp', hpte]
    omega
  obtain ⟨hused, hfree⟩ := h.swap.usedSlots
  refine hx.wordOut hset' (not_mem_swappedWords hp fun hsw => hsw.1 h.present) ?_
    (by rw [hslot]; exact hused) (by rw [hslot]; exact hfree)
  rw [mem_swappedWords]
  refine ⟨_, hcur, i, hi, j, hj, ?_, by rw [hframe]⟩
  rw [hpte, Swapped]
  omega

/-- **Eviction**, in a directory whose pages have no other use. -/
theorem SlotsExact.evictSteps (hx : s.SlotsExact live) (hs : s.PageInv boot live own)
    (hcur : s.currentPd ∈ live) (hne : s.currentPd ≠ boot) (h : EvictSteps s s') :
    s'.SlotsExact live := by
  induction h with
  | refl => exact hx
  | tail hsteps hstep ih =>
    obtain ⟨own1, hev⟩ := hs.evictSteps hcur hne hsteps
    have hcur1 := hev.currentPd ▸ hcur
    cases hstep with
    | hand pd pt hpd => exact ih.congr rfl rfl
    | clear i j hi hj hp =>
      -- the word stays present
      refine ih.wordSet (hev.inv.toTableInv.wordSet hcur1 (by omega) hj (entry_of_pte hp) _)
        (not_mem_swappedWords (entry_of_pte hp) fun hsw => hsw.1 hp) (fun hsw => hsw.1 ?_) rfl
      rw [u32_of_lt (clearAccessed_lt _), clearAccessed_mod_two]
      exact hp
    | failed disk _ => exact ih.congr rfl rfl
    | swapped i j slot port hi hj h =>
      exact ih.swappedOut hev.inv.toTableInv hcur1 (by omega) hj h

theorem SlotsExact.cleared {s1 : Paging D} {own1 : ℕ → Role} (hx : s.SlotsExact live)
    (hs : s.PageInv boot live own) (hcur : s.currentPd ∈ live)
    (h : s.Cleared s1 boot live own own1) : s1.SlotsExact live := by
  rcases h.quiet with heq | hne
  · rw [heq]
    exact hx
  · exact hx.evictSteps hs hcur hne h.steps

end Paging

end PenOS
