import PenOS.HeapUndo
import PenOS.TaskMemory

/-!
# Frames lent to the heap

`kmalloc` takes frames for pages and for page tables of the heap window; `kfree` gives those of the
pages back when the heap ends where it ended before.
-/

namespace PenOS

open Block RecMem

variable {D : Type}

namespace Paging

variable {s s₁ s₂ s₃ s' : Paging D} {ex : ℕ → ℕ → Prop} {live dirs : List ℕ}
  {own own' : ℕ → Role} {e f k : ℕ}

/-! ## Frames that are lent and given back -/

/-- The page at `v` is mapped to the frame `f` in the directory `d`. -/
def Behind (s : Paging D) (d v f : ℕ) : Prop :=
  s.pte d (pdIndex v) (ptIndex v) % 2 = 1 ∧ s.pte d (pdIndex v) (ptIndex v) / 4096 = f

/-- `f` is a page table of the heap window in one of the directories `dirs`. -/
def WindowTable (s : Paging D) (dirs : List ℕ) (f : ℕ) : Prop :=
  ∃ d ∈ dirs, ∃ i, InWindow d i ∧ s.entry d i % 2 = 1 ∧ s.entry d i / 4096 = f

/-- The tables of the directories are still there, and the user halves as they were. -/
structure TablesKept (s s' : Paging D) (live : List ℕ) : Prop where
  user : ∀ d ∈ live, ∀ i < 768, s'.entry d i = s.entry d i
  table : ∀ d ∈ live, ∀ i < 1024, s.entry d i % 2 = 1 →
    s'.entry d i % 2 = 1 ∧ s'.entry d i / 4096 = s.entry d i / 4096

theorem TablesKept.refl (s : Paging D) (live : List ℕ) : s.TablesKept s live :=
  ⟨fun _ _ _ _ => rfl, fun _ _ _ _ hp => ⟨hp, rfl⟩⟩

theorem TablesKept.trans (h : s.TablesKept s₁ live) (h' : s₁.TablesKept s' live) :
    s.TablesKept s' live := by
  refine ⟨fun d hd i hi => (h'.user d hd i hi).trans (h.user d hd i hi), fun d hd i hi hp => ?_⟩
  obtain ⟨hp1, hf1⟩ := h.table d hd i hi hp
  obtain ⟨hp2, hf2⟩ := h'.table d hd i hi hp1
  exact ⟨hp2, hf2.trans hf1⟩

theorem TablesKept.windowTable (h : s.TablesKept s' live) (hdirs : dirs ⊆ live)
    (hf : s.WindowTable dirs f) : s'.WindowTable dirs f := by
  obtain ⟨d, hd, i, hi, hp, rfl⟩ := hf
  obtain ⟨hp', hf'⟩ := h.table d (hdirs hd) i (hi.lt.trans (by decide)) hp
  exact ⟨d, hd, i, hi, hp', hf'⟩

/-- `k` pages from `e` on have been mapped to free frames in the loaded directory. -/
structure Lent (s s' : Paging D) (live : List ℕ) (e k : ℕ) : Prop extends TablesKept s s' live where
  currentPd : s'.currentPd = s.currentPd
  pte : ∀ d ∈ live, ∀ i < 1023, ∀ j < 1024,
    (∀ n < k, i ≠ pdIndex (e + n * 4096) ∨ j ≠ ptIndex (e + n * 4096)) → s'.pte d i j = s.pte d i j
  lent : ∀ n < k, ∃ f ∈ s.pmm.freeSet, s'.Behind s.currentPd (e + n * 4096) f
  sub : s'.pmm.freeSet ⊆ s.pmm.freeSet
  spent : ∀ f ∈ s.pmm.freeSet, f ∈ s'.pmm.freeSet ∨
    (∃ n < k, s'.Behind s.currentPd (e + n * 4096) f) ∨ s'.WindowTable [s.currentPd] f

/-- `k` pages from `e` on have been unmapped in the loaded directory, and their frames freed. -/
structure Repaid (s s' : Paging D) (live : List ℕ) (e k : ℕ) : Prop where
  currentPd : s'.currentPd = s.currentPd
  entry : ∀ d ∈ live, ∀ i < 1024, s'.entry d i = s.entry d i
  pte : ∀ d ∈ live, ∀ i < 1023, ∀ j < 1024,
    (∀ n < k, i ≠ pdIndex (e + n * 4096) ∨ j ≠ ptIndex (e + n * 4096)) → s'.pte d i j = s.pte d i j
  gone : ∀ n < k, s'.pte s.currentPd (pdIndex (e + n * 4096)) (ptIndex (e + n * 4096)) = 0
  free_iff : ∀ f, f ∈ s'.pmm.freeSet ↔
    f ∈ s.pmm.freeSet ∨ ∃ n < k, s.Behind s.currentPd (e + n * 4096) f

/-- The free frames are as they were, apart from new tables of the heap window in `dirs`, and so are
the pages below `e`. -/
structure FramesKept (s s' : Paging D) (live dirs : List ℕ) (e : ℕ) : Prop extends
    TablesKept s s' live where
  pte : ∀ d ∈ live, ∀ i < 1023, ∀ j < 1024, i * 4194304 + j * 4096 < e → s'.pte d i j = s.pte d i j
  sub : s'.pmm.freeSet ⊆ s.pmm.freeSet
  spent : ∀ f ∈ s.pmm.freeSet, f ∈ s'.pmm.freeSet ∨ s'.WindowTable dirs f

theorem FramesKept.of_same (hmem : s'.mem = s.mem) (hpmm : s'.pmm = s.pmm) :
    s.FramesKept s' live dirs e :=
  ⟨⟨fun d _ i _ => entry_congr hmem d i,
    fun d _ i _ hp => by rw [entry_congr hmem]; exact ⟨hp, rfl⟩⟩,
    fun d _ i _ j _ _ => pte_congr hmem d i j, hpmm ▸ subset_rfl, fun _ hf => .inl (hpmm ▸ hf)⟩

theorem FramesKept.trans (hdirs : dirs ⊆ live) (h : s.FramesKept s₁ live dirs e)
    (h' : s₁.FramesKept s' live dirs e) : s.FramesKept s' live dirs e := by
  refine ⟨h.toTablesKept.trans h'.toTablesKept,
    fun d hd i hi j hj hlt => (h'.pte d hd i hi j hj hlt).trans (h.pte d hd i hi j hj hlt),
    h'.sub.trans h.sub, fun f hf => ?_⟩
  rcases h.spent f hf with hf1 | htable
  · exact h'.spent f hf1
  · exact .inr (h'.toTablesKept.windowTable hdirs htable)

/-- **A loan that is repaid.** -/
theorem Lent.repaid (h : s.Lent s₁ live e k) (hdirs : dirs ⊆ live) (hmem : s.currentPd ∈ dirs)
    (hmid : s₁.FramesKept s₂ live dirs (e + k * 4096)) (hpd : s₂.currentPd = s.currentPd)
    (halign : e % 4096 = 0) (hhi : e + k * 4096 ≤ heapEnd) (hback : s₂.Repaid s₃ live e k) :
    s.FramesKept s₃ live dirs e := by
  have hlayout := heap_layout
  have hcur := hdirs hmem
  -- the pages that are unmapped have the frames that were lent
  have hbehind : ∀ n < k, ∀ f, s₂.Behind s.currentPd (e + n * 4096) f ↔
      s₁.Behind s.currentPd (e + n * 4096) f := by
    intro n hn f
    rw [Behind, Behind, hmid.pte _ hcur _ (by rw [pdIndex]; omega) _ (ptIndex_lt _)
      (by rw [pdIndex, ptIndex]; omega)]
  have htables : s₂.TablesKept s₃ live :=
    ⟨fun d hd i hi => hback.entry d hd i (by omega),
      fun d hd i hi hp => by rw [hback.entry d hd i hi]; exact ⟨hp, rfl⟩⟩
  refine ⟨(h.toTablesKept.trans hmid.toTablesKept).trans htables,
    fun d hd i hi j hj hlt => ?_, fun f hf => ?_, fun f hf => ?_⟩
  · have hout : ∀ n < k, i ≠ pdIndex (e + n * 4096) ∨ j ≠ ptIndex (e + n * 4096) :=
      fun n _ => by rw [pdIndex, ptIndex]; omega
    rw [hback.pte d hd i hi j hj hout, hmid.pte d hd i hi j hj (by omega),
      h.pte d hd i hi j hj hout]
  · rcases (hback.free_iff f).mp hf with hf2 | ⟨n, hn, hpage⟩
    · exact h.sub (hmid.sub hf2)
    · rw [hpd, hbehind n hn] at hpage
      obtain ⟨g, hg, hlent⟩ := h.lent n hn
      rw [← hpage.2, hlent.2]
      exact hg
  · rcases h.spent f hf with hf1 | ⟨n, hn, hpage⟩ | htable
    · rcases hmid.spent f hf1 with hf2 | htable
      · exact .inl ((hback.free_iff f).mpr (.inl hf2))
      · exact .inr (htables.windowTable hdirs htable)
    · refine .inl ((hback.free_iff f).mpr (.inr ⟨n, hn, ?_⟩))
      rw [hpd, hbehind n hn]
      exact hpage
    · obtain ⟨d, hd, htable⟩ := htable
      obtain rfl := List.mem_singleton.mp hd
      exact .inr (htables.windowTable hdirs (hmid.toTablesKept.windowTable hdirs ⟨_, hmem, htable⟩))

/-! ## Pages at the end of the heap -/

/-- Pages of a range are different pages. -/
theorem page_ne_page {e m n : ℕ} (halign : e % 4096 = 0) (hne : m ≠ n) :
    pdIndex (e + m * 4096) ≠ pdIndex (e + n * 4096) ∨
      ptIndex (e + m * 4096) ≠ ptIndex (e + n * 4096) := by
  rw [pdIndex, pdIndex, ptIndex, ptIndex]
  omega

/-- One page more is lent, before the others. -/
theorem Grown.lent (hg : s.Grown s₁ ex live own own' e f) (hs : s.TableInv live own)
    (hcur : s.currentPd ∈ live) (hwin : InWindow s.currentPd (pdIndex e)) (halign : e % 4096 = 0)
    (h : s₁.Lent s' live (e + 4096) k) : s.Lent s' live e (k + 1) := by
  have hwin' := hwin
  simp only [InWindow] at hwin'
  have hnext : ∀ n, e + 4096 + n * 4096 = e + (n + 1) * 4096 := fun n => by omega
  have hzero : e + 0 * 4096 = e := by omega
  have hfree := (hs.free_iff f).mp hg.was_free
  have hsub : s₁.pmm.freeSet ⊆ s.pmm.freeSet := by
    by_cases hp : s.entry s.currentPd (pdIndex e) % 2 = 1
    · rw [hg.taken hp]
      exact Finset.erase_subset _ _
    · rw [(hg.table_taken hp).2]
      exact (Finset.erase_subset _ _).trans (Finset.erase_subset _ _)
  -- the first page is not among the others
  have hfirst : s'.Behind s.currentPd e f := by
    have hkeep := h.pte _ hcur (pdIndex e) (by omega) _ (ptIndex_lt e) fun n _ => by
      have hne := page_ne_page halign (show 0 ≠ n + 1 by omega)
      rw [hzero] at hne
      rw [hnext]
      exact hne
    rw [Behind, hkeep]
    exact hg.pte_page
  refine ⟨TablesKept.trans ⟨fun d hd i hi => hg.entry_eq d hd i (by omega) (by omega),
    fun d hd i hi hp => ?_⟩ h.toTablesKept, h.currentPd.trans hg.currentPd,
    fun d hd i hi j hj hout => ?_, fun n hn => ?_, h.sub.trans hsub, fun g hgf => ?_⟩
  · by_cases heq : d = s.currentPd ∧ i = pdIndex e
    · obtain ⟨rfl, rfl⟩ := heq
      exact ⟨hg.present, hg.entry_kept hp⟩
    · rw [hg.entry_eq d hd i hi heq]
      exact ⟨hp, rfl⟩
  · have hpage := hout 0 (by omega)
    rw [hzero] at hpage
    rw [h.pte d hd i hi j hj fun n hn => by rw [hnext]; exact hout (n + 1) (by omega),
      hg.pte_other d hd i hi j hj hpage]
  · rcases n with _ | n
    · rw [hzero]
      exact ⟨f, hfree, hfirst⟩
    · obtain ⟨g, hgf, hpage⟩ := h.lent n (by omega)
      rw [hg.currentPd, hnext] at hpage
      exact ⟨g, hsub hgf, hpage⟩
  · by_cases hgf' : g = f
    · subst hgf'
      exact .inr (.inl ⟨0, by omega, hzero.symm ▸ hfirst⟩)
    have hrest : g ∈ s₁.pmm.freeSet ∨ s₁.WindowTable [s.currentPd] g := by
      by_cases hp : s.entry s.currentPd (pdIndex e) % 2 = 1
      · rw [hg.taken hp]
        exact .inl (Finset.mem_erase.mpr ⟨hgf', hgf⟩)
      · rw [(hg.table_taken hp).2]
        by_cases htable : g = s₁.entry s.currentPd (pdIndex e) / 4096
        · exact .inr ⟨_, List.mem_singleton_self _, _, hwin, hg.present, htable.symm⟩
        · exact .inl (Finset.mem_erase.mpr ⟨htable, Finset.mem_erase.mpr ⟨hgf', hgf⟩⟩)
    rcases hrest with hg1 | htable
    · have hspent := h.spent g hg1
      rw [hg.currentPd] at hspent
      rcases hspent with hg' | ⟨n, hn, hpage⟩ | htable
      · exact .inl hg'
      · rw [hnext] at hpage
        exact .inr (.inl ⟨n + 1, by omega, hpage⟩)
      · exact .inr (.inr htable)
    · exact .inr (.inr (h.toTablesKept.windowTable (by simpa using hcur) htable))

/-- **Growing the heap** takes a loan. -/
theorem PageInvOn.lent [Disk D] (hs : s.PageInvOn ex live own) (hcur : s.currentPd ∈ live)
    (hlo : heapStart ≤ e) (hhi : e + k * 4096 ≤ heapEnd) (halign : e % 4096 = 0)
    (hsup : s.Supply k) (h : Paging.growUp k s e = .ok s') : s.Lent s' live e k := by
  induction k generalizing s e own with
  | zero =>
    obtain rfl := Except.ok.inj h
    exact ⟨.refl s live, rfl, fun _ _ _ _ _ _ _ => rfl, fun n hn => absurd hn (Nat.not_lt_zero n),
      subset_rfl, fun _ hf => .inl hf⟩
  | succ k ih =>
    obtain ⟨s₁, own1, f, hwin, -, -, hg, -, hsup1, h⟩ := hs.growUp_succ hcur hlo (by omega) hsup h
    refine hg.lent hs.toTableInv hcur hwin halign ?_
    exact ih hg.inv (hg.currentPd ▸ hcur) (by omega) (by omega) (by omega) hsup1 h

theorem Shrunk.repaid (hg : s.Shrunk s₁ ex live own own' (e + k * 4096)) (hs : s.TableInv live own)
    (hcur : s.currentPd ∈ live) (hhi : e + k * 4096 < heapEnd) (halign : e % 4096 = 0)
    (h : s₁.Repaid s' live e k) : s.Repaid s' live e (k + 1) := by
  have hlayout := heap_layout
  have hpd : ∀ n ≤ k, pdIndex (e + n * 4096) < 1023 := fun n hn => by
    rw [pdIndex]
    omega
  have hpage : ∀ n < k, s₁.pte s.currentPd (pdIndex (e + n * 4096)) (ptIndex (e + n * 4096)) =
      s.pte s.currentPd (pdIndex (e + n * 4096)) (ptIndex (e + n * 4096)) := fun n hn =>
    hg.pte_other _ hcur _ (hpd n hn.le) _ (ptIndex_lt _) (page_ne_page halign hn.ne)
  have hfreed : ∀ f, f ∈ s₁.pmm.freeSet ↔
      f ∈ s.pmm.freeSet ∨ s.Behind s.currentPd (e + k * 4096) f := by
    intro f
    rw [← hg.inv.free_iff, ← hs.free_iff, Behind]
    by_cases hb : s.pte s.currentPd (pdIndex (e + k * 4096)) (ptIndex (e + k * 4096)) % 2 = 1 ∧
        s.pte s.currentPd (pdIndex (e + k * 4096)) (ptIndex (e + k * 4096)) / 4096 = f
    · rw [← hb.2]
      exact iff_of_true (hg.own_freed hb.1) (.inr ⟨hb.1, rfl⟩)
    · rw [hg.own_kept f fun h1 h2 => hb ⟨h1, h2.symm⟩, or_iff_left hb]
  refine ⟨h.currentPd.trans hg.currentPd,
    fun d hd i hi => (h.entry d hd i hi).trans (hg.entry_eq d hd i hi),
    fun d hd i hi j hj hout => ?_, fun n hn => ?_, fun f => ?_⟩
  · rw [h.pte d hd i hi j hj fun n hn => hout n (by omega),
      hg.pte_other d hd i hi j hj (hout k (by omega))]
  · rcases Nat.lt_succ_iff_lt_or_eq.mp hn with hlt | rfl
    · have hgone := h.gone n hlt
      rw [hg.currentPd] at hgone
      exact hgone
    · rw [h.pte _ hcur _ (hpd n le_rfl) _ (ptIndex_lt _) fun m hm => page_ne_page halign hm.ne']
      exact hg.pte_page
  · rw [h.free_iff, hfreed, or_assoc, hg.currentPd]
    refine or_congr_right ⟨?_, ?_⟩
    · rintro (hb | ⟨n, hn, hb⟩)
      · exact ⟨k, by omega, hb⟩
      · rw [Behind, hpage n hn] at hb
        exact ⟨n, by omega, hb⟩
    · rintro ⟨n, hn, hb⟩
      rcases Nat.lt_succ_iff_lt_or_eq.mp hn with hlt | rfl
      · rw [Behind, ← hpage n hlt] at hb
        exact .inr ⟨n, hlt, hb⟩
      · exact .inl hb

/-- **Trimming the heap** repays it. -/
theorem PageInvOn.repaid (hs : s.PageInvOn ex live own)
    (hex : ∀ d d' i, 768 ≤ i → ex d i → ex d' i) (hheap : ∀ d i, InWindow d i → ex d i)
    (hcur : s.currentPd ∈ live) (hlo : heapStart ≤ e) (hhi : e + k * 4096 ≤ heapEnd)
    (halign : e % 4096 = 0) : s.Repaid (Paging.shrinkDown k s (e + k * 4096)) live e k := by
  induction k generalizing s own with
  | zero =>
    exact ⟨rfl, fun _ _ _ _ => rfl, fun _ _ _ _ _ _ _ => rfl,
      fun n hn => absurd hn (Nat.not_lt_zero n), fun f => by simp [Paging.shrinkDown]⟩
  | succ k ih =>
    have hpage : e + (k + 1) * 4096 - 4096 = e + k * 4096 := by omega
    have hroom : e + k * 4096 < heapEnd := by omega
    obtain ⟨own1, -, hg, -⟩ := hs.shrink_succ hex hheap hcur (Nat.add_le_add_right hlo _) hhi
      (by omega)
    rw [hpage] at hg
    rw [Paging.shrinkDown, hpage]
    exact hg.repaid hs.toTableInv hcur hroom halign (ih hg.inv (hg.currentPd ▸ hcur) hroom.le)

end Paging

/-! ## Blocks that come and go -/

variable {h h' h₁ h₂ h₃ : Heap D} {boot want p : ℕ} {live dirs : List ℕ} {allocs : List (ℕ × ℕ)}
  {cs ds : List Chunk}

/-- The heap `h` had the blocks `cs`; it has them again, and the frames are kept. -/
structure Heap.Unspent (h h' : Heap D) (live dirs : List ℕ) (cs : List Chunk) : Prop where
  inv : h'.Inv cs
  frames : h.paging.FramesKept h'.paging live dirs h.heapMappedEnd

theorem Heap.Inv.withPaging (hinv : h.Inv cs) (p : Paging D) : Heap.Inv { h with paging := p } cs :=
  ⟨hinv.head, hinv.chain, hinv.curr, hinv.sizes, hinv.settled, hinv.fits, hinv.mapped⟩

/-- The blocks determine the end of the heap. -/
theorem Heap.Inv.mappedEnd_eq (hinv : h.Inv cs) (hinv' : h'.Inv cs) :
    h'.heapMappedEnd = h.heapMappedEnd := (hinv.sameBlocks hinv').mapped

theorem Heap.Unspent.of_same (hinv : h'.Inv cs) (hmem : h'.paging.mem = h.paging.mem)
    (hpmm : h'.paging.pmm = h.paging.pmm) : h.Unspent h' live dirs cs :=
  ⟨hinv, .of_same hmem hpmm⟩

theorem Heap.Unspent.trans (hinv : h.Inv cs) (hdirs : dirs ⊆ live)
    (h1' : h.Unspent h₁ live dirs cs) (h2' : h₁.Unspent h₂ live dirs cs) :
    h.Unspent h₂ live dirs cs := by
  refine ⟨h2'.inv, h1'.frames.trans hdirs ?_⟩
  rw [← hinv.mappedEnd_eq h1'.inv]
  exact h2'.frames

theorem Heap.Unspent.switch (hinv : h.Inv cs) (pd : ℕ) :
    h.Unspent { h with paging := h.paging.pagingSwitchDirectory pd } live dirs cs := by
  rw [Paging.pagingSwitchDirectory_eq]
  exact .of_same (hinv.withPaging _) rfl rfl

namespace MemInv

theorem kfree_repaid (hm : MemInv h boot live allocs) (hinv : h.Inv cs) (hinv' : h'.Inv ds)
    (hrun : h.kfree p = .ok h') : ∃ k, h'.heapMappedEnd + k * 4096 = h.heapMappedEnd ∧
      h.paging.Repaid h'.paging live h'.heapMappedEnd k := by
  obtain ⟨own, hp⟩ := hm.pages
  obtain ⟨k, hshrink, hend⟩ := Heap.kfree_paging hinv hinv' hrun
  obtain ⟨-, hhi, -⟩ := hinv.mapped_range
  obtain ⟨hlo, -, halign⟩ := hinv'.mapped_range
  have hlayout := heap_layout
  refine ⟨k, hend, ?_⟩
  rw [hshrink, ← hend]
  exact hp.repaid Paging.exclusive_uniform (fun _ _ => Or.inr) hm.current hlo (by omega) (by omega)

variable [Disk D]

theorem kmalloc_lent (hm : MemInv h boot live allocs) (hinv : h.Inv cs) (hwant : want ≤ heapSize)
    (hsup : Unevicted h want) (hrun : h.kmalloc want = .ok (h₁, p)) :
    ∃ k, h₁.heapMappedEnd = h.heapMappedEnd + k * 4096 ∧
      h.paging.Lent h₁.paging live h.heapMappedEnd k := by
  obtain ⟨own, hs⟩ := hm.pages
  obtain ⟨ds, hinv1⟩ : ∃ ds, h₁.Inv ds := by
    rcases hinv.kmalloc_ok hwant hrun with ⟨-, rfl⟩ | ⟨ds, halloc⟩
    exacts [⟨cs, hinv⟩, ⟨ds, halloc.inv⟩]
  obtain ⟨k, hgrow, hend, hk⟩ := Heap.kmalloc_paging hinv hwant hrun
  obtain ⟨hlo, -, halign⟩ := hinv.mapped_range
  obtain ⟨-, hhi, -⟩ := hinv1.mapped_range
  have hlayout := heap_layout
  exact ⟨k, hend, hs.lent hm.current hlo (hend ▸ hhi) (by omega) (hsup.mono hk) hgrow⟩

/-- **`kmalloc` and `kfree`**: once the block has been freed, heap and frames are as they were, if
kept in between. -/
theorem loan (hm : MemInv h boot live allocs) (hinv : h.Inv cs) (hwant : want ≤ heapSize)
    (hsup : Unevicted h want) (hdirs : dirs ⊆ live) (hmem : h.paging.currentPd ∈ dirs)
    (hrun : h.kmalloc want = .ok (h₁, p)) (hp : p ≠ 0) :
    ∃ ds, Allocated h h₁ cs ds p want ∧ ∀ h₂ h₃, h₁.Unspent h₂ live dirs ds →
      h₂.paging.currentPd = h.paging.currentPd → MemInv h₂ boot live ((p, want) :: allocs) →
      h₂.kfree p = .ok h₃ → h.Unspent h₃ live dirs cs ∧
      ∀ v, h₃.heapMappedEnd ≤ v → v < h₂.heapMappedEnd →
        h₃.paging.pte h₃.paging.currentPd (pdIndex v) (ptIndex v) = 0 := by
  rcases hinv.kmalloc_ok hwant hrun with ⟨rfl, -⟩ | ⟨ds, halloc⟩
  · exact absurd rfl hp
  refine ⟨ds, halloc, fun h₂ h₃ hmid hcur hm2 hfree => ?_⟩
  obtain ⟨us, vs, n, -, hcs, hds⟩ := halloc.used
  obtain ⟨h3', es, hfree', hinv3, hes⟩ := hmid.inv.kfree_split hds
  obtain rfl := Except.ok.inj (hfree'.symm.trans hfree)
  obtain rfl := hinv3.settled.eq_of_usedAt hinv.settled (hes.trans hcs.symm)
  -- the pages between the two ends
  obtain ⟨k, hend, hlent⟩ := hm.kmalloc_lent hinv hwant hsup hrun
  obtain ⟨hlo, -, halign⟩ := hinv.mapped_range
  obtain ⟨-, hhi, -⟩ := halloc.inv.mapped_range
  have hlayout := heap_layout
  have halign' : h.heapMappedEnd % 4096 = 0 := by omega
  obtain ⟨k', hend', hback⟩ := hm2.kfree_repaid hmid.inv hinv3 hfree
  have hback_end := hinv.mappedEnd_eq hinv3
  have hmid_end := halloc.inv.mappedEnd_eq hmid.inv
  obtain rfl : k' = k := by omega
  rw [hback_end] at hback
  have hmid' : h₁.paging.FramesKept h₂.paging live dirs (h.heapMappedEnd + k' * 4096) :=
    hend ▸ hmid.frames
  refine ⟨⟨hinv3, hlent.repaid hdirs hmem hmid' hcur halign' (hend ▸ hhi) hback⟩,
    fun v hv hv' => ?_⟩
  obtain ⟨j, hj, hpage⟩ : ∃ j < k', v / 4096 = (h.heapMappedEnd + j * 4096) / 4096 :=
    ⟨(v - h.heapMappedEnd) / 4096, by omega, by omega⟩
  have hgone := hback.gone j hj
  rw [hback.currentPd]
  rw [pdIndex, ptIndex] at hgone ⊢
  rw [show v / 4194304 = (h.heapMappedEnd + j * 4096) / 4194304 by omega,
    show v / 4096 = (h.heapMappedEnd + j * 4096) / 4096 from hpage]
  exact hgone

end MemInv

end PenOS
