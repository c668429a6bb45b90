import PenOS.HeapFrames

/-!
# The heap agrees with page tables and frame manager

The three agree in one directory as long as no table of the window is made from an evicted page.
-/

namespace PenOS

open List

open Block

variable {D : Type}

namespace Paging

variable {s s' s₀ : Paging D} {own own₀ own' : ℕ → Role} {e e' k : ℕ}

/-- The page-table word of an address. -/
def pageWord (s : Paging D) (virt : ℕ) : ℕ := s.pte s.currentPd (pdIndex virt) (ptIndex virt)

/-! ## Growing and shrinking -/

/-- What one heap page after the other, unmapped from `e` down to `e'`, gives back. -/
structure Trimmed (s s' : Paging D) (d e e' : ℕ) : Prop where
  word_eq : ∀ i j, InWindow d i → j < 1024 → i * 4194304 + j * 4096 < e' →
    s'.pte d i j = s.pte d i j
  freed : ∀ f, f ∈ s'.pmm.freeSet ↔ f ∈ s.pmm.freeSet ∨ ∃ i j, InWindow d i ∧ j < 1024 ∧
    e' ≤ i * 4194304 + j * 4096 ∧ i * 4194304 + j * 4096 < e ∧ s.pte d i j / 4096 = f
  count : s'.pmm.freeSet.card = s.pmm.freeSet.card + (e - e') / 4096

theorem Trimmed.refl (s : Paging D) (d e : ℕ) : s.Trimmed s d e e := by
  refine ⟨fun _ _ _ _ _ => rfl, fun f => ⟨Or.inl, ?_⟩, by simp⟩
  rintro (h | ⟨i, j, -, -, h1, h2, -⟩)
  · exact h
  · omega

theorem Trimmed.step {s1 : Paging D} {own1 : ℕ → Role} {e1 : ℕ}
    (ht : s.Trimmed s1 s₀.currentPd e e1) (hw : s₀.WindowInv s1 own₀ own1 e1)
    (hlo : heapStart + 4096 ≤ e1) (hle : e1 ≤ e) (hhi : e ≤ heapEnd) (haligned : e1 % 4096 = 0)
    (hs : s1.Shrunk s' InWindow [s₀.currentPd] own1 own' (e1 - 4096)) :
    s.Trimmed s' s₀.currentPd e (e1 - 4096) := by
  obtain ⟨hwin, hvirt⟩ := inWindow_of_range (v := e1 - 4096) s₀.currentPd (by omega) (by omega)
  have hpt := ptIndex_lt (e1 - 4096)
  have hpresent := (hw.present_iff _ _ hwin hpt).mpr (by omega)
  have hword := ht.word_eq _ _ hwin hpt (by omega)
  have hkept := hs.own_kept
  have hfreed := hs.own_freed
  rw [hw.currentPd] at hkept hfreed
  -- one frame goes back, and it was not free before
  have hset : s'.pmm.freeSet = insert
      (s1.pte s₀.currentPd (pdIndex (e1 - 4096)) (ptIndex (e1 - 4096)) / 4096) s1.pmm.freeSet := by
    ext f
    rw [Finset.mem_insert, ← hs.inv.free_iff, ← hw.inv.free_iff]
    by_cases hf : f = s1.pte s₀.currentPd (pdIndex (e1 - 4096)) (ptIndex (e1 - 4096)) / 4096
    · exact iff_of_true (hf ▸ hfreed hpresent) (Or.inl hf)
    · rw [hkept f fun _ => hf]
      exact ⟨Or.inr, fun h => h.resolve_left hf⟩
  have hnot : s1.pte s₀.currentPd (pdIndex (e1 - 4096)) (ptIndex (e1 - 4096)) / 4096 ∉
      s1.pmm.freeSet := by
    rw [← hw.inv.free_iff, hw.inv.page_own _ (mem_singleton_self _) _
      hwin.lt _ hpt hwin hpresent]
    exact pageRole_ne_free _ _ _ _
  refine ⟨fun i j hi hj hlt => ?_, fun f => ?_, ?_⟩
  · rw [hw.shrunk_pte hs hi hj, if_neg (by omega)]
    exact ht.word_eq i j hi hj (by omega)
  · rw [hset, Finset.mem_insert, ht.freed, hword]
    constructor
    · rintro (rfl | h | ⟨i, j, hi, hj, h1, h2, h3⟩)
      · exact Or.inr ⟨_, _, hwin, hpt, by omega, by omega, rfl⟩
      · exact Or.inl h
      · exact Or.inr ⟨i, j, hi, hj, by omega, h2, h3⟩
    · rintro (h | ⟨i, j, hi, hj, h1, h2, h3⟩)
      · exact Or.inr (Or.inl h)
      · by_cases hij : i = pdIndex (e1 - 4096) ∧ j = ptIndex (e1 - 4096)
        · obtain ⟨rfl, rfl⟩ := hij
          exact Or.inl h3.symm
        · exact Or.inr (Or.inr ⟨i, j, hi, hj, by omega, h2, h3⟩)
  · rw [hset, Finset.card_insert_of_notMem hnot, ht.count]
    omega

/-- **`heap_trim`**, as far as pages and frames go. -/
theorem WindowInv.shrinkDown (hw : s₀.WindowInv s own₀ own e) (hlo : heapStart + k * 4096 ≤ e)
    (hhi : e ≤ heapEnd) (haligned : e % 4096 = 0) :
    (∃ own', s₀.WindowInv (shrinkDown k s e) own₀ own' (e - k * 4096)) ∧
      s.Trimmed (shrinkDown k s e) s₀.currentPd e (e - k * 4096) := by
  have hmem := mem_singleton_self s₀.currentPd
  have h := shrinkDown_induct (k := k) (s := s) (e := e) (I := fun j s1 e1 =>
      heapStart + j * 4096 ≤ e1 ∧ e1 ≤ e ∧ e1 % 4096 = 0 ∧
        (∃ own1, s₀.WindowInv s1 own₀ own1 e1) ∧ s.Trimmed s1 s₀.currentPd e e1)
    ⟨hlo, le_rfl, haligned, ⟨own, hw⟩, .refl s _ e⟩ ?_
  · exact h.2.2.2
  · rintro j s1 e1 - ⟨h1, h2, h3, ⟨own1, hw1⟩, ht⟩
    obtain ⟨own2, -, hs, hnext, -, halign⟩ := hw1.inv.shrink_succ inWindow_uniform (fun _ _ => id)
      (hw1.currentPd ▸ hmem) h1 (h2.trans hhi) h3
    have hlo1 : heapStart + 4096 ≤ e1 := by omega
    exact ⟨hnext, (Nat.sub_le _ _).trans h2, halign, ⟨own2, hw1.shrunk hlo1 (h2.trans hhi) h3 hs⟩,
      ht.step hw1 hlo1 h2 hhi h3 hs⟩

variable [Disk D]

/-- **`ensure_space`**, as far as pages and frames go. -/
theorem WindowInv.growUp (hw : s₀.WindowInv s own₀ own e) (hlo : heapStart ≤ e)
    (hhi : e + k * 4096 ≤ heapEnd) (haligned : e % 4096 = 0) (hsup : s.Supply k)
    (h : growUp k s e = .ok s') : ∃ own', s₀.WindowInv s' own₀ own' (e + k * 4096) := by
  have hmem := mem_singleton_self s₀.currentPd
  induction k generalizing s e own with
  | zero =>
    cases h
    exact ⟨own, by rwa [Nat.zero_mul, Nat.add_zero]⟩
  | succ k ih =>
    obtain ⟨s1, own1, f, -, -, -, hg, -, hsup1, h⟩ :=
      hw.inv.growUp_succ (hw.currentPd ▸ hmem) hlo (by omega) hsup h
    rw [show e + (k + 1) * 4096 = e + 4096 + k * 4096 by omega]
    exact ih (hw.grown hlo (by omega) haligned hg) (by omega) (by omega) (by omega) hsup1 h

end Paging

/-! ## What the three modules agree on -/

/-- The frames given back from `h` to `h'` are those of the pages unmapped, each once. -/
structure GivesBack (h h' : Heap D) : Prop where
  freed : ∀ f, f ∈ h'.paging.pmm.freeSet ↔ f ∈ h.paging.pmm.freeSet ∨ ∃ virt,
    h'.heapMappedEnd ≤ virt ∧ virt < h.heapMappedEnd ∧ h.paging.pageWord virt / 4096 = f
  count : h'.paging.pmm.freeFrames =
    h.paging.pmm.freeFrames + (h.heapMappedEnd - h'.heapMappedEnd) / 4096

variable {h h' : Heap D} {s₀ : Paging D} {own own₀ : ℕ → Role}

theorem window_page {d i j : ℕ} (hi : Paging.InWindow d i) (hj : j < 1024) :
    heapStart ≤ i * 4194304 + j * 4096 ∧ i * 4194304 + j * 4096 < heapEnd ∧
      pdIndex (i * 4194304 + j * 4096) = i ∧ ptIndex (i * 4194304 + j * 4096) = j := by
  have hlayout := heap_layout
  have hindex := Paging.index_of_virt (i := i) hj
  simp only [Paging.InWindow] at hi
  exact ⟨by omega, by omega, hindex⟩

variable [Disk D]

/-- Calls of `kmalloc`, for which `P` holds, and of `kfree`, from `heap_init` on the state
`h₀`, with the live allocations. -/
inductive HeapRun (P : Heap D → ℕ → Prop) (h₀ : Heap D) : List (ℕ × ℕ) → Heap D → Prop where
  /-- `heap_init` -/
  | init : HeapRun P h₀ [] h₀.heapInit
  /-- `kmalloc` of at most `HEAP_SIZE` bytes -/
  | malloc {live : List (ℕ × ℕ)} {h h' : Heap D} {want p : ℕ} : HeapRun P h₀ live h →
      want ≤ heapSize → P h want → h.kmalloc want = .ok (h', p) →
      HeapRun P h₀ (if p = 0 then live else (p, want) :: live) h'
  /-- `kfree(NULL)` -/
  | freeNull {live : List (ℕ × ℕ)} {h h' : Heap D} : HeapRun P h₀ live h →
      h.kfree 0 = .ok h' → HeapRun P h₀ live h'
  /-- `kfree` of a live pointer -/
  | free {live : List (ℕ × ℕ)} {h h' : Heap D} {u : ℕ × ℕ} : HeapRun P h₀ live h → u ∈ live →
      h.kfree u.1 = .ok h' → HeapRun P h₀ (live.erase u) h'
  /-- clients write to their allocations -/
  | client {live : List (ℕ × ℕ)} {h : Heap D} (bytes : Mem) : HeapRun P h₀ live h →
      (∀ x, (∀ u ∈ live, x < u.1 ∨ u.1 + u.2 ≤ x) → bytes x = h.window.bytes x) →
      HeapRun P h₀ live { h with window := { h.window with bytes := bytes } }

variable {P : Heap D → ℕ → Prop} {h₀ : Heap D} {live : List (ℕ × ℕ)}

theorem HeapRun.reach (hr : HeapRun P h₀ live h) : HeapReach live h := by
  induction hr with
  | init => exact .init h₀
  | malloc _ hwant _ hrun ih => exact .malloc ih hwant hrun
  | freeNull _ hrun ih => exact .freeNull ih hrun
  | free _ hu hrun ih => exact .free ih hu hrun
  | client bytes _ hbytes ih => exact .client bytes ih hbytes

/-- A request for which no table of the window has to be made from an evicted page. -/
def Unevicted (h : Heap D) (want : ℕ) : Prop := h.paging.Supply (want / 4096 + 2)

section Calls

variable {cs ds : List Chunk} {want p : ℕ}

theorem Paging.WindowInv.kmalloc (hw : s₀.WindowInv h.paging own₀ own h.heapMappedEnd)
    (hinv : h.Inv cs) (hinv' : h'.Inv ds) (hwant : want ≤ heapSize) (hsup : Unevicted h want)
    (hrun : h.kmalloc want = .ok (h', p)) :
    ∃ own', s₀.WindowInv h'.paging own₀ own' h'.heapMappedEnd := by
  obtain ⟨k, hgrow, hend, hk⟩ := Heap.kmalloc_paging hinv hwant hrun
  obtain ⟨hlo, -, haligned⟩ := hinv.mapped_range
  obtain ⟨-, hhi, -⟩ := hinv'.mapped_range
  have hlayout := heap_layout
  rw [hend]
  exact hw.growUp hlo (hend ▸ hhi) (by omega) (hsup.mono hk) hgrow

omit [Disk D] in
theorem Paging.WindowInv.kfree (hw : s₀.WindowInv h.paging own₀ own h.heapMappedEnd)
    (hinv : h.Inv cs) (hinv' : h'.Inv ds) (hrun : h.kfree p = .ok h') :
    (∃ own', s₀.WindowInv h'.paging own₀ own' h'.heapMappedEnd) ∧ GivesBack h h' := by
  obtain ⟨k, hshrink, hend⟩ := Heap.kfree_paging hinv hinv' hrun
  obtain ⟨-, hhi, haligned⟩ := hinv.mapped_range
  obtain ⟨hlo, -, -⟩ := hinv'.mapped_range
  have hlayout := heap_layout
  have hend' : h.heapMappedEnd - k * 4096 = h'.heapMappedEnd := by omega
  obtain ⟨⟨own', hw'⟩, ht⟩ := hw.shrinkDown (k := k) (by omega) hhi (by omega)
  rw [← hshrink, hend'] at hw' ht
  refine ⟨⟨own', hw'⟩, fun f => ?_, ?_⟩
  · rw [ht.freed]
    refine or_congr_right ⟨?_, ?_⟩
    · rintro ⟨i, j, hi, hj, h1, h2, rfl⟩
      obtain ⟨-, -, hpd, hpt⟩ := window_page hi hj
      refine ⟨_, h1, h2, ?_⟩
      rw [pageWord, hw.currentPd, hpd, hpt]
    · rintro ⟨virt, h1, h2, rfl⟩
      obtain ⟨hwin, hvirt⟩ := inWindow_of_range s₀.currentPd (hlo.trans h1) (h2.trans_le hhi)
      refine ⟨_, _, hwin, ptIndex_lt virt, ?_, ?_, ?_⟩
      · have := hinv'.mapped_range.2.2
        omega
      · omega
      · rw [pageWord, hw.currentPd]
  · rw [hw'.inv.pmm.count, hw.inv.pmm.count]
    exact ht.count

end Calls

/-- The invariant along a run. -/
theorem HeapRun.window (hs0 : h₀.paging.TableInv [h₀.paging.currentPd] own₀)
    (hnone : ∀ virt, heapStart ≤ virt → virt < heapEnd → h₀.paging.pageWord virt % 2 ≠ 1)
    (hr : HeapRun Unevicted h₀ live h) :
    ∃ own, h₀.paging.WindowInv h.paging own₀ own h.heapMappedEnd := by
  induction hr with
  | init =>
    refine ⟨own₀, Paging.WindowInv.start hs0 fun i j hi hj => ?_⟩
    obtain ⟨h1, h2, hpd, hpt⟩ := window_page hi hj
    have habs := hnone _ h1 h2
    rwa [Paging.pageWord, hpd, hpt] at habs
  | malloc hr hwant hsup hrun ih =>
    obtain ⟨own, hw⟩ := ih
    obtain ⟨cs, hs⟩ := hr.reach.state
    obtain ⟨ds, hs'⟩ := hs.malloc hwant hrun
    exact hw.kmalloc hs.inv hs'.inv hwant hsup hrun
  | freeNull _ hrun ih =>
    cases hrun
    exact ih
  | free hr hu hrun ih =>
    obtain ⟨own, hw⟩ := ih
    obtain ⟨cs, hs⟩ := hr.reach.state
    obtain ⟨ds, hs'⟩ := hs.free hu hrun
    exact (hw.kfree hs.inv hs'.inv hrun).1
  | client bytes _ _ ih => exact ih

end PenOS
