import PenOS.Directories

/-!
# The directory `paging_init` leaves

The boot directory maps the first 16 MiB to themselves and the kernel image above
`KERNEL_VIRT_BASE`.
-/

namespace PenOS

open Finset

variable {c flags n phys virt : ℕ} {own' : ℕ → Role}

/-- The image ends below 16 MiB, as `linker.ld` places it from 1 MiB on. -/
structure LinkerSymbols.Placed (syms : Paging.LinkerSymbols) : Prop where
  textStart : syms.textStart ≤ 16777216
  textEnd : syms.textEnd ≤ 16777216
  rodataEnd : syms.rodataEnd ≤ 16777216
  kernelEnd : syms.kernelEnd ≤ 16777216

namespace Paging

variable {D : Type} [Disk D] {s s' : Paging D} {live : List ℕ} {own : ℕ → Role}

/-! ## Without a swap port -/

theorem pagingSwapOut_of_noPort (h : s.swap.swapPort = none) (virt : ℕ) :
    s.pagingSwapOut virt = (s, false) := by
  unfold pagingSwapOut
  dsimp only
  rcases s.findPageTable (virt &&& 0xFFFFF000) with _ | table
  · rfl
  · dsimp only
    split
    · rfl
    · rw [Swap.swapOut, h]

theorem evictLoop_of_noPort (n : ℕ) (h : s.swap.swapPort = none) : (evictLoop n s).2 = false := by
  induction n generalizing s with
  | zero => rfl
  | succ n ih =>
    have hadv : s.advanceHand.swap.swapPort = none := by
      unfold advanceHand
      split <;> exact h
    rw [evictLoop]
    dsimp only
    generalize s.advanceHand = s1 at hadv ⊢
    split_ifs
    · exact ih hadv
    · rename_i hout
      rw [pagingSwapOut_of_noPort hadv] at hout
      cases hout
    · rw [pagingSwapOut_of_noPort hadv]
      exact ih hadv
    · exact ih hadv
    · exact ih hadv

theorem allocFrameZero_of_exhausted (hs : s.pmm.Inv) (he : s.pmm.freeSet = ∅)
    (h : s.swap.swapPort = none) : s.allocFrameZero = .error .pmmExhausted := by
  unfold allocFrameZero
  rw [pmmAllocFrame_of_empty hs he]
  dsimp only
  rw [if_pos rfl, pagingEvictPage, evictLoop_of_noPort _ h]
  rfl

theorem TableInv.mapped_of_ok (hs : s.TableInv live own) (hcur : s.currentPd ∈ live)
    (hv : pdIndex virt < 1023) (hport : s.swap.swapPort = none)
    (h : s.pagingMap virt phys flags = .ok s') :
    ∃ own', s.Mapped s' live own own' virt (pageEntry phys flags) flags := by
  by_cases havail : s.entry s.currentPd (pdIndex virt) % 2 = 1 ∨ s.pmm.freeSet.Nonempty
  · obtain ⟨s1, own', hrun, hm⟩ := hs.pagingMap hcur hv phys flags havail
    rw [hrun] at h
    cases h
    exact ⟨own', hm⟩
  · rw [not_or, not_nonempty_iff_eq_empty] at havail
    have hget : s.getPageTable virt flags = .error .pmmExhausted := by
      unfold Paging.getPageTable
      dsimp only
      rw [hasFlag_present, decide_eq_false havail.1, if_pos (Bool.not_false),
        allocFrameZero_of_exhausted hs.pmm havail.2 hport]
    rw [Paging.pagingMap, hget] at h
    cases h

/-! ## The loops of `paging_init` -/

/-- The boot directory once `n` pages are mapped to themselves. -/
structure Started (s₀ s : Paging D) (n : ℕ) : Prop where
  pages : n ≤ 4096
  inv : ∃ own, s.TableInv [s.currentPd] own
  swap : s.swap = s₀.swap
  hand : s.evictPdIdx = s₀.evictPdIdx ∧ s.evictPtIdx = s₀.evictPtIdx
  /-- the pages mapped to themselves -/
  identity : ∀ k < n, s.pte s.currentPd (k / 1024) (k % 1024) = pageEntry (k * 4096) 6
  /-- no other page of the user half is mapped -/
  unmapped : ∀ i < 768, ∀ j < 1024, n ≤ i * 1024 + j → s.pte s.currentPd i j = 0
  /-- the kernel half maps frames of the first 16 MiB, through its first tables -/
  kernel : ∀ i, 768 ≤ i → i < 1023 → ∀ j < 1024, s.pte s.currentPd i j % 2 = 1 →
    s.pte s.currentPd i j / 4096 < 4096
  tables : ∀ i, 768 ≤ i → i < 1023 → s.entry s.currentPd i % 2 = 1 → i < 772

omit [Disk D] in
/-- One more page mapped to itself. -/
theorem Started.identity_step {s0 : Paging D} (h : Started s0 s n) (hn : n < 4096)
    (hm : s.Mapped s' [s.currentPd] own own' (u32 (n * 4096)) (pageEntry (u32 (n * 4096)) 6) 6) :
    Started s0 s' (n + 1) := by
  have hu : u32 (n * 4096) = n * 4096 := u32_of_lt (by omega)
  rw [hu] at hm
  have hpd : pdIndex (n * 4096) = n / 1024 := by
    unfold pdIndex
    omega
  have hpt : ptIndex (n * 4096) = n % 1024 := by
    unfold ptIndex
    omega
  have hmem := List.mem_singleton_self s.currentPd
  have hother := hm.pte_other _ hmem
  have hself := hm.pte_current hmem
  rw [hpd, hpt] at hother hself
  refine ⟨hn, ⟨own', by rw [hm.currentPd]; exact hm.inv⟩, hm.swap.trans h.swap,
    ⟨hm.hand.1.trans h.hand.1, hm.hand.2.trans h.hand.2⟩, ?_, ?_, ?_, ?_⟩
  · intro k hk
    rw [hm.currentPd]
    by_cases hkn : k = n
    · rw [hkn]
      exact hself
    · rw [hother _ (by omega) _ (by omega) (by omega)]
      exact h.identity k (by omega)
  · intro i hi j hj hle
    rw [hm.currentPd, hother i (by omega) j hj (by omega)]
    exact h.unmapped i hi j hj (by omega)
  · intro i hlo hhi j hj
    rw [hm.currentPd, hother i hhi j hj (by omega)]
    exact h.kernel i hlo hhi j hj
  · intro i hlo hhi
    rw [hm.currentPd, hm.entry_eq _ hmem i (by omega) (by omega)]
    exact h.tables i hlo hhi

omit [Disk D] in
/-- One more page of the image. -/
theorem Started.kernel_step {s0 : Paging D} (h : Started s0 s n) (hphys : phys < 16777216)
    (hm : s.Mapped s' [s.currentPd] own own' (u32 (kernelVirtBase + phys))
      (pageEntry phys flags) flags) : Started s0 s' n := by
  have hbase := kernelVirtBase_eq
  have hu : u32 (kernelVirtBase + phys) = kernelVirtBase + phys := u32_of_lt (by omega)
  rw [hu] at hm
  have hpd : 768 ≤ pdIndex (kernelVirtBase + phys) ∧ pdIndex (kernelVirtBase + phys) < 772 := by
    unfold pdIndex
    omega
  have hmem := List.mem_singleton_self s.currentPd
  have hother := hm.pte_other _ hmem
  have hpages := h.pages
  refine ⟨hpages, ⟨own', by rw [hm.currentPd]; exact hm.inv⟩, hm.swap.trans h.swap,
    ⟨hm.hand.1.trans h.hand.1, hm.hand.2.trans h.hand.2⟩, ?_, ?_, ?_, ?_⟩
  · intro k hk
    rw [hm.currentPd, hother _ (by omega) _ (by omega) (Or.inl (by omega))]
    exact h.identity k hk
  · intro i hi j hj hle
    rw [hm.currentPd, hother i (by omega) j hj (Or.inl (by omega))]
    exact h.unmapped i hi j hj hle
  · intro i hlo hhi j hj hp
    rw [hm.currentPd] at hp ⊢
    by_cases heq : i = pdIndex (kernelVirtBase + phys) ∧ j = ptIndex (kernelVirtBase + phys)
    · obtain ⟨rfl, rfl⟩ := heq
      rw [hm.pte_current hmem, pageEntry_div (by omega)]
      omega
    · rw [hother i hhi j hj (by tauto)] at hp ⊢
      exact h.kernel i hlo hhi j hj hp
  · intro i hlo hhi hp
    by_cases heq : i = pdIndex (kernelVirtBase + phys)
    · exact heq ▸ hpd.2
    · rw [hm.currentPd, hm.entry_eq _ hmem i (by omega) fun hc => heq hc.2] at hp
      exact h.tables i hlo hhi hp

/-- `map_identity_region`, if it returns. -/
theorem Started.mapIdentityRegion {s0 : Paging D} (h : Started s0 s 0)
    (hport : s0.swap.swapPort = none) (hrun : s.mapIdentityRegion (16 * 1024 * 1024) = .ok s') :
    Started s0 s' 4096 := by
  unfold Paging.mapIdentityRegion at hrun
  rw [show alignUp (16 * 1024 * 1024) 4096 / 4096 = 4096 by decide] at hrun
  refine foldlM_range_induct (P := fun k s => Started s0 s k) h (fun k hk s1 s2 h1 hmap => ?_) hrun
  obtain ⟨own, hinv⟩ := h1.inv
  have hpd : pdIndex (u32 (k * 4096)) < 1023 := by
    rw [u32_of_lt (by omega), pdIndex]
    omega
  obtain ⟨own', hm⟩ := hinv.mapped_of_ok (List.mem_singleton_self _) hpd (h1.swap ▸ hport) hmap
  exact h1.identity_step hk hm

/-- A loop of `map_kernel_higher_half`, if it returns. -/
theorem Started.mapHigherHalf {s0 : Paging D} {start stop : ℕ} (h : Started s0 s n)
    (hport : s0.swap.swapPort = none) (hstop : stop ≤ 16777216)
    (hrun : s.mapHigherHalf start stop flags = .ok s') : Started s0 s' n := by
  unfold Paging.mapHigherHalf at hrun
  refine foldlM_range_induct (P := fun _ s => Started s0 s n) h (fun k hk s1 s2 h1 hmap => ?_) hrun
  obtain ⟨own, hinv⟩ := h1.inv
  have hphys : start + k * 4096 < 16777216 := by omega
  have hbase := kernelVirtBase_eq
  have hpd : pdIndex (u32 (kernelVirtBase + (start + k * 4096))) < 1023 := by
    rw [u32_of_lt (by omega), pdIndex]
    omega
  obtain ⟨own', hm⟩ := hinv.mapped_of_ok (List.mem_singleton_self _) hpd (h1.swap ▸ hport) hmap
  exact h1.kernel_step hphys hm

omit [Disk D] in
theorem alignUp_image {x : ℕ} (h : x ≤ 16777216) : alignUp x 4096 ≤ 16777216 := by
  rw [alignUp_page (by omega)]
  omega

theorem bind_of_ok {α β ε : Type} {x : Except ε α} {a : α} (h : x = .ok a)
    (f : α → Except ε β) : x >>= f = f a := by
  rw [h]
  rfl

theorem Started.mapKernelHigherHalf {s0 : Paging D} {syms : LinkerSymbols}
    (h : Started s0 s n) (hport : s0.swap.swapPort = none) (hsyms : LinkerSymbols.Placed syms)
    (hrun : s.mapKernelHigherHalf syms = .ok s') : Started s0 s' n := by
  unfold Paging.mapKernelHigherHalf at hrun
  obtain ⟨s1, h1, hrun⟩ := bind_ok hrun
  obtain ⟨s2, h2, hrun⟩ := bind_ok hrun
  obtain ⟨s3, h3, hrun⟩ := bind_ok hrun
  have hs1 := h.mapHigherHalf hport (alignUp_image hsyms.textEnd) h1
  have hs2 := hs1.mapHigherHalf hport (alignUp_image hsyms.rodataEnd) h2
  have hs3 := hs2.mapHigherHalf hport (alignUp_image hsyms.kernelEnd) h3
  split at hrun
  · exact hs3.mapHigherHalf hport hsyms.textStart hrun
  · cases hrun
    exact hs3

/-- The empty directory. -/
theorem started_initDirectory {s0 : Paging D} (hs : s0.pmm.Inv) (hne : s0.pmm.freeSet.Nonempty) :
    ∃ s, s0.initDirectory = .ok s ∧ Started s0 s 0 ∧
      s.pmm.freeSet.card + 1 = s0.pmm.freeSet.card ∧ ∀ i < 1023, s.entry s.currentPd i = 0 := by
  obtain ⟨s, own, hrun, hinv, hzero, hswap, hhand, hcard⟩ := initDirectory_spec hs hne
  have hpte : ∀ i < 1023, ∀ j, s.pte s.currentPd i j = 0 := fun i hi j =>
    pte_of_absent (by rw [hzero i hi]; decide) j
  refine ⟨s, hrun, ⟨by decide, ⟨own, hinv⟩, hswap, hhand, fun k hk => absurd hk (Nat.not_lt_zero k),
    fun i hi j _ _ => hpte i (by omega) j, fun i _ hi j _ hp => ?_, fun i _ hi hp => ?_⟩, hcard,
    hzero⟩
  · rw [hpte i hi j] at hp
    cases hp
  · rw [hzero i hi] at hp
    cases hp

/-- **`paging_init`**, if it returns: the identity map and the image are all there is. -/
theorem pagingInit_started {s0 : Paging D} {syms : LinkerSymbols} (hs : s0.pmm.Inv)
    (hport : s0.swap.swapPort = none) (hsyms : LinkerSymbols.Placed syms)
    (hrun : s0.pagingInit syms = .ok s) : Started s0 s 4096 := by
  unfold pagingInit at hrun
  obtain ⟨s1, h1, hrest⟩ := bind_ok hrun
  obtain ⟨s2, h2, h3⟩ := bind_ok hrest
  have hne : s0.pmm.freeSet.Nonempty := by
    by_contra he
    rw [not_nonempty_iff_eq_empty] at he
    unfold initDirectory at h1
    rw [allocFrameZero_of_exhausted hs he hport] at h1
    cases h1
  obtain ⟨s1', h1', hstart, -⟩ := started_initDirectory hs hne
  obtain rfl : s1' = s1 := Except.ok.inj (h1'.symm.trans h1)
  exact (hstart.mapIdentityRegion hport h2).mapKernelHigherHalf hport hsyms h3

theorem TableInv.mapLoop_induct {I : Paging D → Prop} {own : ℕ → Role}
    (hs : s.TableInv [s.currentPd] own) (hport : s.swap.swapPort = none) (hI : I s)
    (hstep : ∀ t t' own own' virt phys flags, I t → t.TableInv [t.currentPd] own →
      pdIndex virt < 1023 →
      t.Mapped t' [t.currentPd] own own' virt (pageEntry phys flags) flags → I t')
    {v p : ℕ → ℕ} (hv : ∀ k < n, pdIndex (v k) < 1023)
    (hrun : (List.range n).foldlM (fun s k => s.pagingMap (v k) (p k) flags) s = .ok s') :
    (∃ own', s'.TableInv [s'.currentPd] own') ∧ s'.swap.swapPort = none ∧ I s' := by
  refine foldlM_range_induct (P := fun _ t => (∃ own', t.TableInv [t.currentPd] own') ∧
    t.swap.swapPort = none ∧ I t) ⟨⟨own, hs⟩, hport, hI⟩ ?_ hrun
  rintro k hk t t' ⟨⟨own1, ht⟩, hnone, hIt⟩ hmap
  obtain ⟨own2, hm⟩ := ht.mapped_of_ok (List.mem_singleton_self _) (hv k hk) hnone hmap
  exact ⟨⟨own2, hm.currentPd ▸ hm.inv⟩, hm.swap ▸ hnone, hstep _ _ _ _ _ _ _ hIt ht (hv k hk) hm⟩

theorem pagingInit_induct {I : Paging D → Prop} {s0 : Paging D} {syms : LinkerSymbols}
    (hs : s0.pmm.Inv) (hport : s0.swap.swapPort = none) (hsyms : LinkerSymbols.Placed syms)
    (hinit : ∀ t own, s0.initDirectory = .ok t → t.TableInv [t.currentPd] own →
      (∀ i < 1023, t.entry t.currentPd i = 0) → I t)
    (hstep : ∀ t t' own own' virt phys flags, I t → t.TableInv [t.currentPd] own →
      pdIndex virt < 1023 →
      t.Mapped t' [t.currentPd] own own' virt (pageEntry phys flags) flags → I t')
    (hrun : s0.pagingInit syms = .ok s) : I s := by
  rw [pagingInit] at hrun
  obtain ⟨s1, h1, hrest⟩ := bind_ok hrun
  obtain ⟨s2, h2, himage⟩ := bind_ok hrest
  have hne : s0.pmm.freeSet.Nonempty := by
    by_contra he
    rw [initDirectory, allocFrameZero_of_exhausted hs (Finset.not_nonempty_iff_eq_empty.mp he)
      hport] at h1
    cases h1
  obtain ⟨t1, own1, hrun1, hinv1, hzero, hswap1, -⟩ := initDirectory_spec hs hne
  obtain rfl := Except.ok.inj (hrun1.symm.trans h1)
  have hI1 := hinit _ own1 h1 hinv1 hzero
  -- the loops
  have hbase := kernelVirtBase_eq
  rw [mapIdentityRegion, show alignUp (16 * 1024 * 1024) 4096 / 4096 = 4096 by decide] at h2
  have hid : ∀ k < 4096, pdIndex (u32 (k * 4096)) < 1023 := by
    intro k hk
    rw [u32_of_lt (by omega), pdIndex]
    omega
  have hhigh : ∀ start stop, stop ≤ 16777216 → ∀ k < (stop - start + 4095) / 4096,
      pdIndex (u32 (kernelVirtBase + (start + k * 4096))) < 1023 := by
    intro start stop hstop k hk
    rw [u32_of_lt (by omega), pdIndex]
    omega
  obtain ⟨⟨own2, hinv2⟩, hport2, hI2⟩ :=
    hinv1.mapLoop_induct (hswap1 ▸ hport) hI1 hstep hid h2
  rw [mapKernelHigherHalf] at himage
  obtain ⟨s3, h3, himage⟩ := bind_ok himage
  obtain ⟨s4, h4, himage⟩ := bind_ok himage
  obtain ⟨s5, h5, hgap⟩ := bind_ok himage
  obtain ⟨⟨own3, hinv3⟩, hport3, hI3⟩ :=
    hinv2.mapLoop_induct hport2 hI2 hstep (hhigh _ _ (alignUp_image hsyms.textEnd)) h3
  obtain ⟨⟨own4, hinv4⟩, hport4, hI4⟩ :=
    hinv3.mapLoop_induct hport3 hI3 hstep (hhigh _ _ (alignUp_image hsyms.rodataEnd)) h4
  obtain ⟨⟨own5, hinv5⟩, hport5, hI5⟩ :=
    hinv4.mapLoop_induct hport4 hI4 hstep (hhigh _ _ (alignUp_image hsyms.kernelEnd)) h5
  split_ifs at hgap
  · exact (hinv5.mapLoop_induct hport5 hI5 hstep (hhigh _ _ hsyms.textStart) hgap).2.2
  · cases hgap
    exact hI5

/-! ## Enough frames -/

section

omit [Disk D]

/-- The directory entries `paging_init` needs. -/
def startEntries : Finset ℕ := {0, 1, 2, 3, 768, 769, 770, 771}

/-- The tables still to be made. -/
def missing (s : Paging D) : Finset ℕ :=
  startEntries.filter fun i => s.entry s.currentPd i % 2 ≠ 1

/-- There is a frame for every table still to be made, and `c` more. -/
def Budget (s : Paging D) (c : ℕ) : Prop := s.missing.card + c ≤ s.pmm.freeSet.card

theorem Budget.avail {i : ℕ} (h : s.Budget c) (hi : i ∈ startEntries) :
    s.entry s.currentPd i % 2 = 1 ∨ s.pmm.freeSet.Nonempty := by
  by_cases hp : s.entry s.currentPd i % 2 = 1
  · exact Or.inl hp
  · have hmem : i ∈ s.missing := Finset.mem_filter.mpr ⟨hi, hp⟩
    have hpos := Finset.card_pos.mpr ⟨i, hmem⟩
    unfold Budget at h
    exact Or.inr (Finset.card_pos.mp (by omega))

theorem Budget.mapped {word : ℕ} (h : s.Budget c) (hi : pdIndex virt ∈ startEntries)
    (hm : s.Mapped s' [s.currentPd] own own' virt word flags) : s'.Budget c := by
  have hlt : ∀ i ∈ startEntries, i < 1024 := by decide
  have hmem := List.mem_singleton_self s.currentPd
  have hentry : ∀ i ∈ startEntries, i ≠ pdIndex virt →
      s'.entry s'.currentPd i = s.entry s.currentPd i := by
    intro i his hne
    rw [hm.currentPd]
    exact hm.entry_eq _ hmem i (hlt i his) fun hc => hne hc.2
  have hpresent : s'.entry s'.currentPd (pdIndex virt) % 2 = 1 := by
    rw [hm.currentPd]
    exact hm.present
  unfold Budget at *
  by_cases hp : s.entry s.currentPd (pdIndex virt) % 2 = 1
  · have hsame : s'.missing = s.missing := by
      unfold missing
      refine filter_congr fun i his => ?_
      by_cases hne : i = pdIndex virt
      · subst hne
        simp [hp, hpresent]
      · rw [hentry i his hne]
    rw [hsame, hm.pmm_kept hp]
    exact h
  · have hless : s'.missing ⊆ s.missing.erase (pdIndex virt) := by
      intro i him
      obtain ⟨his, hi1⟩ := Finset.mem_filter.mp him
      have hne : i ≠ pdIndex virt := by
        rintro rfl
        exact hi1 hpresent
      rw [hentry i his hne] at hi1
      exact Finset.mem_erase.mpr ⟨hne, Finset.mem_filter.mpr ⟨his, hi1⟩⟩
    have hin : pdIndex virt ∈ s.missing := Finset.mem_filter.mpr ⟨hi, hp⟩
    obtain ⟨f, hf, hfree⟩ := hm.pmm_taken hp
    have hcard := card_le_card hless
    have hpos := Finset.card_pos.mpr ⟨_, hin⟩
    rw [card_erase_of_mem hin] at hcard
    rw [hfree, card_erase_of_mem hf]
    omega

end

/-- **`paging_init` returns** if there are frames for the directory and eight tables. -/
theorem pagingInit_ok {s0 : Paging D} {syms : LinkerSymbols} (hs : s0.pmm.Inv)
    (hsyms : LinkerSymbols.Placed syms) (hcard : 9 + c ≤ s0.pmm.freeSet.card) :
    ∃ s, s0.pagingInit syms = .ok s ∧ Started s0 s 4096 ∧ c ≤ s.pmm.freeSet.card := by
  obtain ⟨s1, h1, hstart, hcard1, hzero⟩ :=
    started_initDirectory hs (Finset.card_pos.mp (by omega))
  have hbudget : s1.Budget c := by
    have hle : s1.missing.card ≤ 8 := (card_filter_le _ _).trans (by decide)
    unfold Budget
    omega
  -- the identity map
  have hid : ∃ s2, s1.mapIdentityRegion (16 * 1024 * 1024) = .ok s2 ∧
      (Started s0 s2 4096 ∧ s2.Budget c) := by
    unfold mapIdentityRegion
    rw [show alignUp (16 * 1024 * 1024) 4096 / 4096 = 4096 by decide]
    refine foldlM_range_ok (P := fun k s => Started s0 s k ∧ s.Budget c) ⟨hstart, hbudget⟩ ?_
    rintro k hk s ⟨hst, hb⟩
    obtain ⟨own, hinv⟩ := hst.inv
    have hu : u32 (k * 4096) = k * 4096 := u32_of_lt (by omega)
    have hpd : pdIndex (u32 (k * 4096)) ∈ startEntries := by
      rw [hu, pdIndex, startEntries]
      simp only [mem_insert, mem_singleton]
      omega
    have hlt : pdIndex (u32 (k * 4096)) < 1023 := by
      rw [hu, pdIndex]
      omega
    obtain ⟨s', own', hrun, hm⟩ := hinv.pagingMap (List.mem_singleton_self _) hlt
      (u32 (k * 4096)) (pageRw ||| pageUser) (hb.avail hpd)
    exact ⟨s', hrun, hst.identity_step hk hm, hb.mapped hpd hm⟩
  -- the loops over the image
  have himage : ∀ (start flags : ℕ) {s : Paging D} {stop : ℕ}, stop ≤ 16777216 →
      (Started s0 s 4096 ∧ s.Budget c) →
      ∃ s', s.mapHigherHalf start stop flags = .ok s' ∧ (Started s0 s' 4096 ∧ s'.Budget c) := by
    intro start flags s stop hstop hsb
    refine foldlM_range_ok (P := fun _ s => Started s0 s 4096 ∧ s.Budget c) hsb ?_
    rintro k hk s ⟨hst, hb⟩
    obtain ⟨own, hinv⟩ := hst.inv
    have hbase := kernelVirtBase_eq
    have hphys : start + k * 4096 < 16777216 := by omega
    have hu : u32 (kernelVirtBase + (start + k * 4096)) = kernelVirtBase + (start + k * 4096) :=
      u32_of_lt (by omega)
    have hpd : pdIndex (u32 (kernelVirtBase + (start + k * 4096))) ∈ startEntries := by
      rw [hu, pdIndex, startEntries]
      simp only [mem_insert, mem_singleton]
      omega
    have hlt : pdIndex (u32 (kernelVirtBase + (start + k * 4096))) < 1023 := by
      rw [hu, pdIndex]
      omega
    obtain ⟨s', own', hrun, hm⟩ := hinv.pagingMap (List.mem_singleton_self _) hlt
      (start + k * 4096) flags (hb.avail hpd)
    exact ⟨s', hrun, hst.kernel_step hphys hm, hb.mapped hpd hm⟩
  obtain ⟨s2, h2, hs2⟩ := hid
  obtain ⟨s3, h3, hs3⟩ := himage syms.textStart 0 (alignUp_image hsyms.textEnd) hs2
  obtain ⟨s4, h4, hs4⟩ := himage syms.rodataStart 0 (alignUp_image hsyms.rodataEnd) hs3
  obtain ⟨s5, h5, hs5⟩ := himage syms.dataStart pageRw (alignUp_image hsyms.kernelEnd) hs4
  obtain ⟨s6, h6, hs6⟩ := himage 0x00100000 0 hsyms.textStart hs5
  have hfree : ∀ {s : Paging D}, s.Budget c → c ≤ s.pmm.freeSet.card := fun hb =>
    (Nat.le_add_left _ _).trans hb
  by_cases hgap : syms.textStart > 0x00100000
  · refine ⟨s6, ?_, hs6.1, hfree hs6.2⟩
    rw [pagingInit, bind_of_ok h1, bind_of_ok h2, mapKernelHigherHalf, bind_of_ok h3,
      bind_of_ok h4, bind_of_ok h5, if_pos hgap]
    exact h6
  · refine ⟨s5, ?_, hs5.1, hfree hs5.2⟩
    rw [pagingInit, bind_of_ok h1, bind_of_ok h2, mapKernelHigherHalf, bind_of_ok h3,
      bind_of_ok h4, bind_of_ok h5, if_neg hgap]

/-! ## A small machine -/

section

omit [Disk D]

/-- A machine with 32 frames above an image of four pages. -/
def smallMachine : MultibootInfo := ⟨1024, 144, 0, fun _ => ⟨0, 0, 0, 0⟩⟩

/-- An image with a page for the multiboot header and one for each section. -/
def smallImage : LinkerSymbols :=
  { textStart := 0x101000, textEnd := 0x102000, rodataStart := 0x102000, rodataEnd := 0x103000,
    dataStart := 0x103000, kernelEnd := 0x104000 }

theorem smallImage_placed : LinkerSymbols.Placed smallImage := by
  constructor <;> decide

theorem exists_small_pmm : ∃ pmm, pmmInit 1 smallImage.kernelEnd (some smallMachine) = some pmm ∧
    pmm.Inv ∧ pmm.freeSet.card = 32 ∧ pmm.baseUsableFrame = 260 ∧ pmm.totalFrames = 292 := by
  have hinit : (pmmInit 1 smallImage.kernelEnd (some smallMachine)).map (fun p =>
      (p.freeFrames, p.baseUsableFrame, p.totalFrames)) = some (32, 260, 292) := by
    decide +kernel
  obtain ⟨pmm, hpmm, hvals⟩ := Option.map_eq_some_iff.mp hinit
  obtain ⟨hfree, hrange⟩ := Prod.mk.inj hvals
  obtain ⟨hbase, htotal⟩ := Prod.mk.inj hrange
  have hinv := pmmInit_inv hpmm
  exact ⟨pmm, hpmm, hinv, hinv.count.symm.trans hfree, hbase, htotal⟩

end

/-- Paging on the small machine leaves 23 frames. -/
theorem exists_small_start (mem : Mem) (disk : D) :
    ∃ pmm s, pmmInit 1 smallImage.kernelEnd (some smallMachine) = some pmm ∧
      (boot pmm mem disk).pagingInit smallImage = .ok s ∧
      Started (boot pmm mem disk) s 4096 ∧ 23 ≤ s.pmm.freeSet.card := by
  obtain ⟨pmm, hpmm, hinv, hcard, -⟩ := exists_small_pmm
  obtain ⟨s, hrun, hstart, hleft⟩ := pagingInit_ok hinv smallImage_placed
    (show 9 + 23 ≤ (boot pmm mem disk).pmm.freeSet.card from hcard.ge)
  exact ⟨pmm, s, hpmm, hrun, hstart, hleft⟩

end Paging

end PenOS
