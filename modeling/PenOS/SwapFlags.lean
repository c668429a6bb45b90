import PenOS.SwapPages

/-!
# Permissions across the swap area

The word of a page that is swapped out keeps the number of the slot and nothing else.
`page_fault_handler` maps the page present, writable and for users.
-/

namespace PenOS

open Finset

/-- The bits `PAGE_RW` and `PAGE_USER` of a word. -/
def permissionBits (e : ℕ) : Bool × Bool := (hasFlag e pageRw, hasFlag e pageUser)

theorem hasFlag_rw (e : ℕ) : hasFlag e pageRw = decide (e / 2 % 2 = 1) := hasFlag_two_pow e 1

/-- A page mapped by the handler is writable and for users. -/
theorem permissionBits_new (f : ℕ) (hf : f < 1048576) :
    permissionBits (pageEntry (f * 4096) 7) = (true, true) := by
  have hword : pageEntry (f * 4096) 7 = f * 4096 + 7 := by
    have hframe : f * 4096 &&& 0xFFFFF000 = f * 4096 := by
      rw [and_pageMask (by omega), frame_div]
    rw [pageEntry, hframe, Nat.or_assoc]
    exact or_offset f (by decide)
  rw [permissionBits, hasFlag_rw, hasFlag_user, hword, Prod.mk.injEq]
  constructor <;> rw [decide_eq_true_eq] <;> omega

theorem permissionBits_or_user (e : ℕ) :
    permissionBits (e ||| pageUser) = permissionBits e ↔ hasFlag e pageUser = true := by
  have hrw : hasFlag (e ||| pageUser) pageRw = hasFlag e pageRw := by
    have h : (e ||| 4) / 2 % 2 = 1 ↔ e / 2 % 2 = 1 ∨ 4 / 2 % 2 = 1 := or_bit e 4 1
    rw [hasFlag_rw, hasFlag_rw, Bool.eq_iff_iff, decide_eq_true_eq, decide_eq_true_eq]
    exact h.trans ⟨fun h => h.resolve_right (by decide), Or.inl⟩
  have huser : hasFlag (e ||| pageUser) pageUser = true := by
    rw [hasFlag_user, decide_eq_true_eq]
    exact (or_bit e 4 2).mpr (Or.inr rfl)
  rw [permissionBits, permissionBits, hrw, huser, Prod.mk.injEq]
  exact ⟨fun h => h.2.symm, fun h => ⟨rfl, h.symm⟩⟩

namespace Paging

variable {D : Type} [Disk D] {s s₁ : Paging D} {virt : ℕ}

omit [Disk D] in
/-- The directory and the table of an address are in use, and its page is neither. -/
structure PageApart (s : Paging D) (virt : ℕ) : Prop where
  aligned : s.currentPd % 4096 = 0
  dir_used : s.currentPd / 4096 ∉ s.pmm.freeSet
  table_used : s.entry s.currentPd (pdIndex virt) / 4096 ∉ s.pmm.freeSet
  page_ne_dir : s.pte s.currentPd (pdIndex virt) (ptIndex virt) / 4096 ≠ s.currentPd / 4096
  page_ne_table : s.pte s.currentPd (pdIndex virt) (ptIndex virt) / 4096 ≠
    s.entry s.currentPd (pdIndex virt) / 4096

omit [Disk D] in
/-- The word of the page is not the directory entry. -/
theorem PageApart.words (h : s.PageApart virt)
    (hp : s.pte s.currentPd (pdIndex virt) (ptIndex virt) % 2 = 1) :
    s.entry s.currentPd (pdIndex virt) / 4096 * 4096 ≠ s.currentPd ∨
      ptIndex virt ≠ pdIndex virt := by
  by_contra hsame
  obtain ⟨htable, hindex⟩ := not_or.mp hsame
  rw [not_not] at htable hindex
  refine h.page_ne_table ?_
  rw [pte_of_present (entry_of_pte hp), htable, hindex]

theorem pagingMap_of_present (virt phys : ℕ) (hp : s.entry s.currentPd (pdIndex virt) % 2 = 1)
    (hi : pdIndex virt < 1024) (haligned : s.currentPd % 4096 = 0)
    (hwords : s.entry s.currentPd (pdIndex virt) / 4096 * 4096 ≠ s.currentPd ∨
      ptIndex virt ≠ pdIndex virt) :
    ∃ s', s.pagingMap virt phys 7 = .ok s' ∧ s'.currentPd = s.currentPd ∧
      s'.entry s.currentPd (pdIndex virt) =
        (if hasFlag (s.entry s.currentPd (pdIndex virt)) pageUser then
          s.entry s.currentPd (pdIndex virt) else s.entry s.currentPd (pdIndex virt) ||| pageUser) ∧
      s'.entry (s.entry s.currentPd (pdIndex virt) / 4096 * 4096) (ptIndex virt) =
        pageEntry phys 7 := by
  have hj := ptIndex_lt virt
  have hword : u32 (pageEntry phys 7) = pageEntry phys 7 := u32_of_lt (pageEntry_lt phys 7)
  obtain ⟨hlt, -⟩ := or_user_facts (s.entry_lt s.currentPd (pdIndex virt))
  have hseven : hasFlag 7 pageUser = true := rfl
  simp only [pagingMap, getPageTable, hasFlag_present, decide_eq_true hp, Bool.not_true,
    Bool.false_eq_true, if_false, hseven, Bool.true_and, frameOf_entry]
  by_cases huser : hasFlag (s.entry s.currentPd (pdIndex virt)) pageUser = true
  · rw [huser, if_neg (by decide), if_pos rfl]
    refine ⟨_, rfl, rfl, ?_, (entry_setEntry_self _ _ _ _).trans hword⟩
    exact entry_setEntry_of_ne _ _ (Nat.mul_mod_left _ _) haligned hj hi
      (hwords.imp Ne.symm Ne.symm)
  · rw [Bool.eq_false_iff.mpr huser, if_pos (by decide), if_neg (by decide)]
    refine ⟨_, rfl, rfl, ?_, (entry_setEntry_self _ _ _ _).trans hword⟩
    rw [entry_setEntry_of_ne _ _ (Nat.mul_mod_left _ _) haligned hj hi
      (hwords.imp Ne.symm Ne.symm), entry_setEntry_self, u32_of_lt hlt]

theorem SwappedOut.apart {slot port : ℕ} (hs : s.pmm.Inv) (h : s.PageApart virt)
    (hi : pdIndex virt < 1024) (hsw : s.SwappedOut s₁ (pdIndex virt) (ptIndex virt) slot port) :
    s₁.currentPd = s.currentPd ∧
      s₁.entry s.currentPd (pdIndex virt) = s.entry s.currentPd (pdIndex virt) ∧
      s₁.entry (s.entry s.currentPd (pdIndex virt) / 4096 * 4096) (ptIndex virt) =
        slot * 4096 + 512 ∧ s₁.pmm.Inv ∧ s.currentPd / 4096 ∉ s₁.pmm.freeSet ∧
      s.entry s.currentPd (pdIndex virt) / 4096 ∉ s₁.pmm.freeSet := by
  have hlt : slot < 4096 := hsw.swap.slot_lt
  have hj := ptIndex_lt virt
  have hmem : s₁.mem = (s.setEntry (s.entry s.currentPd (pdIndex virt) / 4096 * 4096)
      (ptIndex virt) (slot * 4096 + 512)).mem := by rw [hsw.result]
  have hpmm : s₁.pmm = pmmFreeFrame s.pmm
      (s.pte s.currentPd (pdIndex virt) (ptIndex virt) / 4096 * 4096) := by rw [hsw.result]
  -- only the frame of the page may have become free
  have hfree : ∀ g, g ≠ s.pte s.currentPd (pdIndex virt) (ptIndex virt) / 4096 →
      g ∉ s.pmm.freeSet → g ∉ s₁.pmm.freeSet := by
    intro g hg hno
    rw [hpmm]
    by_cases hrange : s.pmm.baseUsableFrame ≤
        s.pte s.currentPd (pdIndex virt) (ptIndex virt) / 4096 * 4096 / 4096 ∧
        s.pte s.currentPd (pdIndex virt) (ptIndex virt) / 4096 * 4096 / 4096 < s.pmm.totalFrames
    · rw [freeSet_pmmFreeFrame hs hrange.1 hrange.2, frame_div,
        mem_insert, not_or]
      exact ⟨hg, hno⟩
    · rw [pmmFreeFrame_of_not_mem (by omega)]
      exact hno
  refine ⟨by rw [hsw.result]; rfl, ?_, ?_, hpmm ▸ pmmFreeFrame_inv hs _,
    hfree _ h.page_ne_dir.symm h.dir_used, hfree _ h.page_ne_table.symm h.table_used⟩
  · rw [entry_congr hmem]
    exact entry_setEntry_of_ne _ _ (Nat.mul_mod_left _ _) h.aligned hj hi
      ((h.words hsw.present).imp Ne.symm Ne.symm)
  · rw [entry_congr hmem, entry_setEntry_self, u32_of_lt (by omega)]

theorem pageFaultHandler_swapped (hs : s.pmm.Inv) (hne : s.pmm.freeSet.Nonempty)
    (haligned : s.currentPd % 4096 = 0) (hdir : s.currentPd / 4096 ∉ s.pmm.freeSet)
    (htable : s.entry s.currentPd (pdIndex virt) / 4096 ∉ s.pmm.freeSet)
    (hvirt : virt < 4294967296) (hp : s.entry s.currentPd (pdIndex virt) % 2 = 1)
    (hwords : s.entry s.currentPd (pdIndex virt) / 4096 * 4096 ≠ s.currentPd ∨
      ptIndex virt ≠ pdIndex virt)
    (hsw : Swapped (s.pte s.currentPd (pdIndex virt) (ptIndex virt))) (errCode : ℕ) :
    ∃ s' f, f < 1048576 ∧ s.pageFaultHandler virt errCode = .ok s' ∧
      s'.pte s.currentPd (pdIndex virt) (ptIndex virt) = pageEntry (f * 4096) 7 ∧
      s'.entry s.currentPd (pdIndex virt) =
        (if hasFlag (s.entry s.currentPd (pdIndex virt)) pageUser then
          s.entry s.currentPd (pdIndex virt)
        else s.entry s.currentPd (pdIndex virt) ||| pageUser) := by
  have hpd := pdIndex_page hvirt
  have hpt := ptIndex_page hvirt
  have hi : pdIndex virt < 1024 := by
    rw [pdIndex]
    omega
  -- the frame is neither the directory nor the table
  obtain ⟨f, hf, halloc⟩ : ∃ f, f ∈ s.pmm.freeSet ∧ s.allocFrameZero = .ok (zeroFrame
      { s with pmm := (s.pmm.takeFrame f).1 } (f * 4096), f * 4096) :=
    ⟨_, min'_mem _ hne, allocFrameZero_of_free hs hne⟩
  have hlt : f < 1048576 := by
    have := (Pmm.mem_freeSet.mp hf).2.1
    have := hs.total_le
    omega
  have hfdir : s.currentPd ≠ f * 4096 := by
    rintro heq
    rw [heq, frame_div] at hdir
    exact hdir hf
  have hftable : s.entry s.currentPd (pdIndex virt) / 4096 ≠ f := fun heq => htable (heq ▸ hf)
  generalize hz : zeroFrame { s with pmm := (s.pmm.takeFrame f).1 } (f * 4096) = z at halloc
  have hcurz : z.currentPd = s.currentPd := by rw [← hz]; rfl
  have hentryz : ∀ b, b % 4096 = 0 → b ≠ f * 4096 → ∀ k < 1024, z.entry b k = s.entry b k := by
    intro b hb hbf k hk
    rw [← hz]
    exact entry_zeroFrame_of_ne _ (Nat.mul_mod_left _ _) hb hk hbf
  have hez : z.entry z.currentPd (pdIndex (virt &&& 0xFFFFF000)) =
      s.entry s.currentPd (pdIndex virt) := by
    rw [hcurz, hpd]
    exact hentryz _ haligned hfdir _ hi
  obtain ⟨s4, hmap, hcur4, hentry4, hword4⟩ := pagingMap_of_present (s := z)
    (virt &&& 0xFFFFF000) (f * 4096) (by rw [hez]; exact hp) (by rw [hpd]; exact hi)
    (hcurz ▸ haligned) (by rw [hez, hpd, hpt, hcurz]; exact hwords)
  rw [hez, hpd, hcurz] at hentry4
  rw [hez, hpt] at hword4
  -- the entry still names the table
  have hkeep : s4.entry s.currentPd (pdIndex virt) % 2 = 1 ∧
      s4.entry s.currentPd (pdIndex virt) / 4096 = s.entry s.currentPd (pdIndex virt) / 4096 := by
    obtain ⟨-, hdiv, hmod, -⟩ := or_user_facts (s.entry_lt s.currentPd (pdIndex virt))
    rw [hentry4]
    split_ifs
    · exact ⟨hp, rfl⟩
    · exact ⟨hmod.trans hp, hdiv⟩
  have hpte4 : s4.pte s.currentPd (pdIndex virt) (ptIndex virt) = pageEntry (f * 4096) 7 := by
    rw [pte_of_present hkeep.1, hkeep.2, hword4]
  have htarget : s4.pagingVirtToPhys (virt &&& 0xFFFFF000) = f * 4096 := by
    rw [pagingVirtToPhys_eq, hpd, hpt, hcur4, hcurz, hpte4, if_pos (pageEntry_mod_two _ _),
      pageEntry_div (by omega), frame_div, and_pageMask hvirt,
      Nat.mul_mod_left, Nat.add_zero]
  -- the transfer stays away from directory and table
  have hback : ∀ b, b % 4096 = 0 → b ≠ f * 4096 → ∀ slot, ∀ k < 1024,
      (s4.readBack (virt &&& 0xFFFFF000) slot).entry b k = s4.entry b k := by
    intro b hb hbf slot k hk
    refine entry_eq_of_bytes hk fun x h1 h2 => Mem.paste_of_not_mem ?_
    rw [htarget]
    omega
  refine ⟨s4.readBack (virt &&& 0xFFFFF000)
    (s.pte s.currentPd (pdIndex virt) (ptIndex virt) / 4096), f, hlt, ?_, ?_, ?_⟩
  · have hfresh : s.mapFresh (virt &&& 0xFFFFF000) = .ok s4 := by
      rw [Paging.mapFresh, halloc]
      exact hmap
    rw [pageFaultHandler_eq hvirt, if_pos hsw, hfresh]
    rfl
  · have he := hback s.currentPd haligned hfdir
      (s.pte s.currentPd (pdIndex virt) (ptIndex virt) / 4096) _ hi
    rw [pte_of_present (by rw [he]; exact hkeep.1), he, hkeep.2,
      hback _ (Nat.mul_mod_left _ _) (by omega) _ _ (ptIndex_lt virt), hword4]
  · rw [hback s.currentPd haligned hfdir _ _ hi, hentry4]

theorem swapOut_then_fault (hs : s.pmm.Inv) (hapart : s.PageApart virt) (hvirt : virt < 4294967296)
    (hroom : s.pmm.freeSet.Nonempty ∨ s.pmm.baseUsableFrame ≤
        s.pte s.currentPd (pdIndex virt) (ptIndex virt) / 4096 ∧
      s.pte s.currentPd (pdIndex virt) (ptIndex virt) / 4096 < s.pmm.totalFrames)
    (hout : s.pagingSwapOut virt = (s₁, true)) (errCode : ℕ) :
    ∃ s2 f, f < 1048576 ∧ s₁.pageFaultHandler virt errCode = .ok s2 ∧
      s2.pte s.currentPd (pdIndex virt) (ptIndex virt) = pageEntry (f * 4096) 7 ∧
      s2.entry s.currentPd (pdIndex virt) =
        (if hasFlag (s.entry s.currentPd (pdIndex virt)) pageUser then
          s.entry s.currentPd (pdIndex virt)
        else s.entry s.currentPd (pdIndex virt) ||| pageUser) := by
  have hi : pdIndex virt < 1024 := by
    rw [pdIndex]
    omega
  rcases pagingSwapOut_cases (s := s) hvirt with ⟨_, -, hres, -⟩ | ⟨s', slot, port, hres, hsw⟩
  · rw [hres] at hout
    cases hout
  obtain rfl : s' = s₁ := congrArg Prod.fst (hres.symm.trans hout)
  obtain ⟨hcur, hentry, hword, hinv, hdir, htable⟩ := hsw.apart hs hapart hi
  have hp := entry_of_pte hsw.present
  have hlt : slot < 4096 := hsw.swap.slot_lt
  have hpte : s'.pte s.currentPd (pdIndex virt) (ptIndex virt) = slot * 4096 + 512 := by
    rw [pte_of_present (by rw [hentry]; exact hp), hentry, hword]
  have hne : s'.pmm.freeSet.Nonempty := by
    rw [hsw.result]
    change (pmmFreeFrame s.pmm _).freeSet.Nonempty
    by_cases hrange : s.pmm.baseUsableFrame ≤
        s.pte s.currentPd (pdIndex virt) (ptIndex virt) / 4096 * 4096 / 4096 ∧
        s.pte s.currentPd (pdIndex virt) (ptIndex virt) / 4096 * 4096 / 4096 < s.pmm.totalFrames
    · rw [freeSet_pmmFreeFrame hs hrange.1 hrange.2]
      exact insert_nonempty _ _
    · rw [pmmFreeFrame_of_not_mem (by omega)]
      exact hroom.resolve_right (by omega)
  obtain ⟨s2, f, hf, hfault, hpte2, hentry2⟩ := pageFaultHandler_swapped (s := s') hinv hne
    (by rw [hcur]; exact hapart.aligned) (by rw [hcur]; exact hdir)
    (by rw [hcur, hentry]; exact htable) hvirt (by rw [hcur, hentry]; exact hp)
    (by rw [hcur, hentry]; exact hapart.words hsw.present)
    (by rw [hcur, hpte]; constructor <;> omega) errCode
  rw [hcur] at hpte2 hentry2
  rw [hentry] at hentry2
  exact ⟨s2, f, hf, hfault, hpte2, hentry2⟩

/-- **Swapping a page out and in** keeps the permissions exactly if the page and its directory entry
were for users, and the page writable. -/
theorem swap_keeps_permissions_iff (hs : s.pmm.Inv) (hapart : s.PageApart virt)
    (hvirt : virt < 4294967296) (hroom : s.pmm.freeSet.Nonempty ∨ s.pmm.baseUsableFrame ≤
        s.pte s.currentPd (pdIndex virt) (ptIndex virt) / 4096 ∧
      s.pte s.currentPd (pdIndex virt) (ptIndex virt) / 4096 < s.pmm.totalFrames)
    (hout : s.pagingSwapOut virt = (s₁, true)) (errCode : ℕ) :
    ∃ s₂, s₁.pageFaultHandler virt errCode = .ok s₂ ∧
      (permissionBits (s₂.pte s.currentPd (pdIndex virt) (ptIndex virt)) =
          permissionBits (s.pte s.currentPd (pdIndex virt) (ptIndex virt)) ∧
        permissionBits (s₂.entry s.currentPd (pdIndex virt)) =
          permissionBits (s.entry s.currentPd (pdIndex virt)) ↔
      hasFlag (s.pte s.currentPd (pdIndex virt) (ptIndex virt)) pageRw = true ∧
        hasFlag (s.pte s.currentPd (pdIndex virt) (ptIndex virt)) pageUser = true ∧
        hasFlag (s.entry s.currentPd (pdIndex virt)) pageUser = true) := by
  obtain ⟨s₂, f, hf, hfault, hpte, hentry⟩ :=
    swapOut_then_fault hs hapart hvirt hroom hout errCode
  refine ⟨s₂, hfault, ?_⟩
  rw [hpte, hentry, permissionBits_new f hf, ← and_assoc]
  refine and_congr ?_ ?_
  · rw [permissionBits, Prod.mk.injEq, eq_comm, eq_comm (a := true)]
  · split_ifs with huser
    · exact iff_of_true rfl huser
    · rw [permissionBits_or_user]

theorem exists_window_page (flags : ℕ) :
    ∃ s s₁ : Paging DiskImage, s.pmm.Inv ∧ s.PageApart 0xC1000000 ∧ s.pmm.freeSet.Nonempty ∧
      s.pagingSwapOut 0xC1000000 = (s₁, true) ∧ s.pte s.currentPd 772 0 = pageEntry 0x1000 flags ∧
      (flags / 4 % 2 = 1 → s.entry s.currentPd 772 / 4 % 2 = 1) := by
  obtain ⟨pmm, s, -, -, hstart, hleft⟩ :=
    exists_small_start (D := DiskImage) (fun _ => 0) (fun _ _ _ => 0)
  obtain ⟨own, hpages⟩ := hstart.pageInv
  obtain ⟨z, hz, hcur, hswap, hcard⟩ : ∃ z : Paging DiskImage,
      z.PageInv s.currentPd [s.currentPd] own ∧ z.currentPd = s.currentPd ∧ z.swap = blankSwap ∧
      23 ≤ z.pmm.freeSet.card :=
      ⟨{ s with swap := blankSwap }, hpages.congr rfl rfl, rfl, rfl, hleft⟩
  have hmem : z.currentPd ∈ [s.currentPd] := by
    rw [hcur]
    exact List.mem_singleton_self _
  obtain ⟨s', own', hmap, hm⟩ := hz.toTableInv.pagingMap hmem
    (show pdIndex 0xC1000000 < 1023 by decide) 0x1000 flags (Or.inr (Finset.card_pos.mp (by omega)))
  have hcur' : s'.currentPd ∈ [s.currentPd] := hm.currentPd ▸ hmem
  have hpte : s'.pte s'.currentPd 772 0 = pageEntry 0x1000 flags := by
    rw [hm.currentPd]
    exact hm.pte_current hmem
  have hpresent : s'.entry s'.currentPd 772 % 2 = 1 := by
    rw [hm.currentPd]
    exact hm.present
  -- the page is below the frames of the manager
  have hframe : s'.pte s'.currentPd 772 0 / 4096 = 1 := by
    rw [hpte]
    exact pageEntry_div (by decide)
  have hother : own' 1 = .other := hm.inv.unmanaged 1 (Or.inl (by have := hm.inv.pmm.floor; omega))
  have hne : ∀ {g : ℕ} {r : Role}, own' g = r → r ≠ .other → 1 ≠ g := by
    rintro g r hg hr rfl
    exact hr (hg.symm.trans hother)
  have hdir := hm.inv.dir_own _ hcur'
  have htable := hm.inv.table_own _ hcur' 772 (by decide) hpresent
  obtain ⟨s₁, -, -, hout, -⟩ := exists_swapOut (s := s') 0xC1000000 (by decide)
    ((congrArg (· % 2) hpte).trans (pageEntry_mod_two _ _))
    (by rw [hm.swap, hswap, blankSwap_swapOut]; exact Option.some_ne_none _)
  refine ⟨s', s₁, hm.inv.pmm, ⟨hm.inv.dir_aligned _ hcur', ?_, ?_, ?_, ?_⟩, ?_, hout, hpte, ?_⟩
  · rw [← hm.inv.free_iff, hdir]
    exact Role.noConfusion
  · rw [← hm.inv.free_iff]
    exact fun h => tableRole_ne_free _ _ (htable.symm.trans h)
  · exact hframe.trans_ne (hne hdir Role.noConfusion)
  · exact hframe.trans_ne (hne htable (by simp [tableRole]))
  · rw [← card_pos]
    have hp : z.entry z.currentPd (pdIndex 0xC1000000) % 2 ≠ 1 ∨ _ := ne_or_eq _ _
    rcases hp with hp | hp
    · obtain ⟨g, hg, hfree⟩ := hm.pmm_taken hp
      rw [hfree, card_erase_of_mem hg]
      omega
    · rw [hm.pmm_kept hp]
      omega
  · rw [hm.currentPd]
    exact hm.user

/-- A supervisor page of the heap comes back as a user page. -/
theorem swap_changes_permissions :
    ∃ s s₁ s₂ : Paging DiskImage, s.pmm.Inv ∧ s.PageApart 0xC1000000 ∧ s.pmm.freeSet.Nonempty ∧
      s.pagingSwapOut 0xC1000000 = (s₁, true) ∧ s₁.pageFaultHandler 0xC1000000 4 = .ok s₂ ∧
      permissionBits (s.pte s.currentPd 772 0) = (true, false) ∧
      permissionBits (s₂.pte s.currentPd 772 0) = (true, true) := by
  obtain ⟨s, s₁, hs, hapart, hne, hout, hpte, -⟩ := exists_window_page 2
  obtain ⟨s₂, f, hf, hfault, hpte2, -⟩ :=
    swapOut_then_fault hs hapart (by decide) (Or.inl hne) hout 4
  refine ⟨s, s₁, s₂, hs, hapart, hne, hout, hfault, ?_, ?_⟩
  · rw [hpte]
    decide
  · exact (congrArg permissionBits hpte2).trans (permissionBits_new f hf)

/-- A user page comes back as it was. -/
theorem swap_keeps_permissions_user :
    ∃ s s₁ s₂ : Paging DiskImage, s.pagingSwapOut 0xC1000000 = (s₁, true) ∧
      s₁.pageFaultHandler 0xC1000000 4 = .ok s₂ ∧
      permissionBits (s₂.pte s.currentPd 772 0) = permissionBits (s.pte s.currentPd 772 0) := by
  obtain ⟨s, s₁, hs, hapart, hne, hout, hpte, huser⟩ := exists_window_page 6
  obtain ⟨s₂, hfault, hiff⟩ :=
    swap_keeps_permissions_iff hs hapart (by decide) (Or.inl hne) hout 4
  have hword : s.pte s.currentPd (pdIndex 0xC1000000) (ptIndex 0xC1000000) =
      pageEntry 0x1000 6 := hpte
  refine ⟨s, s₁, s₂, hout, hfault, (hiff.mpr ⟨?_, ?_, ?_⟩).1⟩
  · rw [hword]
    decide
  · rw [hword]
    decide
  · rw [hasFlag_user]
    exact decide_eq_true (huser rfl)

end Paging

end PenOS
