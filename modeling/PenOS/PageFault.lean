import PenOS.Eviction

/-!
# Page faults (`page_fault_handler`)

Both ways to serve a fault fetch a zeroed frame and map it; bringing a page back then reads it into
the frame and frees the slot.
-/

namespace PenOS

open Finset Function

variable {cr2 errCode page : ℕ}

namespace Paging

variable {D : Type} [Disk D] {s s' : Paging D} {boot : ℕ} {live : List ℕ} {own : ℕ → Role}

/-! ## A fresh frame, mapped -/

omit [Disk D] in
theorem Evicted.freeSet_subset {own' : ℕ → Role} (hs : s.PageInv boot live own)
    (h : s.Evicted s' boot live own own') : s.pmm.freeSet ⊆ s'.pmm.freeSet := by
  intro g hg
  have hfree := (hs.free_iff g).mpr hg
  rw [← h.inv.free_iff, h.own_kept g (by rw [hfree]; exact fun _ _ _ => Role.noConfusion)]
  exact hfree

/-- The stages of mapping a fetched frame at `virt`: pages are evicted, the frame `f` is taken,
pages are evicted for a table, the page is mapped. -/
structure NewPage (s s₁ s₂ s₃ s' : Paging D) (boot : ℕ) (live : List ℕ)
    (own own₁ own₃ own₄ : ℕ → Role) (virt flags f : ℕ) : Prop where
  evicted₁ : s.Evicted s₁ boot live own own₁
  steps₁ : EvictSteps s s₁
  fresh : s₁.FreshFrame s₂ live own₁ f
  evicted₂ : s₂.Evicted s₃ boot live (Function.update own₁ f .other) own₃
  steps₂ : EvictSteps s₂ s₃
  mapped : s₃.Mapped s' live own₃ own₄ virt (pageEntry (f * 4096) flags) flags
  inv : s'.PageInv boot live (Function.update own₄ f (pageRole s.currentPd (pdIndex virt)
    (s'.entry s.currentPd (pdIndex virt) / 4096) (ptIndex virt)))

theorem PageInv.newPage_ok {s₂ : Paging D} {virt phys flags : ℕ} (hs : s.PageInv boot live own)
    (hcur : s.currentPd ∈ live) (hhand : s.evictPdIdx < 768)
    (hroom : s.currentPd ≠ boot ∨ 2 ≤ s.pmm.freeSet.card) (hv : pdIndex virt < 1023)
    (halloc : s.allocFrameZero = .ok (s₂, phys)) (hmap : s₂.pagingMap virt phys flags = .ok s') :
    ∃ s₁ s₃ own₁ own₃ own₄ f, phys = f * 4096 ∧
      NewPage s s₁ s₂ s₃ s' boot live own own₁ own₃ own₄ virt flags f := by
  have hroom1 : s.Room boot := hroom.symm.imp (fun h => Finset.card_pos.mp (by omega)) id
  obtain ⟨s₁, own₁, f, hev1, hsteps1, rfl, hfresh⟩ := hs.allocFrameZero_ok hcur hhand hroom1 halloc
  have hinv2 : s₂.PageInv boot live _ := FreshFrame.pageInv hev1.inv hfresh
  have hcur2 : s₂.currentPd = s.currentPd := hfresh.currentPd.trans hev1.currentPd
  have hroom2 : s₂.Room boot := by
    rcases hroom with hne | hcard
    · exact Or.inr (hcur2 ▸ hne)
    · have hsub := card_le_card (hev1.freeSet_subset hs)
      have hf := (hev1.inv.free_iff f).mp hfresh.was_free
      refine Or.inl (Finset.card_pos.mp ?_)
      rw [hfresh.taken, card_erase_of_mem hf]
      omega
  have hhand2 : s₂.evictPdIdx < 768 := hfresh.hand.1 ▸ hev1.hand hhand
  obtain ⟨s₃, own₃, own₄, hev2, hsteps2, hm⟩ := hinv2.pagingMap_ok (hcur2 ▸ hcur) hhand2 hv
    (Or.inr hroom2) hmap
  have hfpos := hfresh.lt hev1.inv.pmm
  have hcur3 : s₃.currentPd = s.currentPd := hev2.currentPd.trans hcur2
  have hself : Function.update own₁ f Role.other f = .other := update_self ..
  have hrole : own₃ f = .other :=
    (hev2.own_kept f (by rw [hself]; exact fun _ _ _ => Role.noConfusion)).trans hself
  have hdiv : f * 4096 / 4096 = f := frame_div _
  have hrange : s₃.pmm.baseUsableFrame ≤ f ∧ f < s₃.pmm.totalFrames := by
    rw [hev2.range.1, hev2.range.2, hfresh.range.1, hfresh.range.2]
    exact hfresh.managed
  have hinv := hev2.inv.mapped hm (hcur3 ▸ hcur) hv (by omega) (by rw [hdiv]; exact hrole)
    (by rw [hdiv]; exact hrange)
  rw [hdiv, hcur3] at hinv
  exact ⟨s₁, s₃, own₁, own₃, own₄, f, rfl, hev1, hsteps1, hfresh, hev2, hsteps2, hm, hinv⟩

section

variable {s₁ s₂ s₃ : Paging D} {own₁ own₃ own₄ : ℕ → Role} {virt flags f : ℕ}
  (h : NewPage s s₁ s₂ s₃ s' boot live own own₁ own₃ own₄ virt flags f)

include h

theorem NewPage.currentPd₃ : s₃.currentPd = s.currentPd :=
  (h.evicted₂.currentPd.trans h.fresh.currentPd).trans h.evicted₁.currentPd

theorem NewPage.currentPd : s'.currentPd = s.currentPd := h.mapped.currentPd.trans h.currentPd₃

/-- The word of the page. -/
theorem NewPage.pte_virt (hcur : s.currentPd ∈ live) :
    s'.pte s.currentPd (pdIndex virt) (ptIndex virt) = pageEntry (f * 4096) flags := by
  rw [← h.currentPd₃]
  exact h.mapped.pte_current (h.currentPd₃ ▸ hcur)

/-- The address now translates to the frame. -/
theorem NewPage.virtToPhys (hcur : s.currentPd ∈ live) (hvirt : virt % 4096 = 0) :
    s'.pagingVirtToPhys virt = f * 4096 := by
  have hf := h.fresh.lt h.evicted₁.inv.pmm
  have hframe : pageEntry (f * 4096) flags / 4096 * 4096 = f * 4096 := by
    rw [pageEntry_frame, frameOf_eq (by omega), frame_div]
  rw [pagingVirtToPhys_eq, h.currentPd, h.pte_virt hcur, if_pos (pageEntry_mod_two _ _), hframe,
    hvirt, Nat.add_zero]

theorem NewPage.hand (hhand : s.evictPdIdx < 768) : s'.evictPdIdx < 768 := by
  rw [h.mapped.hand.1]
  exact h.evicted₂.hand (h.fresh.hand.1 ▸ h.evicted₁.hand hhand)

theorem NewPage.pte_absent {d i j : ℕ} (hd : d ∈ live) (hi : i < 1023)
    (hj : j < 1024) (ha : s.pte d i j % 2 ≠ 1) : s₃.pte d i j = s.pte d i j := by
  have h1 := h.evicted₁.pte_absent d hd i hi j hj ha
  have h2 := (h.fresh.pte_eq d hd i hi j hj).trans h1
  rw [h.evicted₂.pte_absent d hd i hi j hj (by rw [h2]; exact ha), h2]

end

/-! ## The handler -/

omit [Disk D] in
/-- The page-table word stands for a page in the swap area. -/
def Swapped (e : ℕ) : Prop := e % 2 ≠ 1 ∧ e / 512 % 2 = 1

omit [Disk D] in
instance (e : ℕ) : Decidable (Swapped e) := inferInstanceAs (Decidable (_ ∧ _))

/-- What both ways to serve a fault do first. -/
def mapFresh (s : Paging D) (page : ℕ) : Except Halt (Paging D) :=
  match s.allocFrameZero with
  | .error h => .error h
  | .ok (s, phys) => s.pagingMap page phys 7

/-- What swapping in does then: the slot is read into the page and freed. -/
def readBack (s : Paging D) (page slot : ℕ) : Paging D :=
  { s with
    mem := s.mem.paste (s.pagingVirtToPhys page) 4096
      (s.swap.swapIn slot (s.pageAt (s.pagingVirtToPhys page))).1
    swap := s.swap.swapFree slot }

/-- The handler by the word of the page. -/
theorem pageFaultHandler_eq (hcr2 : cr2 < 4294967296) (errCode : ℕ) :
    s.pageFaultHandler cr2 errCode = if Swapped (s.pte s.currentPd (pdIndex cr2) (ptIndex cr2)) then
        (s.mapFresh (cr2 &&& 0xFFFFF000)).map fun s' =>
          s'.readBack (cr2 &&& 0xFFFFF000) (s.pte s.currentPd (pdIndex cr2) (ptIndex cr2) / 4096)
      else if errCode % 2 ≠ 1 ∧ errCode / 4 % 2 = 1 then s.mapFresh (cr2 &&& 0xFFFFF000)
      else .error .pageFault := by
  have hflag1 : hasFlag errCode 1 = decide (errCode % 2 = 1) := hasFlag_present errCode
  have hflag4 : hasFlag errCode 4 = decide (errCode / 4 % 2 = 1) := hasFlag_user errCode
  have hseven : pagePresent ||| pageRw ||| pageUser = 7 := rfl
  have hdemand : (if (!decide (errCode % 2 = 1) && decide (errCode / 4 % 2 = 1)) = true then
        s.mapFresh (cr2 &&& 0xFFFFF000) else Except.error Halt.pageFault) =
      if errCode % 2 ≠ 1 ∧ errCode / 4 % 2 = 1 then s.mapFresh (cr2 &&& 0xFFFFF000)
      else .error .pageFault := if_congr (by simp) rfl rfl
  simp only [pageFaultHandler, findPageTable_eq, pdIndex_page hcr2, ptIndex_page hcr2, hseven,
    hflag1, hflag4]
  by_cases htable : s.entry s.currentPd (pdIndex cr2) % 2 = 1
  · rw [if_pos htable, pte_of_present htable]
    simp only [hasFlag_present, hasFlag_swapped]
    by_cases hsw : Swapped (s.entry (s.entry s.currentPd (pdIndex cr2) / 4096 * 4096) (ptIndex cr2))
    · rw [if_pos hsw, if_pos (by simpa [Swapped] using hsw), mapFresh]
      rcases s.allocFrameZero with e | ⟨s₂, phys⟩
      · rfl
      · dsimp only
        rcases s₂.pagingMap (cr2 &&& 0xFFFFF000) phys 7 with e | s4 <;> rfl
    · rw [if_neg hsw, if_neg (by simpa [Swapped] using hsw)]
      exact hdemand
  · rw [if_neg htable, pte_of_absent htable, if_neg (fun h : Swapped 0 => absurd h.2 (by decide))]
    exact hdemand

theorem pageFaultHandler_cases (hcr2 : cr2 < 4294967296)
    (h : s.pageFaultHandler cr2 errCode = .ok s') : ∃ s4, s.mapFresh (cr2 &&& 0xFFFFF000) = .ok s4 ∧
      (¬ Swapped (s.pte s.currentPd (pdIndex cr2) (ptIndex cr2)) ∧ s' = s4 ∨
        Swapped (s.pte s.currentPd (pdIndex cr2) (ptIndex cr2)) ∧
          s' = s4.readBack (cr2 &&& 0xFFFFF000)
            (s.pte s.currentPd (pdIndex cr2) (ptIndex cr2) / 4096)) := by
  rw [pageFaultHandler_eq hcr2] at h
  split_ifs at h with hsw herr
  · rcases hmap : s.mapFresh (cr2 &&& 0xFFFFF000) with e | s4
    · rw [hmap] at h
      cases h
    · rw [hmap] at h
      exact ⟨s4, rfl, Or.inr ⟨hsw, (Except.ok.inj h).symm⟩⟩
  · exact ⟨s', h, Or.inl ⟨hsw, rfl⟩⟩

/-- The fetched page, by its stages. -/
theorem PageInv.mapFresh_ok (hs : s.PageInv boot live own) (hcur : s.currentPd ∈ live)
    (hhand : s.evictPdIdx < 768) (hroom : s.currentPd ≠ boot ∨ 2 ≤ s.pmm.freeSet.card)
    (hpage : pdIndex page < 1023) (h : s.mapFresh page = .ok s') :
    ∃ s₁ s₂ s₃ own₁ own₃ own₄ f, NewPage s s₁ s₂ s₃ s' boot live own own₁ own₃ own₄ page 7 f := by
  rw [mapFresh] at h
  rcases halloc : s.allocFrameZero with e | ⟨s₂, phys⟩
  · rw [halloc] at h
    cases h
  · rw [halloc] at h
    obtain ⟨s₁, s₃, own₁, own₃, own₄, f, rfl, hnew⟩ :=
      hs.newPage_ok hcur hhand hroom hpage halloc h
    exact ⟨s₁, s₂, s₃, own₁, own₃, own₄, f, hnew⟩

theorem PageInv.mapFresh_of_free (hs : s.PageInv boot live own)
    (hcur : s.currentPd ∈ live) (hpage : pdIndex page < 1023) (hcard : 2 ≤ s.pmm.freeSet.card) :
    ∃ s', s.mapFresh page = .ok s' ∧ s'.swap = s.swap ∧
      s.pmm.freeSet.card ≤ s'.pmm.freeSet.card + 2 := by
  obtain ⟨s₂, f, halloc, hf, hfresh⟩ :=
    hs.toTableInv.allocFrameZero (Finset.card_pos.mp (by omega))
  have hcard2 : s₂.pmm.freeSet.card + 1 = s.pmm.freeSet.card := by
    rw [hfresh.taken, card_erase_of_mem hf]
    omega
  obtain ⟨s', own', hmap, hm⟩ := hfresh.inv.pagingMap (hfresh.currentPd ▸ hcur) hpage (f * 4096) 7
    (Or.inr (Finset.card_pos.mp (by omega)))
  refine ⟨s', by rw [mapFresh, halloc]; exact hmap, hm.swap.trans hfresh.swap, ?_⟩
  by_cases hp : s₂.entry s₂.currentPd (pdIndex page) % 2 = 1
  · rw [hm.pmm_kept hp]
    omega
  · obtain ⟨g, hg, hfree⟩ := hm.pmm_taken hp
    rw [hfree, card_erase_of_mem hg]
    omega

theorem NewPage.readBack_inv {s₁ s₂ s₃ : Paging D} {own₁ own₃ own₄ : ℕ → Role} {f : ℕ}
    (h : NewPage s s₁ s₂ s₃ s' boot live own own₁ own₃ own₄ page 7 f) (hcur : s.currentPd ∈ live)
    (hpage : page % 4096 = 0) (slot : ℕ) :
    (s'.readBack page slot).PageInv boot live (Function.update own₄ f (pageRole s.currentPd
        (pdIndex page) (s'.entry s.currentPd (pdIndex page) / 4096) (ptIndex page))) ∧
      (∀ d ∈ live, ∀ i < 1024, (s'.readBack page slot).entry d i = s'.entry d i) ∧
      ∀ d ∈ live, ∀ i < 1023, ∀ j < 1024, (s'.readBack page slot).pte d i j = s'.pte d i j := by
  refine h.inv.of_bytes rfl fun x hx => Mem.paste_of_not_mem ?_
  rw [h.virtToPhys hcur hpage]
  by_contra hin
  refine hx ?_
  rw [show x / 4096 = f by omega, update_self]
  exact pageRole_loose _ _ _ _

/-- **`page_fault_handler`** keeps the roles, if it returns. -/
theorem PageInv.pageFault_ok (hs : s.PageInv boot live own)
    (hcur : s.currentPd ∈ live) (hhand : s.evictPdIdx < 768)
    (hroom : s.currentPd ≠ boot ∨ 2 ≤ s.pmm.freeSet.card) (hcr2 : cr2 < 0xFFC00000)
    (h : s.pageFaultHandler cr2 errCode = .ok s') :
    ∃ own', s'.PageInv boot live own' ∧ s'.currentPd = s.currentPd ∧ s'.evictPdIdx < 768 := by
  have hlt : cr2 < 4294967296 := by omega
  have hpd : pdIndex (cr2 &&& 0xFFFFF000) < 1023 := by
    rw [pdIndex_page hlt, pdIndex]
    omega
  obtain ⟨s4, hmap, hcase⟩ := pageFaultHandler_cases hlt h
  obtain ⟨s₁, s₂, s₃, own₁, own₃, own₄, f, hnew⟩ := hs.mapFresh_ok hcur hhand hroom hpd hmap
  rcases hcase with ⟨-, rfl⟩ | ⟨-, rfl⟩
  · exact ⟨_, hnew.inv, hnew.currentPd, hnew.hand hhand⟩
  · have hpage : (cr2 &&& 0xFFFFF000) % 4096 = 0 := by rw [and_pageMask hlt, Nat.mul_mod_left]
    exact ⟨_, (hnew.readBack_inv hcur hpage _).1, hnew.currentPd, hnew.hand hhand⟩

end Paging

end PenOS
