import PenOS.HeapFrames
import PenOS.PageFault
import PenOS.Teardown

/-!
# The life of an address space

The frames given out are those of the address space (`Inside.split`), and `paging_destroy_directory`
frees these (`spaceFrames`).
-/

namespace PenOS

open Finset

namespace Paging

variable {D : Type} {s s' : Paging D} {live : List ℕ} {own own' : ℕ → Role} {page i₀ j₀ f : ℕ}

/-! ## One page more -/

/-- A frame has been fetched for the page-table word `j₀` below the entry `i₀`, and a table
has been made if there was none. -/
structure Fetched (s s' : Paging D) (live : List ℕ) (own' : ℕ → Role) (i₀ j₀ f : ℕ) : Prop extends
    SameRest s s' where
  inv : s'.TableInv live own'
  was_free : f ∈ s.pmm.freeSet
  present : s'.entry s.currentPd i₀ % 2 = 1
  entry_eq : ∀ i < 1023, i ≠ i₀ → s'.entry s.currentPd i = s.entry s.currentPd i
  frame_kept : s.entry s.currentPd i₀ % 2 = 1 →
    s'.entry s.currentPd i₀ / 4096 = s.entry s.currentPd i₀ / 4096
  pte_eq : ∀ i < 1023, ∀ j < 1024, i ≠ i₀ ∨ j ≠ j₀ →
    s'.pte s.currentPd i j = s.pte s.currentPd i j
  pte_page : s'.pte s.currentPd i₀ j₀ = pageEntry (f * 4096) 7
  taken : s.entry s.currentPd i₀ % 2 = 1 → s'.pmm.freeSet = s.pmm.freeSet.erase f
  table_taken : s.entry s.currentPd i₀ % 2 ≠ 1 →
    s'.entry s.currentPd i₀ / 4096 ∈ s.pmm.freeSet.erase f ∧
      s'.pmm.freeSet =
        (s.pmm.freeSet.erase f).erase (s'.entry s.currentPd i₀ / 4096)

theorem TableInv.mapFresh [Disk D] (hs : s.TableInv live own) (hcur : s.currentPd ∈ live)
    (hpage : pdIndex page < 1023) (hne : s.pmm.freeSet.Nonempty)
    (hroom : s.entry s.currentPd (pdIndex page) % 2 = 1 ∨ 2 ≤ s.pmm.freeSet.card) :
    ∃ s' own' f, s.mapFresh page = .ok s' ∧
      s.Fetched s' live own' (pdIndex page) (ptIndex page) f := by
  obtain ⟨s1, f, halloc, hf, hfresh⟩ := hs.allocFrameZero hne
  have hentry : ∀ i < 1024, s1.entry s.currentPd i = s.entry s.currentPd i :=
    hfresh.entry_eq _ (hs.dir_aligned _ hcur) (hs.free_apart hf hcur).1
  have havail : s1.entry s1.currentPd (pdIndex page) % 2 = 1 ∨ s1.pmm.freeSet.Nonempty := by
    rw [hfresh.currentPd, hentry _ (by omega), hfresh.taken]
    refine hroom.imp_right fun hcard => Finset.card_pos.mp ?_
    rw [card_erase_of_mem hf]
    omega
  obtain ⟨s', own', hmap, hm⟩ :=
    hfresh.inv.pagingMap (hfresh.currentPd ▸ hcur) hpage (f * 4096) 7 havail
  have hused := hm.toFramesUsed
  have hpte := hm.pte_current (hfresh.currentPd ▸ hcur)
  have hpresent := hm.present
  have hkept := hm.kept
  have hother := hm.entry_eq _ hcur
  obtain ⟨hpmm, htable⟩ := hused
  rw [hfresh.currentPd] at hpte hpresent hkept hother hpmm htable
  rw [hentry _ (by omega)] at hkept hpmm htable
  rw [hfresh.taken] at htable
  refine ⟨s', own', f, by rw [Paging.mapFresh, halloc]; exact hmap,
    ⟨hfresh.toSameRest.trans hm.toSameRest, hm.inv, hf, hpresent, fun i hi hne => ?_,
      fun hp => ?_, fun i hi j hj hne => ?_, hpte, fun hp => ?_, htable⟩⟩
  · rw [hother i (by omega) fun h => hne h.2, hentry i (by omega)]
  · rcases hkept hp with he | ⟨-, he⟩
    · rw [he]
    · rw [he]
      exact (or_user_facts (s.entry_lt _ _)).2.1
  · rw [hm.pte_other _ hcur i hi j hj hne, hfresh.pte_eq _ hcur i hi j hj]
  · rw [hpmm hp, hfresh.taken]

theorem Fetched.mem_spaceFrames (h : s.Fetched s' live own' i₀ j₀ f) (hf : f < 1048576)
    (huser : i₀ < 768) (hj0 : j₀ < 1024) (hnew : s.pte s.currentPd i₀ j₀ % 2 ≠ 1) {a : ℕ} :
    a ∈ s'.spaceFrames s.currentPd ↔ a ∈ s.spaceFrames s.currentPd ∨ a = f * 4096 ∨
      s.entry s.currentPd i₀ % 2 ≠ 1 ∧ a = s'.entry s.currentPd i₀ / 4096 * 4096 := by
  have hword : pageEntry (f * 4096) 7 / 4096 * 4096 = f * 4096 := by
    rw [pageEntry_frame, frameOf_eq (by omega)]
    omega
  have hentry : ∀ i < 768, i ≠ i₀ → s'.entry s.currentPd i = s.entry s.currentPd i :=
    fun i hi hne => h.entry_eq i (by omega) hne
  have hpte : ∀ i < 768, ∀ j < 1024, i ≠ i₀ ∨ j ≠ j₀ →
      s'.pte s.currentPd i j = s.pte s.currentPd i j := fun i hi j hj hne =>
    h.pte_eq i (by omega) j hj hne
  rw [Paging.mem_spaceFrames, Paging.mem_spaceFrames]
  constructor
  · rintro (rfl | ⟨i, hi, hp, rfl⟩ | ⟨i, hi, j, hj, hp, rfl⟩)
    · exact .inl (.inl rfl)
    · by_cases hne : i = i₀
      · subst hne
        by_cases hold : s.entry s.currentPd i % 2 = 1
        · exact .inl (.inr (.inl ⟨_, hi, hold, by rw [h.frame_kept hold]⟩))
        · exact .inr (.inr ⟨hold, rfl⟩)
      · rw [hentry i hi hne] at hp ⊢
        exact .inl (.inr (.inl ⟨i, hi, hp, rfl⟩))
    · by_cases hne : i = i₀ ∧ j = j₀
      · obtain ⟨rfl, rfl⟩ := hne
        rw [h.pte_page, hword]
        exact .inr (.inl rfl)
      · rw [hpte i hi j hj (by tauto)] at hp ⊢
        exact .inl (.inr (.inr ⟨i, hi, j, hj, hp, rfl⟩))
  · rintro ((rfl | ⟨i, hi, hp, rfl⟩ | ⟨i, hi, j, hj, hp, rfl⟩) | rfl | ⟨-, rfl⟩)
    · exact .inl rfl
    · by_cases hne : i = i₀
      · subst hne
        exact .inr (.inl ⟨_, hi, h.present, by rw [h.frame_kept hp]⟩)
      · exact .inr (.inl ⟨i, hi, by rw [hentry i hi hne]; exact hp, by rw [hentry i hi hne]⟩)
    · have hne : i ≠ i₀ ∨ j ≠ j₀ := by
        by_contra hboth
        obtain ⟨rfl, rfl⟩ : i = i₀ ∧ j = j₀ := by tauto
        exact hnew hp
      exact .inr (.inr ⟨i, hi, j, hj, by rw [hpte i hi j hj hne]; exact hp, by
        rw [hpte i hi j hj hne]⟩)
    · refine .inr (.inr ⟨_, huser, _, hj0, ?_, ?_⟩)
      · rw [h.pte_page]
        exact pageEntry_mod_two _ _
      · rw [h.pte_page, hword]
    · exact .inr (.inl ⟨_, huser, h.present, rfl⟩)

/-! ## Inside the new address space -/

/-- Since `s₀` the frame manager has given out the frames of the address space `pd`, which is
loaded, and no others. -/
structure Inside (s₀ s : Paging D) (pd : ℕ) (live : List ℕ) (own : ℕ → Role) : Prop where
  inv : s.TableInv (pd :: live) own
  current : s.currentPd = pd
  range : s.pmm.baseUsableFrame = s₀.pmm.baseUsableFrame ∧
    s.pmm.totalFrames = s₀.pmm.totalFrames
  split : ∀ g, g ∈ s₀.pmm.freeSet ↔ g ∈ s.pmm.freeSet ∨ ∃ a ∈ s.spaceFrames pd, a / 4096 = g

variable {s₀ : Paging D} {pd cr2 errCode : ℕ}

theorem Created.inside (h : s₀.Created s live own f) (hf : f ∈ s₀.pmm.freeSet) :
    Inside s₀ { s with currentPd := f * 4096 } (f * 4096) live
      (Function.update own f .directory) := by
  refine ⟨h.inv.withCurrent _, rfl, h.range, fun g => ?_⟩
  have hspace : ∀ a, a ∈ s.spaceFrames (f * 4096) ↔ a = f * 4096 := by
    intro a
    have habsent : ∀ i < 768, s.entry (f * 4096) i % 2 ≠ 1 := fun i hi => by
      rw [h.user i hi]
      decide
    rw [mem_spaceFrames]
    refine or_iff_left ?_
    rintro (⟨i, hi, hp, -⟩ | ⟨i, hi, j, -, hp, -⟩)
    · exact habsent i hi hp
    · exact habsent i hi (entry_of_pte hp)
  change _ ↔ g ∈ s.pmm.freeSet ∨ ∃ a ∈ s.spaceFrames (f * 4096), a / 4096 = g
  simp only [hspace, exists_eq_left, h.taken, mem_erase,
    Nat.mul_div_cancel f (show 0 < 4096 by decide)]
  constructor
  · intro hg
    by_cases hgf : g = f
    · exact .inr hgf.symm
    · exact .inl ⟨hgf, hg⟩
  · rintro (⟨-, hg⟩ | rfl)
    · exact hg
    · exact hf

theorem Inside.fetched (hin : Inside s₀ s pd live own) (h : s.Fetched s' (pd :: live) own' i₀ j₀ f)
    (huser : i₀ < 768) (hj0 : j₀ < 1024) (hnew : s.pte pd i₀ j₀ % 2 ≠ 1) :
    Inside s₀ s' pd live own' := by
  obtain rfl := hin.current
  have hf : f < 1048576 := (Pmm.mem_freeSet.mp h.was_free).2.1.trans_le hin.inv.pmm.total_le
  refine ⟨h.inv, h.currentPd,
    ⟨h.range.1.trans hin.range.1, h.range.2.trans hin.range.2⟩, fun g => ?_⟩
  rw [hin.split]
  simp only [h.mem_spaceFrames hf huser hj0 hnew]
  -- a frame is free still, or the new page's, or the new table's
  have hfree : g ∈ s.pmm.freeSet ↔ g ∈ s'.pmm.freeSet ∨ g = f ∨
      s.entry s.currentPd i₀ % 2 ≠ 1 ∧ g = s'.entry s.currentPd i₀ / 4096 := by
    by_cases hp : s.entry s.currentPd i₀ % 2 = 1
    · rw [h.taken hp, mem_erase]
      constructor
      · intro hg
        by_cases hgf : g = f
        · exact .inr (.inl hgf)
        · exact .inl ⟨hgf, hg⟩
      · rintro (⟨-, hg⟩ | rfl | ⟨hnp, -⟩)
        · exact hg
        · exact h.was_free
        · exact absurd hp hnp
    · obtain ⟨hmem, hset⟩ := h.table_taken hp
      rw [hset, mem_erase, mem_erase]
      constructor
      · intro hg
        by_cases hgf : g = f
        · exact .inr (.inl hgf)
        · by_cases hgt : g = s'.entry s.currentPd i₀ / 4096
          · exact .inr (.inr ⟨hp, hgt⟩)
          · exact .inl ⟨hgt, hgf, hg⟩
      · rintro (⟨-, -, hg⟩ | rfl | ⟨-, rfl⟩)
        · exact hg
        · exact h.was_free
        · exact mem_of_mem_erase hmem
  have hspace : (∃ a, (a ∈ s.spaceFrames s.currentPd ∨ a = f * 4096 ∨
      s.entry s.currentPd i₀ % 2 ≠ 1 ∧ a = s'.entry s.currentPd i₀ / 4096 * 4096) ∧
      a / 4096 = g) ↔ (∃ a ∈ s.spaceFrames s.currentPd, a / 4096 = g) ∨ g = f ∨
        s.entry s.currentPd i₀ % 2 ≠ 1 ∧ g = s'.entry s.currentPd i₀ / 4096 := by
    constructor
    · rintro ⟨a, ha | rfl | ⟨hp, rfl⟩, hg⟩
      · exact .inl ⟨a, ha, hg⟩
      · exact .inr (.inl (by omega))
      · exact .inr (.inr ⟨hp, by omega⟩)
    · rintro (⟨a, ha, hg⟩ | rfl | ⟨hp, rfl⟩)
      · exact ⟨a, .inl ha, hg⟩
      · exact ⟨_, .inr (.inl rfl), by omega⟩
      · exact ⟨_, .inr (.inr ⟨hp, rfl⟩), by omega⟩
  rw [hspace, hfree]
  exact or_assoc.trans (or_congr_right or_comm)

variable [Disk D]

/-- **One fault** in user mode at a page that was never mapped. -/
theorem Inside.fault (hin : Inside s₀ s pd live own) (hcr2 : cr2 < kernelVirtBase)
    (herr : errCode % 2 ≠ 1 ∧ errCode / 4 % 2 = 1)
    (hnew : s.pte pd (pdIndex cr2) (ptIndex cr2) = 0) (hne : s.pmm.freeSet.Nonempty)
    (hroom : s.entry pd (pdIndex cr2) % 2 = 1 ∨ 2 ≤ s.pmm.freeSet.card) :
    ∃ s' own' f, s.pageFaultHandler cr2 errCode = .ok s' ∧ Inside s₀ s' pd live own' ∧
      s.Fetched s' (pd :: live) own' (pdIndex cr2) (ptIndex cr2) f := by
  have hbase := kernelVirtBase_eq
  have hlt : cr2 < 4294967296 := by omega
  have huser : pdIndex cr2 < 768 := by
    rw [pdIndex]
    omega
  obtain rfl := hin.current
  have hpage := pdIndex_page hlt
  have hindex : pdIndex (cr2 &&& 0xFFFFF000) < 1023 := by omega
  obtain ⟨s', own', f, hmap, hfetched⟩ :=
    hin.inv.mapFresh List.mem_cons_self hindex hne (by rw [hpage]; exact hroom)
  rw [hpage, ptIndex_page hlt] at hfetched
  refine ⟨s', own', f, ?_, hin.fetched hfetched huser (ptIndex_lt cr2) ?_, hfetched⟩
  · rw [pageFaultHandler_eq hlt, hnew, if_neg fun h : Swapped 0 => absurd h.2 (by decide),
      if_pos herr]
    exact hmap
  · rw [hnew]
    decide

/-- The faults one after the other: address and error code. -/
def handleFaults (s : Paging D) (faults : List (ℕ × ℕ)) : Except Halt (Paging D) :=
  faults.foldlM (fun s fault => s.pageFaultHandler fault.1 fault.2) s

omit [Disk D] in
/-- The entries of the directory `pd` that have no table yet, among those the faults need. -/
def missingFor (s : Paging D) (pd : ℕ) (faults : List (ℕ × ℕ)) : Finset ℕ :=
  (faults.map fun fault => pdIndex fault.1).toFinset.filter fun i => s.entry pd i % 2 ≠ 1

/-- **All faults**, with a free frame for every page and for every table that is missing. -/
theorem Inside.faults (hin : Inside s₀ s pd live own) {faults : List (ℕ × ℕ)}
    (huser : ∀ fault ∈ faults, fault.1 < kernelVirtBase ∧ fault.2 % 2 ≠ 1 ∧ fault.2 / 4 % 2 = 1)
    (hdistinct : (faults.map fun fault => fault.1 / 4096).Nodup)
    (hnew : ∀ fault ∈ faults, s.pte pd (pdIndex fault.1) (ptIndex fault.1) = 0)
    (hroom : faults.length + (s.missingFor pd faults).card ≤ s.pmm.freeSet.card) :
    ∃ s' own', s.handleFaults faults = .ok s' ∧ Inside s₀ s' pd live own' := by
  induction faults generalizing s own with
  | nil => exact ⟨s, own, rfl, hin⟩
  | cons fault faults ih =>
    obtain ⟨hcr2, herr⟩ := huser fault List.mem_cons_self
    have hbase := kernelVirtBase_eq
    rw [List.length_cons] at hroom
    have hmissing : s.entry pd (pdIndex fault.1) % 2 ≠ 1 →
        pdIndex fault.1 ∈ s.missingFor pd (fault :: faults) := fun hp =>
      Finset.mem_filter.mpr ⟨by simp, hp⟩
    have hroom1 : s.entry pd (pdIndex fault.1) % 2 = 1 ∨ 2 ≤ s.pmm.freeSet.card := by
      refine or_iff_not_imp_left.mpr fun hp => ?_
      have hpos := Finset.card_pos.mpr ⟨_, hmissing hp⟩
      omega
    obtain ⟨s1, own1, f, hrun, hin1, hfetched⟩ := hin.fault hcr2 herr
      (hnew fault List.mem_cons_self) (Finset.card_pos.mp (by omega)) hroom1
    obtain rfl := hin.current
    obtain ⟨hfirst, hrest⟩ := List.nodup_cons.mp hdistinct
    have hnew1 : ∀ other ∈ faults,
        s1.pte s.currentPd (pdIndex other.1) (ptIndex other.1) = 0 := by
      intro other hother
      have hapart : pdIndex other.1 ≠ pdIndex fault.1 ∨ ptIndex other.1 ≠ ptIndex fault.1 := by
        by_contra hsame
        refine hfirst (List.mem_map.mpr ⟨other, hother, (same_page_iff _ _).mp ?_⟩)
        tauto
      have hlt : pdIndex other.1 < 1023 := by
        have := (huser other (List.mem_cons_of_mem _ hother)).1
        rw [pdIndex]
        omega
      rw [hfetched.pte_eq _ hlt _ (ptIndex_lt _) hapart]
      exact hnew other (List.mem_cons_of_mem _ hother)
    -- the table of this fault is not missing any more
    have hsub : s1.missingFor s.currentPd faults ⊆
        (s.missingFor s.currentPd (fault :: faults)).erase (pdIndex fault.1) := by
      intro i hi
      obtain ⟨hmem, hp⟩ := Finset.mem_filter.mp hi
      have hne : i ≠ pdIndex fault.1 := by
        rintro rfl
        exact hp hfetched.present
      have hlt : i < 1023 := by
        obtain ⟨other, hother, rfl⟩ := List.mem_map.mp (List.mem_toFinset.mp hmem)
        have := (huser other (List.mem_cons_of_mem _ hother)).1
        rw [pdIndex]
        omega
      rw [hfetched.entry_eq i hlt hne] at hp
      refine Finset.mem_erase.mpr ⟨hne, Finset.mem_filter.mpr ⟨?_, hp⟩⟩
      rw [List.map_cons, List.toFinset_cons]
      exact mem_insert_of_mem hmem
    have hroom' : faults.length + (s1.missingFor s.currentPd faults).card ≤
        s1.pmm.freeSet.card := by
      have hle := card_le_card hsub
      have hf := card_erase_of_mem hfetched.was_free
      by_cases hp : s.entry s.currentPd (pdIndex fault.1) % 2 = 1
      · have hle' := card_le_card (erase_subset (pdIndex fault.1)
          (s.missingFor s.currentPd (fault :: faults)))
        rw [hfetched.taken hp]
        omega
      · obtain ⟨htable, hset⟩ := hfetched.table_taken hp
        have hpos := Finset.card_pos.mpr ⟨_, hmissing hp⟩
        rw [card_erase_of_mem (hmissing hp)] at hle
        rw [hset, card_erase_of_mem htable]
        omega
    obtain ⟨s', own', hrun', hin'⟩ := ih hin1
      (fun other h => huser other (List.mem_cons_of_mem _ h)) hrest hnew1 hroom'
    refine ⟨s', own', ?_, hin'⟩
    rw [handleFaults, List.foldlM_cons, hrun]
    exact hrun'

/-! ## The whole life -/

/-- A directory is created and loaded, the faults happen, the old directory is loaded again and the
new one destroyed. -/
def lifeCycle (s : Paging D) (faults : List (ℕ × ℕ)) : Except Halt (Paging D) :=
  match s.pagingCreateDirectory with
  | .error e => .error e
  | .ok (s₁, pd) =>
    match (s₁.pagingSwitchDirectory pd).handleFaults faults with
    | .error e => .error e
    | .ok s₂ =>
      .ok ((s₂.pagingSwitchDirectory s.pagingGetKernelDirectory).pagingDestroyDirectory pd)

omit [Disk D] in
theorem Inside.destroyed (hin : Inside s₀ s pd live own) {old : ℕ} (hne : pd ≠ old) :
    ({ s with currentPd := old }.pagingDestroyDirectory pd).pmm.Inv ∧
      ({ s with currentPd := old }.pagingDestroyDirectory pd).pmm.freeSet = s₀.pmm.freeSet := by
  have hspace : spaceFrames { s with currentPd := old } pd = s.spaceFrames pd :=
    spaceFrames_congr rfl pd
  rw [pagingDestroyDirectory_eq hne, hspace]
  dsimp only
  obtain ⟨hinv, hmem⟩ := mem_freeSet_foldl_iff hin.inv.pmm (l := s.spaceFrames pd) fun a ha => by
    have hfree := Pmm.mem_freeSet.mp ((hin.split _).mpr (.inr ⟨a, ha, rfl⟩))
    rw [hin.range.1, hin.range.2]
    exact ⟨hfree.1, hfree.2.1⟩
  refine ⟨hinv, Finset.ext fun g => ?_⟩
  rw [hmem, hin.split]

/-- **The life of an address space is neutral**: with a free frame for the directory, every page and
every table, all calls return, and the free frames are those from before. -/
theorem life_cycle_frame_neutral (hs : s.OneDirectory) {faults : List (ℕ × ℕ)}
    (huser : ∀ fault ∈ faults, fault.1 < kernelVirtBase ∧ fault.2 % 2 ≠ 1 ∧ fault.2 / 4 % 2 = 1)
    (hdistinct : (faults.map fun fault => fault.1 / 4096).Nodup)
    (hroom : 1 + faults.length + (faults.map fun fault => pdIndex fault.1).toFinset.card ≤
      s.pmm.freeFrames) : ∃ s', s.lifeCycle faults = .ok s' ∧ s'.pmm.freeSet = s.pmm.freeSet ∧
      s'.pmm.freeFrames = s.pmm.freeFrames := by
  obtain ⟨own, hinv⟩ := hs.exists_own
  rw [hs.pmm.count] at hroom ⊢
  have hpos : 0 < s.pmm.freeSet.card := by omega
  obtain ⟨s1, f, hcreate, hf, hcreated⟩ :=
    hinv.pagingCreateDirectory List.mem_cons_self (Finset.card_pos.mp hpos)
  have habsent : ∀ fault ∈ faults, s1.entry (f * 4096) (pdIndex fault.1) % 2 ≠ 1 := by
    intro fault hfault
    have hbase := kernelVirtBase_eq
    have hcr2 := (huser fault hfault).1
    rw [hcreated.user _ (by rw [pdIndex]; omega)]
    decide
  have hroom1 : faults.length + (s1.missingFor (f * 4096) faults).card ≤ s1.pmm.freeSet.card := by
    have hle := card_filter_le (faults.map fun fault => pdIndex fault.1).toFinset
      fun i => s1.entry (f * 4096) i % 2 ≠ 1
    rw [missingFor, hcreated.taken, card_erase_of_mem hf]
    omega
  obtain ⟨s2, own2, hrun, hin2⟩ := (hcreated.inside hf).faults huser hdistinct
    (fun fault hfault => pte_of_absent (habsent fault hfault) _) hroom1
  have hne : f * 4096 ≠ s.currentPd := (hinv.free_apart hf List.mem_cons_self).1.symm
  obtain ⟨hpmm, hset⟩ := hin2.destroyed hne
  refine ⟨_, ?_, hset, hpmm.count.trans (congrArg _ hset)⟩
  rw [lifeCycle, hcreate]
  simp only [pagingSwitchDirectory_eq, pagingGetKernelDirectory, hrun]

theorem initDirectory_sixteen_frames :
    ((pmmInit 1 0 (some ⟨1024, 64, 0, fun _ => ⟨0, 0, 0, 0⟩⟩)).bind fun p =>
      (Paging.boot p (fun _ => 0) (fun _ _ _ => 0) : Paging DiskImage).initDirectory.toOption.map
        fun s => (p.freeFrames, s.pmm.freeFrames)) = some (16, 15) := by
  decide +kernel

/-- Three faults, two of them below one table, on a machine of 16 frames. -/
theorem life_cycle_frame_neutral_three :
    ∃ s s' : Paging DiskImage, s.OneDirectory ∧ s.pmm.freeFrames = 15 ∧
      s.lifeCycle [(0x1000, 4), (0x2FFF, 6), (0xBFFFF000, 6)] = .ok s' ∧
      s'.pmm.freeSet = s.pmm.freeSet ∧ s'.pmm.freeFrames = s.pmm.freeFrames := by
  obtain ⟨p, hp, hrun⟩ := Option.bind_eq_some_iff.mp initDirectory_sixteen_frames
  obtain ⟨s, hdir, hvals⟩ := Option.map_eq_some_iff.mp hrun
  obtain ⟨hp16, hfree⟩ := Prod.mk.inj hvals
  have hinv := pmmInit_inv hp
  obtain ⟨s', own, hdir', hs, -⟩ := initDirectory_spec
    (s := (Paging.boot p (fun _ => 0) (fun _ _ _ => 0) : Paging DiskImage)) hinv
    (hinv.nonempty (by omega))
  obtain rfl := Except.ok.inj (hdir'.symm.trans (ok_of_toOption hdir))
  have hone := hs.oneDirectory (List.mem_singleton_self _)
  have huser : ∀ fault ∈ [(0x1000, 4), (0x2FFF, 6), (0xBFFFF000, 6)],
      fault.1 < kernelVirtBase ∧ fault.2 % 2 ≠ 1 ∧ fault.2 / 4 % 2 = 1 := by decide
  obtain ⟨t, ht, hset, hcount⟩ := life_cycle_frame_neutral hone huser (by decide)
    (by rw [hfree]; decide)
  exact ⟨s', t, hone, hfree, ht, hset, hcount⟩

end Paging

end PenOS
