import PenOS.Processes
import PenOS.HeapAgree
import PenOS.TaskRun

/-!
# The memory behind tasks

`MemInv` is what the stacks and directories of tasks have in common: the blocks of the heap, the
roles of the frames of all directories, and which directory is loaded.
-/

namespace PenOS

open List

variable {D : Type}
variable {a d d0 entry flags i i0 n p stack ustack v virt x : ℕ} {u : ℕ × ℕ}

namespace Paging

variable {s s' s₁ : Paging D} {boot e k : ℕ} {ex : ℕ → ℕ → Prop} {live : List ℕ}
  {own own' : ℕ → Role}

/-! ## What heap calls leave alone -/

/-- The user halves of the directories and their recursive entries are as before. -/
structure UserKept (s s' : Paging D) (live : List ℕ) : Prop extends SameRest s s' where
  entry_user : ∀ d ∈ live, ∀ i < 1024, i < 768 ∨ i = 1023 → s'.entry d i = s.entry d i
  pte_user : ∀ d ∈ live, ∀ i < 768, ∀ j < 1024, s'.pte d i j = s.pte d i j

theorem UserKept.refl (s : Paging D) (live : List ℕ) : s.UserKept s live :=
  ⟨.refl s, fun _ _ _ _ _ => rfl, fun _ _ _ _ _ _ => rfl⟩

theorem UserKept.trans (h : s.UserKept s₁ live) (h' : s₁.UserKept s' live) : s.UserKept s' live :=
  ⟨h.toSameRest.trans h'.toSameRest,
    fun d hd i hi hu => (h'.entry_user d hd i hi hu).trans (h.entry_user d hd i hi hu),
    fun d hd i hi j hj => (h'.pte_user d hd i hi j hj).trans (h.pte_user d hd i hi j hj)⟩

/-- The address spaces are made of the same frames. -/
theorem UserKept.mem_spaceFrames (h : s.UserKept s' live) {pd : ℕ} (hpd : pd ∈ live) :
    x ∈ s'.spaceFrames pd ↔ x ∈ s.spaceFrames pd := by
  rw [Paging.mem_spaceFrames, Paging.mem_spaceFrames]
  refine or_congr_right (or_congr ?_ ?_)
  · refine exists_congr fun i => and_congr_right fun hi => ?_
    rw [h.entry_user pd hpd i (by omega) (.inl hi)]
  · refine exists_congr fun i => and_congr_right fun hi => exists_congr fun j =>
      and_congr_right fun hj => ?_
    rw [h.pte_user pd hpd i hi j hj]

theorem exclusive_uniform (d d' i : ℕ) (hi : 768 ≤ i) (h : Exclusive boot d i) :
    Exclusive boot d' i := h.kernel d' hi

theorem Grown.userKept {f : ℕ} (h : s.Grown s' ex live own own' e f)
    (hwin : InWindow s.currentPd (pdIndex e)) : s.UserKept s' live := by
  simp only [InWindow] at hwin
  exact ⟨h.toSameRest, fun d hd i hi hu => h.entry_eq d hd i hi (by omega),
    fun d hd i hi j hj => h.pte_other d hd i (by omega) j hj (by omega)⟩

theorem Shrunk.userKept (h : s.Shrunk s' ex live own own' e)
    (hwin : InWindow s.currentPd (pdIndex e)) : s.UserKept s' live := by
  simp only [InWindow] at hwin
  exact ⟨h.toSameRest, fun d hd i hi _ => h.entry_eq d hd i hi,
    fun d hd i hi j hj => h.pte_other d hd i (by omega) j hj (by omega)⟩

theorem Shrunk.freeSet_subset (h : s.Shrunk s' ex live own own' e)
    (hs : s.TableInv live own) : s.pmm.freeSet ⊆ s'.pmm.freeSet := by
  intro g hg
  have hfree := (hs.free_iff g).mpr hg
  rw [← h.inv.free_iff]
  by_cases hp : s.pte s.currentPd (pdIndex e) (ptIndex e) % 2 = 1 ∧
      g = s.pte s.currentPd (pdIndex e) (ptIndex e) / 4096
  · rw [hp.2]
    exact h.own_freed hp.1
  · rw [h.own_kept g fun h1 h2 => hp ⟨h1, h2⟩]
    exact hfree

/-- The frame of an unmapped page was no client's. -/
theorem Shrunk.client_kept (h : s.Shrunk s' ex live own own' e) (hs : s.PageInvOn ex live own)
    (hcur : s.currentPd ∈ live) (hv : pdIndex e < 1023) (hpage : ex s.currentPd (pdIndex e)) {g : ℕ}
    (hg : own g = .other) : own' g = .other := by
  rw [h.own_kept g, hg]
  rintro hp rfl
  rw [hs.page_own _ hcur _ hv _ (ptIndex_lt e) hpage hp] at hg
  exact pageRole_ne_other _ _ _ _ hg

theorem PageInvOn.shrinkDown (hs : s.PageInvOn ex live own)
    (hex : ∀ d d' i, 768 ≤ i → ex d i → ex d' i) (hheap : ∀ d i, InWindow d i → ex d i)
    (hcur : s.currentPd ∈ live) (hlo : heapStart + k * 4096 ≤ e) (hhi : e ≤ heapEnd)
    (haligned : e % 4096 = 0) :
    (∃ own', (shrinkDown k s e).PageInvOn ex live own' ∧ ∀ g, own g = .other → own' g = .other) ∧
      s.UserKept (shrinkDown k s e) live ∧ s.pmm.freeSet ⊆ (shrinkDown k s e).pmm.freeSet := by
  induction k generalizing s e own with
  | zero => exact ⟨⟨own, hs, fun _ => id⟩, .refl s live, subset_rfl⟩
  | succ k ih =>
    obtain ⟨own1, hwin, hg, h1, h2, h3⟩ := hs.shrink_succ hex hheap hcur hlo hhi haligned
    rw [shrinkDown]
    obtain ⟨⟨own', hs', hother⟩, hkept, hsub⟩ := ih hg.inv (hg.currentPd ▸ hcur) h1 h2 h3
    exact ⟨⟨own', hs', fun g h => hother g (hg.client_kept hs hcur hwin.lt (hheap _ _ hwin) h)⟩,
      (hg.userKept hwin).trans hkept, (hg.freeSet_subset hs.toTableInv).trans hsub⟩

theorem PageInvOn.growUp [Disk D] (hs : s.PageInvOn ex live own) (hcur : s.currentPd ∈ live)
    (hlo : heapStart ≤ e) (hhi : e + k * 4096 ≤ heapEnd) (hsup : s.Supply k)
    (h : growUp k s e = .ok s') :
    (∃ own', s'.PageInvOn ex live own' ∧ ∀ g, own g ≠ .free → own' g = own g) ∧
      s.UserKept s' live ∧ s.pmm.freeSet.card ≤ s'.pmm.freeSet.card + 2 * k ∧
      ∀ n, s.Plenty (n + k) → s'.Plenty n := by
  induction k generalizing s e own with
  | zero =>
    obtain rfl := Except.ok.inj h
    exact ⟨⟨own, hs, fun _ _ => rfl⟩, .refl s live, le_rfl, fun n hn => hn⟩
  | succ k ih =>
    obtain ⟨s₁, own1, f, hwin, -, -, hg, -, hsup1, h⟩ := hs.growUp_succ hcur hlo (by omega) hsup h
    obtain ⟨⟨own', hs', hused⟩, hkept, hcard, hplenty⟩ :=
      ih hg.inv (hg.currentPd ▸ hcur) (by omega) (by omega) hsup1 h
    have htwo := hg.card hs.toTableInv
    refine ⟨⟨own', hs', fun g hne => ?_⟩, (hg.userKept hwin).trans hkept, by omega, fun n hn =>
      hplenty n (Plenty.grown hn hs.toTableInv hcur hwin hg)⟩
    rw [hused g (by rw [hg.own_kept g hne]; exact hne), hg.own_kept g hne]

/-! ## Remapping a page to its own frame -/

section

variable (hs : s.TableInv live own) (hd0 : d0 ∈ live) (hi0 : i0 < 1024)
  (hpresent : u32 v % 2 = s.entry d0 i0 % 2)
  (hframe : u32 v / 4096 = s.entry d0 i0 / 4096) (hd : d ∈ live)

include hs hd0 hi0 hpresent hframe hd

theorem TableInv.entry_setPdeSame (hi : i < 1024) :
    (s.setEntry d0 i0 v).entry d i % 2 = s.entry d i % 2 ∧
      (s.setEntry d0 i0 v).entry d i / 4096 = s.entry d i / 4096 := by
  have hself : (s.setEntry d0 i0 v).entry d0 i0 = u32 v := entry_setEntry_self _ _ _ _
  by_cases heq : d = d0 ∧ i = i0
  · obtain ⟨rfl, rfl⟩ := heq
    rw [hself]
    exact ⟨hpresent, hframe⟩
  · rw [hs.entry_setPde hd0 hi0 hd hi heq]
    exact ⟨rfl, rfl⟩

theorem TableInv.pte_setPdeSame {j : ℕ} (hi : i < 1023)
    (hj : j < 1024) : (s.setEntry d0 i0 v).pte d i j = s.pte d i j := by
  obtain ⟨hm, hq⟩ := hs.entry_setPdeSame hd0 hi0 hpresent hframe hd (i := i) (by omega)
  by_cases hp : s.entry d i % 2 = 1
  · rw [pte_of_present (by rw [hm]; exact hp), pte_of_present hp, hq]
    exact entry_setEntry_of_ne s v (hs.dir_aligned _ hd0) (by omega) hi0 hj
      (.inl (hs.table_ne_dir hd hi hp hd0).symm)
  · rw [pte_of_absent (by rw [hm]; exact hp), pte_of_absent hp]

end

theorem PageInvOn.setPdeSame (hs : s.PageInvOn ex live own)
    (hd0 : d0 ∈ live) (hi0 : i0 < 1024) (hpresent : u32 v % 2 = s.entry d0 i0 % 2)
    (hframe : u32 v / 4096 = s.entry d0 i0 / 4096) :
    (s.setEntry d0 i0 v).PageInvOn ex live own := by
  refine ⟨⟨hs.pmm, hs.free_iff, hs.unmanaged, hs.dir_aligned, hs.dir_own, fun d hd i hi hp => ?_⟩,
    fun d hd i hi j hj he hp => ?_⟩
  · obtain ⟨hm, hq⟩ := hs.entry_setPdeSame hd0 hi0 hpresent hframe hd (i := i) (by omega)
    rw [hm] at hp
    rw [hq]
    exact hs.table_own d hd i hi hp
  · rw [hs.pte_setPdeSame hd0 hi0 hpresent hframe hd hi hj] at hp ⊢
    rw [(hs.entry_setPdeSame hd0 hi0 hpresent hframe hd (by omega)).2]
    exact hs.page_own d hd i hi j hj he hp

/-- A page mapped again to the frame it has. -/
theorem PageInvOn.remapped {word : ℕ} (hs : s.PageInvOn ex live own)
    (hex : ∀ d d' i, 768 ≤ i → ex d i → ex d' i) (hcur : s.currentPd ∈ live)
    (hv : pdIndex virt < 1023) (hp : s.pte s.currentPd (pdIndex virt) (ptIndex virt) % 2 = 1)
    (hframe : word / 4096 = s.pte s.currentPd (pdIndex virt) (ptIndex virt) / 4096)
    (hm : s.Mapped s' live own own' virt word flags) : s'.PageInvOn ex live own' := by
  have htable : s'.entry s.currentPd (pdIndex virt) / 4096 =
      s.entry s.currentPd (pdIndex virt) / 4096 := by
    rcases hm.kept (entry_of_pte hp) with hk | ⟨-, hk⟩
    · rw [hk]
    · rw [hk]
      exact (or_user_facts (s.entry_lt _ _)).2.1
  have hentry : ∀ d ∈ live, ∀ i < 1023, s'.entry d i / 4096 = s.entry d i / 4096 := by
    intro d hd i hi
    by_cases heq : d = s.currentPd ∧ i = pdIndex virt
    · obtain ⟨rfl, rfl⟩ := heq
      exact htable
    · rw [hm.entry_eq d hd i (by omega) heq]
  have hold : ∀ d ∈ live, ∀ i < 1023, ∀ j < 1024, ex d i → s.pte d i j % 2 = 1 →
      own' (s.pte d i j / 4096) = pageRole d i (s'.entry d i / 4096) j := by
    intro d hd i hi j hj he hp
    have hrole := hs.page_own d hd i hi j hj he hp
    rw [hm.own_kept _ (by rw [hrole]; exact pageRole_ne_free _ _ _ _), hrole, hentry d hd i hi]
  refine ⟨hm.inv, fun d hd i hi j hj he hpj => ?_⟩
  by_cases hij : i = pdIndex virt ∧ j = ptIndex virt
  · obtain ⟨rfl, rfl⟩ := hij
    rw [hm.pte_virt d hd] at hpj ⊢
    split at hpj
    · rename_i hsame
      obtain ⟨-, hdd⟩ := hm.inv.table_inj hd hcur hi hi hsame.1 hm.present hsame.2
      rw [if_pos hsame, hframe, hsame.2]
      -- through another directory only a kernel table is reached
      rcases lt_or_ge (pdIndex virt) 768 with hlo | hlo
      · obtain rfl := hdd hlo
        exact hold _ hcur _ hi _ hj he hp
      · rw [hold _ hcur _ hi _ hj (hex d _ _ hlo he) hp, pageRole, pageRole, if_neg (by omega),
          if_neg (by omega)]
    · rename_i hother
      rw [if_neg hother]
      exact hold d hd _ hi _ hj he hpj
  · rw [hm.pte_other d hd i hi j hj (by tauto)] at hpj ⊢
    exact hold d hd i hi j hj he hpj

/-- The last entry of the loaded directory names the directory itself. -/
def Recursive (s : Paging D) : Prop :=
  s.entry s.currentPd 1023 % 2 = 1 ∧ s.entry s.currentPd 1023 / 4096 = s.currentPd / 4096

variable [Disk D]

theorem pagingMap_present (virt phys flags : ℕ) (hp : s.entry s.currentPd (pdIndex virt) % 2 = 1) :
    ∃ s₁, s.pagingMap virt phys flags =
        .ok (s₁.setEntry (s.entry s.currentPd (pdIndex virt) / 4096 * 4096) (ptIndex virt)
          (pageEntry phys flags)) ∧ (s₁ = s ∨ s₁ = s.setEntry s.currentPd (pdIndex virt)
        (s.entry s.currentPd (pdIndex virt) ||| pageUser)) := by
  simp only [pagingMap, getPageTable, hasFlag_present, decide_eq_true hp, Bool.not_true,
    Bool.false_eq_true, if_false, frameOf_entry]
  split_ifs
  · exact ⟨_, rfl, .inr rfl⟩
  · exact ⟨_, rfl, .inl rfl⟩

/-- **Remapping**: `paging_map` of a mapped address to the frame it has, even in the recursive
window. -/
theorem PageInv.mapSame {phys : ℕ} (hs : s.PageInv boot live own)
    (hcur : s.currentPd ∈ live) (hrec : s.Recursive) (hvirt : virt < 4294967296)
    (hphys : phys < 4294967296) (hp : s.pte s.currentPd (pdIndex virt) (ptIndex virt) % 2 = 1)
    (hframe : phys / 4096 = s.pte s.currentPd (pdIndex virt) (ptIndex virt) / 4096)
    (h : s.pagingMap virt phys flags = .ok s') :
    (∃ own', s'.PageInv boot live own') ∧ s.SameRest s' ∧ s'.Recursive := by
  have hi : pdIndex virt < 1024 := by
    rw [pdIndex]
    omega
  have hj := ptIndex_lt virt
  have hword : u32 (pageEntry phys flags) = pageEntry phys flags := u32_of_lt (pageEntry_lt _ _)
  have hentry := entry_of_pte hp
  have hsame : pageEntry phys flags / 4096 =
      s.pte s.currentPd (pdIndex virt) (ptIndex virt) / 4096 := (pageEntry_div hphys).trans hframe
  by_cases hlast : pdIndex virt < 1023
  · obtain ⟨s₁, own', hrun, hm⟩ := hs.toTableInv.pagingMap hcur hlast phys flags (.inl hentry)
    obtain rfl := Except.ok.inj (hrun.symm.trans h)
    refine ⟨⟨own', hs.remapped exclusive_uniform hcur hlast hp hsame hm⟩, hm.toSameRest, ?_⟩
    rw [Recursive, hm.currentPd, hm.entry_eq _ hcur 1023 (by decide) (by omega)]
    exact hrec
  · -- the recursive window: the table is the directory
    have hpd : pdIndex virt = 1023 := by omega
    obtain ⟨hrec1, hrec2⟩ := hrec
    have haligned := hs.dir_aligned _ hcur
    obtain ⟨s₁, hrun, hs1⟩ := pagingMap_present virt phys flags hentry
    obtain rfl := Except.ok.inj (hrun.symm.trans h)
    have hbase : s.currentPd / 4096 * 4096 = s.currentPd := by omega
    rw [hpd] at hs1
    rw [hpd, hrec2, hbase]
    rw [hpd, pte_of_present hrec1, hrec2, hbase] at hp hsame
    obtain ⟨hlt, hdiv, hmod, -⟩ := or_user_facts (s.entry_lt s.currentPd 1023)
    have hstep : s₁.PageInv boot live own ∧ s.SameRest s₁ ∧ ∀ i < 1024,
        s₁.entry s.currentPd i % 2 = s.entry s.currentPd i % 2 ∧
          s₁.entry s.currentPd i / 4096 = s.entry s.currentPd i / 4096 := by
      rcases hs1 with rfl | rfl
      · exact ⟨hs, .refl _, fun _ _ => ⟨rfl, rfl⟩⟩
      · refine ⟨hs.setPdeSame hcur (by decide) (by rw [u32_of_lt hlt]; exact hmod)
          (by rw [u32_of_lt hlt]; exact hdiv), (SameRest.refl s).setEntry _ _ _, fun i hi => ?_⟩
        by_cases hlast : i = 1023
        · subst hlast
          rw [entry_setEntry_self, u32_of_lt hlt]
          exact ⟨hmod, hdiv⟩
        · rw [entry_setEntry_of_ne s _ haligned haligned (by decide) hi (.inr hlast)]
          exact ⟨rfl, rfl⟩
    obtain ⟨hinv, hrest, hkeep⟩ := hstep
    have hcur1 : s₁.currentPd = s.currentPd := hrest.currentPd
    refine ⟨⟨own, hinv.setPdeSame hcur hj ?_ ?_⟩, hrest.setEntry _ _ _, ?_⟩
    · rw [hword, (hkeep _ hj).1, hp]
      exact pageEntry_mod_two _ _
    · rw [hword, (hkeep _ hj).2]
      exact hsame
    · change (s₁.setEntry s.currentPd _ _).entry s₁.currentPd 1023 % 2 = 1 ∧
        (s₁.setEntry s.currentPd _ _).entry s₁.currentPd 1023 / 4096 = s₁.currentPd / 4096
      rw [hcur1]
      by_cases hk : (1023 : ℕ) = ptIndex virt
      · rw [← hk, entry_setEntry_self, hword]
        rw [← hk] at hsame
        exact ⟨pageEntry_mod_two _ _, hsame.trans hrec2⟩
      · rw [entry_setEntry_of_ne s₁ _ haligned haligned hj (by decide) (.inr hk)]
        exact ⟨(hkeep 1023 (by decide)).1.trans hrec1, (hkeep 1023 (by decide)).2.trans hrec2⟩

omit [Disk D] in
theorem pagingVirtToPhys_lt (s : Paging D) (w : ℕ) : s.pagingVirtToPhys w < 4294967296 := by
  rw [pagingVirtToPhys_eq]
  have := s.pte_lt s.currentPd (pdIndex w) (ptIndex w)
  split <;> omega

omit [Disk D] in
/-- An address that is translated is mapped. -/
theorem pte_of_virtToPhys {w : ℕ} (hne : s.pagingVirtToPhys w ≠ 0) :
    s.pte s.currentPd (pdIndex w) (ptIndex w) % 2 = 1 ∧ s.pagingVirtToPhys w / 4096 =
      s.pte s.currentPd (pdIndex w) (ptIndex w) / 4096 := by
  rw [pagingVirtToPhys_eq] at hne ⊢
  split_ifs at hne ⊢ with hp
  · exact ⟨hp, by omega⟩
  · exact absurd rfl hne

/-- **The remapping in `sched_spawn_user`** moves no page. -/
theorem PageInv.mapUserPages (hs : s.PageInv boot live own)
    (hcur : s.currentPd ∈ live) (hrec : s.Recursive) (hustack : ustack < 4294967296)
    (hentry : entry < 4294967296) (h : Sched.mapUserPages s ustack entry = .ok s') :
    (∃ own', s'.PageInv boot live own') ∧ s.SameRest s' := by
  rw [Sched.mapUserPages] at h
  -- the page of the stack
  have hstack : ∀ s₁, (if s.pagingVirtToPhys ustack ≠ 0 then
      s.pagingMap ustack (s.pagingVirtToPhys ustack) (pagePresent ||| pageRw ||| pageUser)
      else .ok s) = .ok s₁ → (∃ own1, s₁.PageInv boot live own1) ∧ s.SameRest s₁ ∧
      s₁.Recursive := by
    intro s₁ h1
    split_ifs at h1 with hne
    · obtain ⟨hp, hframe⟩ := pte_of_virtToPhys hne
      exact hs.mapSame hcur hrec hustack (s.pagingVirtToPhys_lt _) hp hframe h1
    · cases h1
      exact ⟨⟨own, hs⟩, .refl s, hrec⟩
  rcases hmap : (if s.pagingVirtToPhys ustack ≠ 0 then
      s.pagingMap ustack (s.pagingVirtToPhys ustack) (pagePresent ||| pageRw ||| pageUser)
      else .ok s) with e | s₁ <;> rw [hmap] at h
  · cases h
  obtain ⟨⟨own1, hs1⟩, hrest1, hrec1⟩ := hstack s₁ hmap
  dsimp only at h
  split_ifs at h with hne
  · -- the page of the entry point
    obtain ⟨hp, hframe⟩ := pte_of_virtToPhys hne
    have hphys := s₁.pagingVirtToPhys_lt entry
    obtain ⟨hinv, hrest2, -⟩ := hs1.mapSame (hrest1.currentPd ▸ hcur) hrec1
      (by rw [and_pageMask hentry]; omega) (by rw [and_pageMask hphys]; omega)
      (by rw [pdIndex_page hentry, ptIndex_page hentry]; exact hp)
      (by rw [pdIndex_page hentry, ptIndex_page hentry, and_pageMask hphys,
        frame_div]; exact hframe) h
    exact ⟨hinv, hrest1.trans hrest2⟩
  · cases h
    exact ⟨⟨own1, hs1⟩, hrest1⟩

end Paging

/-! ## New directories -/

namespace Paging

variable [Disk D] {s s' : Paging D} {pd : ℕ}

omit [Disk D] in
theorem setRecursive_last (s : Paging D) (haligned : pd % 4096 = 0) (hlt : pd < 4294967296) :
    (s.setRecursive pd).entry pd 1023 = pd + 3 := by
  have hor : pd ||| pagePresent ||| pageRw = pd + 3 := by
    obtain ⟨f, rfl⟩ : ∃ f, pd = f * 4096 := ⟨pd / 4096, by omega⟩
    rw [Nat.or_assoc]
    exact or_offset f (by decide)
  rw [setRecursive, entry_setEntry_self, hor, u32_of_lt (by omega)]

theorem pagingCreateDirectory_recursive (haligned : pd % 4096 = 0) (hlt : pd < 4294967296)
    (h : s.pagingCreateDirectory = .ok (s', pd)) :
    s'.entry pd 1023 % 2 = 1 ∧ s'.entry pd 1023 / 4096 = pd / 4096 := by
  rw [pagingCreateDirectory] at h
  rcases ha : s.allocFrameZero with e | ⟨s₁, a⟩ <;> rw [ha] at h
  · cases h
  obtain ⟨rfl, rfl⟩ := ok_pair h
  rw [setRecursive_last _ haligned hlt]
  omega

theorem TableInv.free_of_created {live : List ℕ} {own : ℕ → Role}
    (hs : s.TableInv live own) (hplenty : s.Plenty (n + 1))
    (h : s.pagingCreateDirectory = .ok (s', pd)) : s.pmm.freeSet.Nonempty := by
  rcases hplenty with hport | hroom
  · by_contra hempty
    rw [Paging.pagingCreateDirectory, allocFrameZero_of_exhausted hs.pmm
      (Finset.not_nonempty_iff_eq_empty.mp hempty) hport] at h
    cases h
  · rw [hs.pmm.count] at hroom
    exact Finset.card_pos.mp (by omega)

end Paging

/-! ## Bytes of the window -/

/-- The headers of the blocks stay as they are: clients write between them. -/
def HeadersKept (h : Heap D) (m : RecMem) : Prop :=
  ∀ bs, Linked h.window h.heapHead bs → ∀ b ∈ bs, ∀ x, b ≤ x → x < b + blockOverhead →
    m.bytes x = h.window.bytes x

section Window

variable {allocs : List (ℕ × ℕ)} {h h' : Heap D} {cs : List Chunk} {m : RecMem}

theorem HeapState.withWindow (hs : HeapState allocs h cs)
    (hm : ∀ x, InHeader heapStart cs x → m.bytes x = h.window.bytes x) :
    HeapState allocs { h with window := m } cs :=
  ⟨⟨hs.inv.head, hs.inv.chain.congr hm, hs.inv.curr, hs.inv.sizes, hs.inv.settled, hs.inv.fits,
    hs.inv.mapped⟩, hs.live_used, hs.live_nodup⟩

/-- The blocks do not depend on the paging layer. -/
theorem HeapState.withPaging (hs : HeapState allocs h cs) (p : Paging D) :
    HeapState allocs { h with paging := p } cs :=
  ⟨⟨hs.inv.head, hs.inv.chain, hs.inv.curr, hs.inv.sizes, hs.inv.settled, hs.inv.fits,
    hs.inv.mapped⟩, hs.live_used, hs.live_nodup⟩

theorem exists_block_of_inHeader (hx : InHeader a cs x) :
    ∃ b ∈ blockAddrs a cs, b ≤ x ∧ x < b + 16 := by
  induction cs generalizing a with
  | nil => exact hx.elim
  | cons c cs ih =>
    rcases hx with hx | hx
    · exact ⟨a, mem_cons_self, hx⟩
    · obtain ⟨b, hb, hrange⟩ := ih hx
      exact ⟨b, mem_cons_of_mem _ hb, hrange⟩

theorem HeapState.headersKept (hs : HeapState allocs h cs) (hm : HeadersKept h m) :
    HeapState allocs { h with window := m } cs := by
  refine hs.withWindow fun x hx => ?_
  obtain ⟨b, hb, h1, h2⟩ := exists_block_of_inHeader hx
  have hlinked := hs.inv.chain.linked (show heapStart ≠ 0 by decide)
  rw [← hs.inv.head] at hlinked
  exact hm _ hlinked b hb x h1 h2

theorem storeWords_of_not_mem {ws : List ℕ} (hx : x < a ∨ a + 4 * ws.length ≤ x) :
    (storeWords m a ws).bytes x = m.bytes x := by
  induction ws generalizing m a with
  | nil => rfl
  | cons w ws ih =>
    rw [length_cons] at hx
    rw [storeWords, ih (by omega), RecMem.bytes_store32, Mem.store32_of_not_mem (by omega)]

/-- Writing a frame changes its 76 bytes only. -/
theorem writeFrame_of_not_mem {frame : ℕ} (f : InterruptFrame)
    (hx : x < frame ∨ frame + frameSize ≤ x) : (writeFrame m frame f).bytes x = m.bytes x := by
  have hlen : f.words.length = 19 := rfl
  rw [writeFrame, storeWords_of_not_mem (by rw [hlen]; exact hx), RecMem.bytes_fill,
    Mem.fill_of_not_mem hx]

/-- The first frame of a task lies in its stack. -/
theorem initialFrame_range (h : stack + stackSize < 4294967296) :
    stack ≤ initialFrame stack ∧ initialFrame stack + frameSize ≤ stack + stackSize := by
  have hu : u32 (stack + stackSize) = stack + stackSize := u32_of_lt h
  have htop : stackTop stack = (stack + stackSize) / 16 * 16 := by
    rw [stackTop, hu]
    exact and_not32_low (k := 4) h (by decide)
  have hsize : stackSize = 4096 := rfl
  have hframe : frameSize = 76 := rfl
  have hsub : initialFrame stack = stackTop stack - frameSize := by
    rw [initialFrame, sub32_of_le (by omega) (by omega)]
  omega

/-- Writing inside an allocation touches no header. -/
theorem HeapState.writeIn (hs : HeapState allocs h cs) (hmem : (p, n) ∈ allocs)
    (hm : ∀ x, x < p ∨ p + n ≤ x → m.bytes x = h.window.bytes x) :
    HeapState allocs { h with window := m } cs := by
  obtain ⟨k, hk, hused⟩ := hs.live_used _ hmem
  refine hs.withWindow fun x hx => hm x ?_
  by_contra hin
  exact hx.not_inUsed ⟨_, hused, by dsimp only; omega, by dsimp only; omega⟩

end Window

/-! ## Heap and directories together -/

/-- The heap with its allocations, and the directories `live` with the roles of their frames; `boot`
and the loaded one are among them. -/
structure MemInv (h : Heap D) (boot : ℕ) (live : List ℕ) (allocs : List (ℕ × ℕ)) : Prop where
  blocks : ∃ cs, HeapState allocs h cs
  pages : ∃ own, h.paging.PageInv boot live own
  nodup : live.Nodup
  hand : h.paging.evictPdIdx < 768
  boot_mem : boot ∈ live
  current : h.paging.currentPd ∈ live

namespace MemInv

variable {h h' : Heap D} {boot pd : ℕ} {live : List ℕ} {allocs : List (ℕ × ℕ)}

theorem dir_taken (hm : MemInv h boot live allocs) (hpd : pd ∈ live) :
    h.paging.pmm.Taken (pd / 4096) ∧ pd ≠ 0 := by
  obtain ⟨own, hs⟩ := hm.pages
  have hdir := hs.dir_own pd hpd
  have htaken := hs.taken (by rw [hdir]; exact Role.noConfusion)
    (by rw [hdir]; exact Role.noConfusion)
  refine ⟨htaken, ?_⟩
  rintro rfl
  have := hs.pmm.floor
  have := htaken.1
  omega

theorem alloc_range (hm : MemInv h boot live allocs) (hu : u ∈ allocs) :
    heapStart ≤ u.1 ∧ u.1 + u.2 ≤ h.heapMappedEnd ∧ h.heapMappedEnd ≤ heapEnd := by
  obtain ⟨cs, hs⟩ := hm.blocks
  obtain ⟨k, hk, hused⟩ := hs.live_used u hu
  have hrange := usedAt_range hused
  have hcurr := hs.inv.curr
  have hmapped := hs.inv.mapped
  obtain ⟨-, hend, -⟩ := hs.inv.mapped_range
  omega

/-- Allocations have different addresses. -/
theorem alloc_fresh (hm : MemInv h boot live (u :: allocs)) : ∀ v ∈ allocs, v.1 ≠ u.1 := by
  obtain ⟨cs, hs⟩ := hm.blocks
  intro v hv heq
  have hnd := hs.live_nodup
  rw [map_cons, nodup_cons] at hnd
  exact hnd.1 (heq ▸ mem_map_of_mem hv)

section

variable (hm : MemInv h boot live allocs)

include hm

theorem withPaging {p : Paging D}
    (hpages : ∃ own, p.PageInv boot live own) (hhand : p.evictPdIdx < 768)
    (hcur : p.currentPd ∈ live) : MemInv { h with paging := p } boot live allocs := by
  obtain ⟨cs, hs⟩ := hm.blocks
  exact ⟨⟨cs, hs.withPaging p⟩, hpages, hm.nodup, hhand, hm.boot_mem, hcur⟩

theorem switch (hpd : pd ∈ live) :
    MemInv { h with paging := h.paging.pagingSwitchDirectory pd } boot live allocs := by
  obtain ⟨own, hs⟩ := hm.pages
  rw [Paging.pagingSwitchDirectory_eq]
  exact hm.withPaging ⟨own, hs.congr rfl rfl⟩ hm.hand hpd

theorem window {m : RecMem} (hkept : HeadersKept h m) :
    MemInv { h with window := m } boot live allocs := by
  obtain ⟨cs, hs⟩ := hm.blocks
  exact ⟨⟨cs, hs.headersKept hkept⟩, hm.pages, hm.nodup, hm.hand, hm.boot_mem, hm.current⟩

/-- Writing inside an allocation. -/
theorem writeIn {m : RecMem} (hmem : (p, n) ∈ allocs)
    (hkept : ∀ x, x < p ∨ p + n ≤ x → m.bytes x = h.window.bytes x) :
    MemInv { h with window := m } boot live allocs := by
  obtain ⟨cs, hs⟩ := hm.blocks
  exact ⟨⟨cs, hs.writeIn hmem hkept⟩, hm.pages, hm.nodup, hm.hand, hm.boot_mem, hm.current⟩

theorem writeFrame (hmem : (stack, stackSize) ∈ allocs)
    (f : InterruptFrame) : MemInv { h with window := writeFrame h.window (initialFrame stack) f }
      boot live allocs := by
  obtain ⟨-, h1, h2⟩ := hm.alloc_range hmem
  have hlayout := heap_layout
  have hrange : stack + stackSize < 4294967296 := by omega
  obtain ⟨h3, h4⟩ := initialFrame_range hrange
  exact hm.writeIn hmem fun x hx => writeFrame_of_not_mem f (by omega)

/-- **`kfree`** of a live allocation. -/
theorem kfree (hu : u ∈ allocs) (hrun : h.kfree u.1 = .ok h') :
    MemInv h' boot live (allocs.erase u) ∧ h.paging.UserKept h'.paging live ∧
      h.paging.pmm.freeSet ⊆ h'.paging.pmm.freeSet := by
  obtain ⟨cs, hs⟩ := hm.blocks
  obtain ⟨own, hp⟩ := hm.pages
  obtain ⟨ds, hs'⟩ := hs.free hu hrun
  obtain ⟨k, hshrink, hend⟩ := Heap.kfree_paging hs.inv hs'.inv hrun
  obtain ⟨-, hhi, haligned⟩ := hs.inv.mapped_range
  obtain ⟨hlo, -, -⟩ := hs'.inv.mapped_range
  have hlayout := heap_layout
  obtain ⟨⟨own', hpages, -⟩, hkept, hsub⟩ := hp.shrinkDown (k := k)
    Paging.exclusive_uniform (fun _ _ => .inr) hm.current (by omega) hhi (by omega)
  rw [← hshrink] at hpages hkept hsub
  exact ⟨⟨⟨ds, hs'⟩, ⟨own', hpages⟩, hm.nodup, hkept.hand.1 ▸ hm.hand, hm.boot_mem,
    hkept.currentPd ▸ hm.current⟩, hkept, hsub⟩

/-- **`paging_destroy_directory`** of a directory that is neither loaded nor `boot`: the
frames of its space are free. -/
theorem destroy (hpd : pd ∈ live) (hboot : pd ≠ boot) (hcur : pd ≠ h.paging.currentPd) :
    MemInv { h with paging := h.paging.pagingDestroyDirectory pd } boot (live.erase pd) allocs ∧
      ∀ a ∈ h.paging.spaceFrames pd,
        a / 4096 ∈ (h.paging.pagingDestroyDirectory pd).pmm.freeSet := by
  obtain ⟨cs, hs⟩ := hm.blocks
  obtain ⟨own, hp⟩ := hm.pages
  obtain ⟨own', hp', hfree, -⟩ := hp.destroy hm.nodup hpd hboot
  rw [Paging.pagingDestroyDirectory_eq hcur]
  exact ⟨⟨⟨cs, hs.withPaging _⟩, ⟨own', hp'⟩, hm.nodup.erase pd, hm.hand,
    (mem_erase_of_ne (Ne.symm hboot)).mpr hm.boot_mem,
    (mem_erase_of_ne (Ne.symm hcur)).mpr hm.current⟩, fun a ha => (hp'.free_iff _).mp (hfree a ha)⟩

end

variable [Disk D]

/-- **`kmalloc`**, with tables or frames at hand. -/
theorem kmalloc (hm : MemInv h boot live allocs) {want : ℕ} (hwant : want ≤ heapSize)
    (hsup : Unevicted h want) (hrun : h.kmalloc want = .ok (h', p)) :
    MemInv h' boot live (if p = 0 then allocs else (p, want) :: allocs) ∧
      h.paging.UserKept h'.paging live ∧
      h.paging.pmm.freeSet.card ≤ h'.paging.pmm.freeSet.card + 2 * (want / 4096 + 2) ∧
      ∀ n, h.paging.Plenty (n + (want / 4096 + 2)) → h'.paging.Plenty n := by
  obtain ⟨cs, hs⟩ := hm.blocks
  obtain ⟨own, hp⟩ := hm.pages
  obtain ⟨ds, hs'⟩ := hs.malloc hwant hrun
  obtain ⟨k, hgrow, hend, hk⟩ := Heap.kmalloc_paging hs.inv hwant hrun
  obtain ⟨hlo, -, -⟩ := hs.inv.mapped_range
  obtain ⟨-, hhi, -⟩ := hs'.inv.mapped_range
  obtain ⟨⟨own', hpages, -⟩, hkept, hcard, hplenty⟩ :=
    hp.growUp hm.current hlo (hend ▸ hhi) (hsup.mono hk) hgrow
  exact ⟨⟨⟨ds, hs'⟩, ⟨own', hpages⟩, hm.nodup, hkept.hand.1 ▸ hm.hand, hm.boot_mem,
    hkept.currentPd ▸ hm.current⟩, hkept, by omega, fun n hn => hplenty n (hn.mono (by omega))⟩

/-- **`paging_create_directory`**, with a frame at hand: a new directory that names itself
in its last entry. -/
theorem create (hm : MemInv h boot live allocs) {p : Paging D}
    (hplenty : h.paging.Plenty (n + 1)) (hrun : h.paging.pagingCreateDirectory = .ok (p, pd)) :
    pd ∉ live ∧ MemInv { h with paging := p } boot (pd :: live) allocs ∧ p.Plenty n ∧
      p.currentPd = h.paging.currentPd ∧
      h.paging.pmm.freeSet.card = p.pmm.freeSet.card + 1 ∧ p.entry pd 1023 % 2 = 1 ∧
      p.entry pd 1023 / 4096 = pd / 4096 := by
  obtain ⟨cs, hs⟩ := hm.blocks
  obtain ⟨own, hp⟩ := hm.pages
  have hne := hp.toTableInv.free_of_created hplenty hrun
  obtain ⟨p', f, hrun', hf, hc⟩ := hp.toTableInv.pagingCreateDirectory hm.current hne
  obtain ⟨rfl, rfl⟩ := ok_pair (hrun'.symm.trans hrun)
  have hnew : f * 4096 ∉ live := fun hmem =>
    (hp.free_apart ((hp.free_iff f).mp hc.was_free) hmem).1 rfl
  have hrange := hp.managed (by rw [hc.was_free]; exact Role.noConfusion)
  have htotal := hp.pmm.total_le
  refine ⟨hnew, ⟨⟨cs, hs.withPaging _⟩, ⟨_, hc.pageInv hp hm.current⟩,
    nodup_cons.mpr ⟨hnew, hm.nodup⟩, hc.hand.1 ▸ hm.hand, mem_cons_of_mem _ hm.boot_mem,
    mem_cons_of_mem _ (hc.currentPd ▸ hm.current)⟩, ?_, hc.currentPd, ?_,
    Paging.pagingCreateDirectory_recursive (by omega) (by omega) hrun⟩
  · have hmissing : p'.missingTables = h.paging.missingTables := by
      simp only [Paging.missingTables, hc.currentPd]
      refine Finset.filter_congr fun i hi => ?_
      rw [hc.entry_eq _ hm.current i (by have := Finset.mem_Ico.mp hi; omega)]
    refine hplenty.imp (fun hport => by rw [hc.swap]; exact hport) fun hroom => ?_
    have hcard := Finset.card_erase_add_one hf
    rw [hp.pmm.count] at hroom
    rw [hc.inv.pmm.count, hc.taken, hmissing]
    omega
  · rw [hc.taken]
    exact (Finset.card_erase_add_one hf).symm

theorem mapUserPages (hm : MemInv h boot live allocs) {q : Paging D} (hpd : pd ∈ live)
    (hrec : h.paging.entry pd 1023 % 2 = 1 ∧ h.paging.entry pd 1023 / 4096 = pd / 4096)
    (hustack : ustack < 4294967296) (hentry : entry < 4294967296)
    (hrun : Sched.mapUserPages (h.paging.pagingSwitchDirectory pd) ustack entry = .ok q) :
    MemInv { h with paging := q.pagingSwitchDirectory h.paging.currentPd } boot live allocs := by
  have hswitched := hm.switch hpd
  rw [Paging.pagingSwitchDirectory_eq] at hswitched hrun
  obtain ⟨own, hs⟩ := hswitched.pages
  obtain ⟨⟨own', hs'⟩, hrest⟩ := hs.mapUserPages hpd hrec hustack hentry hrun
  rw [Paging.pagingSwitchDirectory_eq]
  exact hm.withPaging ⟨own', hs'.congr rfl rfl⟩ (hrest.hand.1 ▸ hm.hand) hm.current

end MemInv

end PenOS
