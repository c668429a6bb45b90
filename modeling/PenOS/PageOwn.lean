import PenOS.Directories

/-!
# Pages and their owners

Here the frames behind page-table words get a role as well: `userPage d i j` below a user entry,
`kernelPage t j` below a kernel entry. The boot directory maps the first 16 MiB to themselves.
Elsewhere in the user halves and in the heap window (entries 772 to 775) a mapped frame has no other
use: `PageInv`.
-/

namespace PenOS

open Function List

variable {d d' d0 f i i' i0 j j' k v : ℕ}

/-- The role of the page behind word `j` of the table in frame `t`, the table being
behind entry `i` of `d`. -/
def pageRole (d i t j : ℕ) : Role := if i < 768 then .userPage d i j else .kernelPage t j

theorem pageRole_loose (d i t j : ℕ) : (pageRole d i t j).Loose := by
  simp only [pageRole]
  split <;> trivial

theorem pageRole_ne_free (d i t j : ℕ) : pageRole d i t j ≠ .free := by
  simp only [pageRole]
  split <;> exact Role.noConfusion

theorem pageRole_ne_other (d i t j : ℕ) : pageRole d i t j ≠ .other := by
  simp only [pageRole]
  split <;> exact Role.noConfusion

theorem pageRole_inj {t t' : ℕ} (h : pageRole d i t j = pageRole d' i' t' j') :
    j = j' ∧ (i < 768 ∧ i = i' ∧ d = d' ∨ 768 ≤ i ∧ 768 ≤ i' ∧ t = t') := by
  simp only [pageRole] at h
  split_ifs at h with hi hi'
  · cases h
    exact ⟨rfl, Or.inl ⟨hi, rfl, rfl⟩⟩
  · cases h
    exact ⟨rfl, Or.inr ⟨by omega, by omega, rfl⟩⟩

/-- The directory entries below which a mapped frame has no other use. -/
def Exclusive (boot d i : ℕ) : Prop := i < 768 ∧ (d ≠ boot ∨ 4 ≤ i) ∨ 772 ≤ i ∧ i < 776

/-- In the kernel half this does not depend on the directory. -/
theorem Exclusive.kernel {boot : ℕ} (h : Exclusive boot d i) (d' : ℕ) (hi : 768 ≤ i) :
    Exclusive boot d' i := h.imp (fun h => absurd h.1 (by omega)) id

namespace Paging

variable {D : Type} {s s' : Paging D} {boot : ℕ} {ex : ℕ → ℕ → Prop} {live : List ℕ}
  {own own' : ℕ → Role}

/-- The memory agrees with the roles of directories and tables, and of the pages below the
entries for which `ex` holds. -/
structure PageInvOn (s : Paging D) (ex : ℕ → ℕ → Prop) (live : List ℕ) (own : ℕ → Role) :
    Prop extends TableInv s live own where
  page_own : ∀ d ∈ live, ∀ i < 1023, ∀ j < 1024, ex d i → s.pte d i j % 2 = 1 →
    own (s.pte d i j / 4096) = pageRole d i (s.entry d i / 4096) j

/-- The memory agrees with the roles in all exclusive places. -/
abbrev PageInv (s : Paging D) (boot : ℕ) : List ℕ → (ℕ → Role) → Prop :=
  s.PageInvOn (Exclusive boot)

/-- A mapped page has a table. -/
theorem entry_of_pte (h : s.pte d i j % 2 = 1) : s.entry d i % 2 = 1 := by
  by_contra hp
  rw [pte_of_absent hp] at h
  cases h

theorem entry_congr (h : s'.mem = s.mem) (b i : ℕ) : s'.entry b i = s.entry b i := by
  simp only [entry, h]

theorem pte_congr (h : s'.mem = s.mem) (d i j : ℕ) : s'.pte d i j = s.pte d i j := by
  simp only [pte, entry_congr h]

/-- The roles are about memory and the frame manager only. -/
theorem PageInvOn.congr (hs : s.PageInvOn ex live own) (hmem : s'.mem = s.mem)
    (hpmm : s'.pmm = s.pmm) : s'.PageInvOn ex live own := by
  refine ⟨⟨hpmm ▸ hs.pmm, hpmm ▸ hs.free_iff, hpmm ▸ hs.unmanaged, hs.dir_aligned, hs.dir_own,
    ?_⟩, ?_⟩
  · simpa only [entry_congr hmem] using hs.table_own
  · simpa only [entry_congr hmem, pte_congr hmem] using hs.page_own

/-- Fewer directories are looked at. -/
theorem PageInvOn.subset {live' : List ℕ} (hs : s.PageInvOn ex live own)
    (h : ∀ d ∈ live', d ∈ live) : s.PageInvOn ex live' own :=
  ⟨⟨hs.pmm, hs.free_iff, hs.unmanaged, fun d hd => hs.dir_aligned d (h d hd),
    fun d hd => hs.dir_own d (h d hd), fun d hd => hs.table_own d (h d hd)⟩,
    fun d hd => hs.page_own d (h d hd)⟩

theorem entry_eq_of_bytes {b : ℕ} (hi : i < 1024)
    (h : ∀ x, b ≤ x → x < b + 4096 → s'.mem x = s.mem x) : s'.entry b i = s.entry b i :=
  Mem.load32_congr fun x h1 h2 => h x (by omega) (by omega)

/-- Writing to pages: frames that are neither directories nor tables. -/
theorem PageInvOn.of_bytes (hs : s.PageInvOn ex live own) (hpmm : s'.pmm = s.pmm)
    (hmem : ∀ x, ¬ (own (x / 4096)).Loose → s'.mem x = s.mem x) :
    s'.PageInvOn ex live own ∧ (∀ d ∈ live, ∀ i < 1024, s'.entry d i = s.entry d i) ∧
      ∀ d ∈ live, ∀ i < 1023, ∀ j < 1024, s'.pte d i j = s.pte d i j := by
  have hentry : ∀ d ∈ live, ∀ i < 1024, s'.entry d i = s.entry d i := by
    intro d hd i hi
    have haligned := hs.dir_aligned d hd
    refine entry_eq_of_bytes hi fun x h1 h2 => hmem x ?_
    rw [show x / 4096 = d / 4096 by omega, hs.dir_own d hd]
    exact id
  have hpte : ∀ d ∈ live, ∀ i < 1023, ∀ j < 1024, s'.pte d i j = s.pte d i j := by
    intro d hd i hi j hj
    have he := hentry d hd i (by omega)
    by_cases hp : s.entry d i % 2 = 1
    · rw [pte_of_present (by rw [he]; exact hp), pte_of_present hp, he]
      refine entry_eq_of_bytes hj fun x h1 h2 => hmem x ?_
      rw [show x / 4096 = s.entry d i / 4096 by omega, hs.table_own d hd i hi hp]
      exact tableRole_not_loose d i
    · rw [pte_of_absent (by rw [he]; exact hp), pte_of_absent hp]
  refine ⟨⟨⟨hpmm ▸ hs.pmm, hpmm ▸ hs.free_iff, hpmm ▸ hs.unmanaged, hs.dir_aligned, hs.dir_own,
    fun d hd i hi hp => ?_⟩, fun d hd i hi j hj he hp => ?_⟩, hentry, hpte⟩
  · rw [hentry d hd i (by omega)] at hp ⊢
    exact hs.table_own d hd i hi hp
  · rw [hpte d hd i hi j hj] at hp ⊢
    rw [hentry d hd i (by omega)]
    exact hs.page_own d hd i hi j hj he hp

theorem PageInvOn.page_inj (hs : s.PageInvOn ex live own) (hd : d ∈ live)
    (hd' : d' ∈ live) (hi : i < 1023) (hi' : i' < 1023) (hj : j < 1024) (hj' : j' < 1024)
    (he : ex d i) (he' : ex d' i') (hp : s.pte d i j % 2 = 1)
    (hp' : s.pte d' i' j' % 2 = 1) (h : s.pte d i j / 4096 = s.pte d' i' j' / 4096) :
    j = j' ∧ i = i' ∧ s.entry d i / 4096 = s.entry d' i' / 4096 ∧ (i < 768 → d = d') := by
  have h1 := hs.page_own d hd i hi j hj he hp
  rw [h, hs.page_own d' hd' i' hi' j' hj' he' hp'] at h1
  obtain ⟨hjj, ⟨hlt, rfl, rfl⟩ | ⟨hlo, hlo', ht⟩⟩ := pageRole_inj h1.symm
  · exact ⟨hjj, rfl, rfl, fun _ => rfl⟩
  · have hii := (hs.table_inj hd hd' hi hi' (entry_of_pte hp) (entry_of_pte hp') ht).1
    exact ⟨hjj, hii, ht, fun hlt => absurd hlt (by omega)⟩

/-! ## Changes that move no page -/

/-- Frames are taken and tables are made; the page-table words stay. -/
theorem PageInvOn.kept (hs : s.PageInvOn ex live own) (hinv : s'.TableInv live own')
    (hown : ∀ g, own g ≠ .free → own' g = own g)
    (hpte : ∀ d ∈ live, ∀ i < 1023, ∀ j < 1024, s'.pte d i j = s.pte d i j)
    (hentry : ∀ d ∈ live, ∀ i < 1023, s.entry d i % 2 = 1 →
      s'.entry d i / 4096 = s.entry d i / 4096) : s'.PageInvOn ex live own' := by
  refine ⟨hinv, fun d hd i hi j hj he hp => ?_⟩
  rw [hpte d hd i hi j hj] at hp ⊢
  have hrole := hs.page_own d hd i hi j hj he hp
  rw [hown _ (by rw [hrole]; exact pageRole_ne_free _ _ _ _), hrole,
    hentry d hd i hi (entry_of_pte hp)]

theorem update_kept (hf : own f = .free) (r : Role) (g : ℕ) (hg : own g ≠ .free) :
    Function.update own f r g = own g := by
  refine update_of_ne ?_ _ _
  rintro rfl
  exact hg hf

theorem FreshFrame.pageInv (hs : s.PageInvOn ex live own)
    (h : s.FreshFrame s' live own f) : s'.PageInvOn ex live (Function.update own f .other) := by
  refine hs.kept h.inv (update_kept h.was_free _) h.pte_eq fun d hd i hi _ => ?_
  rw [h.entry_eq d (hs.dir_aligned d hd)
    (hs.free_apart ((hs.free_iff f).mp h.was_free) hd).1 i (by omega)]

/-- A new directory shares the kernel half and has no user pages. -/
theorem PageInvOn.created (hs : s.PageInvOn ex live own)
    (hex : ∀ d d' i, 768 ≤ i → ex d i → ex d' i) (hcur : s.currentPd ∈ live)
    (h : s.Created s' live own f) :
    s'.PageInvOn ex (f * 4096 :: live) (Function.update own f .directory) := by
  have hold : s'.PageInvOn ex live (Function.update own f .directory) :=
    hs.kept ⟨h.inv.pmm, h.inv.free_iff, h.inv.unmanaged, hs.dir_aligned,
      fun d hd => h.inv.dir_own d (mem_cons_of_mem _ hd),
      fun d hd => h.inv.table_own d (mem_cons_of_mem _ hd)⟩
      (update_kept h.was_free _) h.pte_eq fun d hd i hi _ => by rw [h.entry_eq d hd i (by omega)]
  refine ⟨h.inv, fun d hd i hi j hj he hp => ?_⟩
  rcases List.mem_cons.mp hd with rfl | hd
  · -- the new directory: its entries in the kernel half are those of the current one
    rcases Nat.lt_or_ge i 768 with hlo | hlo
    · rw [pte_of_absent (by rw [h.user i hlo]; decide)] at hp
      cases hp
    · have hentry : s'.entry (f * 4096) i = s'.entry s.currentPd i := by
        rw [h.kernel i hlo hi, h.entry_eq _ hcur i (by omega)]
      have hpte : s'.pte (f * 4096) i j = s'.pte s.currentPd i j := by
        simp only [pte, hentry]
      rw [hpte] at hp ⊢
      rw [hold.page_own _ hcur i hi j hj (hex _ _ i hlo he) hp, hentry, pageRole, pageRole,
        if_neg (by omega), if_neg (by omega)]
  · exact hold.page_own d hd i hi j hj he hp

theorem Created.pageInv (hs : s.PageInv boot live own) (hcur : s.currentPd ∈ live)
    (h : s.Created s' live own f) :
    s'.PageInv boot (f * 4096 :: live) (Function.update own f .directory) :=
  hs.created (fun _ d' _ hi he => he.kernel d' hi) hcur h

/-! ## Changing a page-table word -/

theorem PageInvOn.setPte (hs : s.PageInvOn ex live own) (hd0 : d0 ∈ live)
    (hi0 : i0 < 1023) (hk : k < 1024) (hp : s.entry d0 i0 % 2 = 1)
    (hex : ∀ d, 768 ≤ i0 → ex d i0 → ex d0 i0) (hv : u32 v % 2 = 1 → ex d0 i0 →
      own (u32 v / 4096) = pageRole d0 i0 (s.entry d0 i0 / 4096) k) :
    (s.setEntry (s.entry d0 i0 / 4096 * 4096) k v).PageInvOn ex live own := by
  refine ⟨hs.toTableInv.setPte hd0 hi0 hk hp, fun d hd i hi j hj he hpj => ?_⟩
  rw [hs.entry_setPte hd0 hi0 hk hp hd (by omega)]
  rw [hs.pte_setPte hd0 hi0 hk hp hd hi hj] at hpj ⊢
  split at hpj
  · rename_i hsame
    obtain ⟨rfl, hpi, htable⟩ := hsame
    rw [if_pos ⟨rfl, hpi, htable⟩]
    obtain ⟨rfl, hdd⟩ := hs.table_inj hd hd0 hi hi0 hpi hp htable
    -- through another directory only a kernel table is reached
    rcases Nat.lt_or_ge i 768 with hlo | hlo
    · obtain rfl := hdd hlo
      exact hv hpj he
    · rw [hv hpj (hex d hlo he), htable, pageRole, pageRole, if_neg (by omega), if_neg (by omega)]
  · rename_i hother
    rw [if_neg hother]
    exact hs.page_own d hd i hi j hj he hpj

theorem PageInv.setPte (hs : s.PageInv boot live own) (hd0 : d0 ∈ live)
    (hi0 : i0 < 1023) (hk : k < 1024) (hp : s.entry d0 i0 % 2 = 1)
    (hv : u32 v % 2 = 1 → Exclusive boot d0 i0 →
      own (u32 v / 4096) = pageRole d0 i0 (s.entry d0 i0 / 4096) k) :
    (s.setEntry (s.entry d0 i0 / 4096 * 4096) k v).PageInv boot live own :=
  PageInvOn.setPte hs hd0 hi0 hk hp (fun _ hi he => he.kernel d0 hi) hv

/-- A word of a user table is seen through its own directory entry only. -/
theorem TableInv.pte_setPte_user (hs : s.TableInv live own) (hd0 : d0 ∈ live)
    (hi0 : i0 < 768) (hk : k < 1024) (hp : s.entry d0 i0 % 2 = 1) (hd : d ∈ live)
    (hi : i < 1023) (hj : j < 1024) : (s.setEntry (s.entry d0 i0 / 4096 * 4096) k v).pte d i j =
      if d = d0 ∧ i = i0 ∧ j = k then u32 v else s.pte d i j := by
  rw [hs.pte_setPte hd0 (by omega) hk hp hd hi hj]
  refine if_congr ⟨?_, ?_⟩ rfl rfl
  · rintro ⟨hjk, hpi, htable⟩
    obtain ⟨hii, hdd⟩ := hs.table_inj hd hd0 hi (by omega) hpi hp htable
    exact ⟨hdd (by omega), hii, hjk⟩
  · rintro ⟨rfl, rfl, rfl⟩
    exact ⟨rfl, hp, rfl⟩

theorem PageInvOn.mapped {virt phys flags : ℕ} (hs : s.PageInvOn ex live own)
    (hm : s.Mapped s' live own own' virt (pageEntry phys flags) flags) (hcur : s.currentPd ∈ live)
    (hv : pdIndex virt < 1023) (hphys : phys < 4294967296) (hg : own (phys / 4096) = .other)
    (hrange : s.pmm.baseUsableFrame ≤ phys / 4096 ∧ phys / 4096 < s.pmm.totalFrames) :
    s'.PageInvOn ex live (Function.update own' (phys / 4096) (pageRole s.currentPd (pdIndex virt)
      (s'.entry s.currentPd (pdIndex virt) / 4096) (ptIndex virt))) := by
  have hg' : own' (phys / 4096) = .other :=
    (hm.own_kept _ (by rw [hg]; exact Role.noConfusion)).trans hg
  have hloose : (own' (phys / 4096)).Loose := by
    rw [hg']
    trivial
  have hrange' : s'.pmm.baseUsableFrame ≤ phys / 4096 ∧ phys / 4096 < s'.pmm.totalFrames := by
    rw [hm.range.1, hm.range.2]
    exact hrange
  have hnf := pageRole_ne_free s.currentPd (pdIndex virt)
    (s'.entry s.currentPd (pdIndex virt) / 4096) (ptIndex virt)
  have htables : s'.TableInv live (Function.update own' (phys / 4096) (pageRole s.currentPd
      (pdIndex virt) (s'.entry s.currentPd (pdIndex virt) / 4096) (ptIndex virt))) := by
    refine hm.inv.withPmm hm.inv.pmm hloose (fun f => ?_) (hm.inv.unmanaged_update (Or.inl hrange'))
    by_cases hf : f = phys / 4096
    · rw [hf, update_self, ← hm.inv.free_iff, hg']
      exact ⟨fun h => absurd h hnf, fun h => absurd h Role.noConfusion⟩
    · rw [update_of_ne hf]
      exact hm.inv.free_iff f
  -- a word that was there before keeps its page, whatever the roles of free frames become
  have hold : ∀ d ∈ live, ∀ i < 1023, ∀ j < 1024, ex d i → s.pte d i j % 2 = 1 →
      Function.update own' (phys / 4096) (pageRole s.currentPd (pdIndex virt)
        (s'.entry s.currentPd (pdIndex virt) / 4096) (ptIndex virt)) (s.pte d i j / 4096) =
        pageRole d i (s'.entry d i / 4096) j := by
    intro d hd i hi j hj he hp
    have hrole := hs.page_own d hd i hi j hj he hp
    have hne : s.pte d i j / 4096 ≠ phys / 4096 := by
      intro heq
      rw [heq, hg] at hrole
      exact pageRole_ne_other _ _ _ _ hrole.symm
    have hframe : s'.entry d i / 4096 = s.entry d i / 4096 := by
      by_cases heq : d = s.currentPd ∧ i = pdIndex virt
      · obtain ⟨rfl, rfl⟩ := heq
        rcases hm.kept (entry_of_pte hp) with hk | ⟨-, hk⟩
        · rw [hk]
        · rw [hk]
          exact (or_user_facts (s.entry_lt _ _)).2.1
      · rw [hm.entry_eq d hd i (by omega) heq]
    rw [update_of_ne hne, hm.own_kept _ (by rw [hrole]; exact pageRole_ne_free _ _ _ _),
      hrole, hframe]
  refine ⟨htables, fun d hd i hi j hj he hp => ?_⟩
  by_cases hij : i = pdIndex virt ∧ j = ptIndex virt
  · obtain ⟨rfl, rfl⟩ := hij
    rw [hm.pte_virt d hd] at hp ⊢
    split at hp
    · rename_i hsame
      have hframe : pageEntry phys flags / 4096 = phys / 4096 := by
        have := pageEntry_frame phys flags
        rw [frameOf_eq hphys] at this
        omega
      rw [if_pos hsame, hframe, update_self, hsame.2]
      obtain ⟨-, hdd⟩ := hm.inv.table_inj hd hcur hi hi hsame.1 hm.present hsame.2
      rcases Nat.lt_or_ge (pdIndex virt) 768 with hlo | hlo
      · rw [hdd hlo]
      · rw [pageRole, pageRole, if_neg (by omega), if_neg (by omega)]
    · rename_i hother
      rw [if_neg hother]
      exact hold d hd _ hi _ hj he hp
  · rw [hm.pte_other d hd i hi j hj (by tauto)] at hp ⊢
    exact hold d hd i hi j hj he hp

/-- A frame behind no word any more goes back to the manager. -/
theorem PageInvOn.release (hs : s.PageInvOn ex live own) (addr : ℕ)
    (hloose : (own (addr / 4096)).Loose)
    (hun : ∀ d ∈ live, ∀ i < 1023, ∀ j < 1024, ex d i → s.pte d i j % 2 = 1 →
      s.pte d i j / 4096 ≠ addr / 4096) :
    ∃ own', { s with pmm := pmmFreeFrame s.pmm addr }.PageInvOn ex live own' ∧
      (∀ g, g ≠ addr / 4096 → own' g = own g) ∧
      (own (addr / 4096) ≠ .other → own' (addr / 4096) = .free) := by
  obtain ⟨own', hinv, hkept, hfree⟩ := hs.toTableInv.pmmFree hloose
  refine ⟨own', ⟨hinv, fun d hd i hi j hj he hp => ?_⟩, hkept, hfree⟩
  exact (hkept _ (hun d hd i hi j hj he hp)).trans (hs.page_own d hd i hi j hj he hp)

end Paging

end PenOS
