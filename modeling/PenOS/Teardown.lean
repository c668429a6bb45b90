import PenOS.PageOwn

/-!
# Destroying an address space

The frames that `paging_destroy_directory` frees are listed by `spaceFrames`.
-/

namespace PenOS

open List

variable {pd : ℕ} {l : List ℕ} {p : Pmm}

namespace Paging

variable {D : Type} {s : Paging D} {boot : ℕ} {ex : ℕ → ℕ → Prop} {live : List ℕ} {own : ℕ → Role}

/-- The addresses of the pages in a table, in the order of its words. -/
def tableFrames (s : Paging D) (table : ℕ) : List ℕ :=
  ((List.range 1024).filter fun j => hasFlag (s.entry table j) pagePresent).map fun j =>
    frameOf (s.entry table j)

/-- The addresses of the pages and tables of the user half, and of the directory. -/
def spaceFrames (s : Paging D) (pd : ℕ) : List ℕ :=
  (((List.range 768).filter fun i => hasFlag (s.entry pd i) pagePresent).flatMap fun i =>
    s.tableFrames (frameOf (s.entry pd i)) ++ [frameOf (s.entry pd i)]) ++ [pd]

theorem spaceFrames_congr {s' : Paging D} (h : s'.mem = s.mem) (pd : ℕ) :
    s'.spaceFrames pd = s.spaceFrames pd := by
  simp only [spaceFrames, tableFrames, entry_congr h]

theorem freeTablePages_eq (s : Paging D) (table : ℕ) (pmm : Pmm) :
    s.freeTablePages table pmm = (s.tableFrames table).foldl pmmFreeFrame pmm := by
  rw [freeTablePages, tableFrames, foldl_map, foldl_filter]

theorem pagingDestroyDirectory_eq (h : pd ≠ s.currentPd) : s.pagingDestroyDirectory pd =
      { s with pmm := (s.spaceFrames pd).foldl pmmFreeFrame s.pmm } := by
  rw [pagingDestroyDirectory, if_neg h, freeUserHalf, spaceFrames, foldl_append,
    foldl_flatMap, foldl_filter]
  simp only [freeTablePages_eq, foldl_append, foldl_cons, foldl_nil]

theorem mem_spaceFrames {a : ℕ} : a ∈ s.spaceFrames pd ↔ a = pd ∨
      (∃ i < 768, s.entry pd i % 2 = 1 ∧ a = s.entry pd i / 4096 * 4096) ∨
      ∃ i < 768, ∃ j < 1024, s.pte pd i j % 2 = 1 ∧ a = s.pte pd i j / 4096 * 4096 := by
  simp only [spaceFrames, tableFrames, mem_append, mem_singleton, mem_flatMap,
    mem_filter, mem_map, mem_range, hasFlag_present, decide_eq_true_eq,
    frameOf_entry]
  constructor
  · rintro (⟨i, ⟨hi, hp⟩, ⟨j, ⟨hj, hpj⟩, rfl⟩ | rfl⟩ | rfl)
    · rw [← pte_of_present hp] at hpj ⊢
      exact Or.inr (Or.inr ⟨i, hi, j, hj, hpj, rfl⟩)
    · exact Or.inr (Or.inl ⟨i, hi, hp, rfl⟩)
    · exact Or.inl rfl
  · rintro (rfl | ⟨i, hi, hp, rfl⟩ | ⟨i, hi, j, hj, hpj, rfl⟩)
    · exact Or.inr rfl
    · exact Or.inl ⟨i, ⟨hi, hp⟩, Or.inr rfl⟩
    · have hp := entry_of_pte hpj
      rw [pte_of_present hp] at hpj ⊢
      exact Or.inl ⟨i, ⟨hi, hp⟩, Or.inl ⟨j, ⟨hj, hpj⟩, rfl⟩⟩

theorem pmmFreeFrame_foldl_range (l : List ℕ) (p : Pmm) :
    (l.foldl pmmFreeFrame p).baseUsableFrame = p.baseUsableFrame ∧
      (l.foldl pmmFreeFrame p).totalFrames = p.totalFrames := by
  induction l generalizing p with
  | nil => exact ⟨rfl, rfl⟩
  | cons x l ih =>
    obtain ⟨hbase, htotal⟩ := ih (pmmFreeFrame p x)
    exact ⟨hbase.trans (pmmFreeFrame_base p x), htotal.trans (pmmFreeFrame_total p x)⟩

theorem mem_freeSet_foldl (hpos : 0 < p.baseUsableFrame) (l : List ℕ) :
    p.freeSet ⊆ (l.foldl pmmFreeFrame p).freeSet ∧
      ∀ a ∈ l, p.baseUsableFrame ≤ a / 4096 → a / 4096 < p.totalFrames →
        a / 4096 ∈ (l.foldl pmmFreeFrame p).freeSet := by
  induction l generalizing p with
  | nil => exact ⟨subset_rfl, fun a ha => absurd ha not_mem_nil⟩
  | cons b l ih =>
    obtain ⟨hsub, hmem⟩ := ih (p := pmmFreeFrame p b) (by rwa [pmmFreeFrame_base])
    rw [pmmFreeFrame_base, pmmFreeFrame_total] at hmem
    refine ⟨(freeSet_subset_pmmFreeFrame hpos b).trans hsub, fun a ha h1 h2 => ?_⟩
    rcases List.mem_cons.mp ha with rfl | ha
    · refine hsub ?_
      rw [freeSet_pmmFreeFrame_of_pos hpos h1 h2]
      exact Finset.mem_insert_self _ _
    · exact hmem a ha h1 h2

/-- Freeing frames in the managed range. -/
theorem mem_freeSet_foldl_iff (hp : p.Inv)
    (hl : ∀ a ∈ l, p.baseUsableFrame ≤ a / 4096 ∧ a / 4096 < p.totalFrames) :
    (l.foldl pmmFreeFrame p).Inv ∧ ∀ g, g ∈ (l.foldl pmmFreeFrame p).freeSet ↔
      g ∈ p.freeSet ∨ ∃ a ∈ l, a / 4096 = g := by
  induction l generalizing p with
  | nil => exact ⟨hp, fun g => by simp⟩
  | cons b l ih =>
    obtain ⟨hb, hlt⟩ := hl b mem_cons_self
    obtain ⟨hinv, hmem⟩ := ih (pmmFreeFrame_inv hp b) fun a ha => by
      rw [pmmFreeFrame_base, pmmFreeFrame_total]
      exact hl a (mem_cons_of_mem _ ha)
    refine ⟨hinv, fun g => ?_⟩
    rw [foldl_cons, hmem g, freeSet_pmmFreeFrame hp hb hlt, Finset.mem_insert,
      exists_mem_cons_iff, or_comm (a := g = b / 4096), or_assoc, eq_comm (a := g)]

/-! ## Frames without an owner -/

/-- Freeing frames that no directory uses. -/
theorem PageInvOn.releaseList (hs : s.PageInvOn ex live own)
    (hl : ∀ a ∈ l, own (a / 4096) = .other ∨ own (a / 4096) = .free) :
    ∃ own', { s with pmm := l.foldl pmmFreeFrame s.pmm }.PageInvOn ex live own' ∧
      (∀ g, (∀ a ∈ l, a / 4096 ≠ g) → own' g = own g) ∧
      ∀ a ∈ l, s.pmm.baseUsableFrame ≤ a / 4096 → a / 4096 < s.pmm.totalFrames →
        own' (a / 4096) = .free := by
  induction l generalizing s own with
  | nil => exact ⟨own, hs, fun _ _ => rfl, fun a ha => absurd ha not_mem_nil⟩
  | cons b l ih =>
    have hb := hl b mem_cons_self
    have hloose : (own (b / 4096)).Loose := by
      rcases hb with h | h <;> rw [h] <;> trivial
    -- no page has this frame
    have hun : ∀ d ∈ live, ∀ i < 1023, ∀ j < 1024, ex d i → s.pte d i j % 2 = 1 →
        s.pte d i j / 4096 ≠ b / 4096 := by
      intro d hd i hi j hj he hp heq
      have hrole := hs.page_own d hd i hi j hj he hp
      rw [heq] at hrole
      rcases hb with h | h
      · exact pageRole_ne_other _ _ _ _ (hrole.symm.trans h)
      · exact pageRole_ne_free _ _ _ _ (hrole.symm.trans h)
    obtain ⟨own1, hs1, hkept1, -⟩ := hs.release b hloose hun
    have hfree1 : s.pmm.baseUsableFrame ≤ b / 4096 → b / 4096 < s.pmm.totalFrames →
        own1 (b / 4096) = .free := by
      intro h1 h2
      rw [hs1.free_iff]
      change b / 4096 ∈ (pmmFreeFrame s.pmm b).freeSet
      rw [freeSet_pmmFreeFrame hs.pmm h1 h2]
      exact Finset.mem_insert_self _ _
    have hother1 : ∀ g, own g = .other ∨ own g = .free → own1 g = .other ∨ own1 g = .free := by
      intro g hg
      by_cases hgb : g = b / 4096
      · subst hgb
        by_cases hrange : s.pmm.baseUsableFrame ≤ b / 4096 ∧ b / 4096 < s.pmm.totalFrames
        · exact Or.inr (hfree1 hrange.1 hrange.2)
        · refine Or.inl (hs1.unmanaged _ ?_)
          change b / 4096 < (pmmFreeFrame s.pmm b).baseUsableFrame ∨
            (pmmFreeFrame s.pmm b).totalFrames ≤ b / 4096
          rw [pmmFreeFrame_base, pmmFreeFrame_total]
          omega
      · rw [hkept1 g hgb]
        exact hg
    obtain ⟨own2, hs2, hkept2, hfree2⟩ := ih hs1 fun a ha =>
      hother1 _ (hl a (mem_cons_of_mem _ ha))
    simp only [pmmFreeFrame_base, pmmFreeFrame_total] at hfree2
    refine ⟨own2, hs2, fun g hg => ?_, fun a ha h1 h2 => ?_⟩
    · rw [hkept2 g fun a ha => hg a (mem_cons_of_mem _ ha),
        hkept1 g (hg b mem_cons_self).symm]
    · by_cases hal : ∃ c ∈ l, c / 4096 = a / 4096
      · obtain ⟨c, hc, hca⟩ := hal
        rw [← hca]
        exact hfree2 c hc (by omega) (by omega)
      · -- freed at the head of the list and not again
        rcases List.mem_cons.mp ha with rfl | ha
        · rw [hkept2 _ fun c hc hca => hal ⟨c, hc, hca⟩]
          exact hfree1 h1 h2
        · exact absurd ⟨a, ha, rfl⟩ hal

/-! ## Destroying -/

end Paging

/-- The role belongs to the user half of the directory `pd`. -/
def Role.Below (pd : ℕ) : Role → Prop
  | .userTable d _ => d = pd
  | .userPage d _ _ => d = pd
  | _ => False

namespace Paging

variable {D : Type} {s : Paging D} {boot : ℕ} {ex : ℕ → ℕ → Prop} {live : List ℕ} {own : ℕ → Role}

theorem PageInvOn.forget (hs : s.PageInvOn ex live own) (hnd : live.Nodup) (hpd : pd ∈ live) :
    ∃ own', s.PageInvOn ex (live.erase pd) own' ∧
      (∀ g, g = pd / 4096 ∨ (own g).Below pd → own' g = .other) ∧
      ∀ g, g ≠ pd / 4096 → ¬ (own g).Below pd → own' g = own g := by
  classical
  have hmem : ∀ d ∈ live.erase pd, d ∈ live ∧ d ≠ pd := fun d hd =>
    ⟨mem_of_mem_erase hd, fun h => hnd.not_mem_erase (h ▸ hd)⟩
  have hframe : ∀ d ∈ live.erase pd, d / 4096 ≠ pd / 4096 := by
    intro d hd
    have h1 := hs.dir_aligned d (hmem d hd).1
    have h2 := hs.dir_aligned pd hpd
    have h3 := (hmem d hd).2
    omega
  have hdir := hs.dir_own pd hpd
  -- the roles of the other directories are not touched
  have hkept : ∀ g, g ≠ pd / 4096 → ¬ (own g).Below pd →
      (if g = pd / 4096 ∨ (own g).Below pd then Role.other else own g) = own g :=
    fun g h1 h2 => if_neg (not_or.mpr ⟨h1, h2⟩)
  have hne : ∀ {g : ℕ} {r : Role}, own g = r → r ≠ .directory → g ≠ pd / 4096 := by
    rintro g r hg hr rfl
    exact hr (hg.symm.trans hdir)
  refine ⟨fun g => if g = pd / 4096 ∨ (own g).Below pd then .other else own g,
    ⟨⟨hs.pmm, fun g => ?_, fun g hg => ?_, fun d hd => hs.dir_aligned d (hmem d hd).1,
      fun d hd => ?_, fun d hd i hi hp => ?_⟩, fun d hd i hi j hj he hp => ?_⟩,
    fun g hg => if_pos hg, hkept⟩
  · split_ifs with hg
    · refine ⟨False.elim, fun h => ?_⟩
      have hfree := (hs.free_iff g).mpr h
      rcases hg with rfl | hg
      · rw [hdir] at hfree
        cases hfree
      · rw [hfree] at hg
        exact hg.elim
    · exact hs.free_iff g
  · split_ifs
    · rfl
    · exact hs.unmanaged g hg
  · have hown := hs.dir_own d (hmem d hd).1
    rw [hkept _ (hframe d hd) (by rw [hown]; exact id)]
    exact hown
  · have hown := hs.table_own d (hmem d hd).1 i hi hp
    rw [hkept _ (hne hown (tableRole_ne_directory d i)), hown]
    rw [hown, tableRole]
    split_ifs
    · exact (hmem d hd).2
    · exact id
  · have hown := hs.page_own d (hmem d hd).1 i hi j hj he hp
    rw [hkept _ (hne hown (pageRole_loose _ _ _ _).ne_directory), hown]
    rw [hown, pageRole]
    split_ifs
    · exact (hmem d hd).2
    · exact id

/-- **`paging_destroy_directory`** of a directory that owns its pages gives back everything there
and the directory. -/
theorem PageInvOn.destroy (hs : s.PageInvOn ex live own) (hnd : live.Nodup)
    (hpd : pd ∈ live) (hpages : ∀ i < 768, ∀ j < 1024, s.pte pd i j % 2 = 1 →
      own (s.pte pd i j / 4096) = .userPage pd i j) :
    ∃ own', { s with pmm := (s.spaceFrames pd).foldl pmmFreeFrame s.pmm }.PageInvOn ex
        (live.erase pd) own' ∧
      (∀ a ∈ s.spaceFrames pd, own' (a / 4096) = .free) ∧
      ∀ g, g ≠ pd / 4096 → ¬ (own g).Below pd → own' g = own g := by
  obtain ⟨own1, hs1, hother, hkept1⟩ := hs.forget hnd hpd
  -- what is freed is the directory or below it
  have hbelow : ∀ a ∈ s.spaceFrames pd, a / 4096 = pd / 4096 ∨ (own (a / 4096)).Below pd := by
    intro a ha
    rcases mem_spaceFrames.mp ha with rfl | ⟨i, hi, hp, rfl⟩ | ⟨i, hi, j, hj, hp, rfl⟩
    · exact Or.inl rfl
    · rw [frame_div, hs.table_own pd hpd i (by omega) hp, tableRole,
        if_pos hi]
      exact Or.inr rfl
    · rw [frame_div, hpages i hi j hj hp]
      exact Or.inr rfl
  have hmanaged : ∀ a ∈ s.spaceFrames pd,
      s.pmm.baseUsableFrame ≤ a / 4096 ∧ a / 4096 < s.pmm.totalFrames := by
    intro a ha
    refine hs.managed ?_
    rcases hbelow a ha with h | h
    · rw [h, hs.dir_own pd hpd]
      exact Role.noConfusion
    · intro heq
      rw [heq] at h
      exact h
  obtain ⟨own2, hs2, hkept2, hfree⟩ := hs1.releaseList fun a ha => Or.inl (hother _ (hbelow a ha))
  refine ⟨own2, hs2, fun a ha => hfree a ha (hmanaged a ha).1 (hmanaged a ha).2,
    fun g h1 h2 => ?_⟩
  rw [hkept2 g, hkept1 g h1 h2]
  intro a ha heq
  rcases hbelow a ha with h | h
  · exact h1 (heq.symm.trans h)
  · exact h2 (heq ▸ h)

/-- Any directory but the boot directory owns its pages. -/
theorem PageInv.destroy (hs : s.PageInv boot live own) (hnd : live.Nodup)
    (hpd : pd ∈ live) (hboot : pd ≠ boot) :
    ∃ own', { s with pmm := (s.spaceFrames pd).foldl pmmFreeFrame s.pmm }.PageInv boot
        (live.erase pd) own' ∧
      (∀ a ∈ s.spaceFrames pd, own' (a / 4096) = .free) ∧
      ∀ g, g ≠ pd / 4096 → ¬ (own g).Below pd → own' g = own g := by
  refine PageInvOn.destroy hs hnd hpd fun i hi j hj hp => ?_
  rw [hs.page_own pd hpd i (by omega) j hj (Or.inl ⟨hi, Or.inl hboot⟩) hp, pageRole, if_pos hi]

end Paging

end PenOS
