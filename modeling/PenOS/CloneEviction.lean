import PenOS.Clock
import PenOS.CloneSpaces

/-!
# Cloning under memory pressure

When no frame is free `alloc_frame_zero` evicts a page, and it looks for one in the loaded directory
only. So a process that is not loaded can be cloned without loss while another one gives up its
pages: the pages of the loaded process are a stock of frames (`evictionStock`), as far as the swap
area takes them, and neither the source nor what has been copied is touched. What a clone misses is
what was swapped out before: `paging_clone_directory` copies the words that are present.
-/

namespace PenOS

open Function List

variable {D : Type} [Disk D]

/-- The swap area takes `n` more pages, whatever they are and wherever it puts them. -/
def Swap.Accepts : ℕ → Swap D → Prop
  | 0, _ => True
  | n + 1, s => (∀ buffer, (s.swapOut buffer).2 ≠ none) ∧
      ∀ s' buffer slot port, SwapWritten s s' buffer slot port → s'.Accepts n

namespace Paging

variable {s₀ s s' : Paging D} {boot src i j k n x slot port : ℕ} {live : List ℕ} {role : ℕ → Role}

/-! ## Evicting one page

The hand passes some pages and clears their Accessed bits, then one page goes. The others stay
where they are, so the loaded directory has one page less to give. -/

theorem evictSteps_passed (s : Paging D) (k : ℕ) : EvictSteps s (s.passed k) := by
  induction k with
  | zero => exact .refl
  | succ k ih =>
    have hi : (s.hand + k + 1) / 1024 % 768 < 768 := Nat.mod_lt _ (by decide)
    rw [passed, secondChance]
    refine ih.trans ?_
    split_ifs with hused
    · exact (Relation.ReflTransGen.single (.hand _ _ hi)).tail
        (.clear _ _ hi (Nat.mod_lt _ (by decide)) hused.1)
    · exact .single (.hand _ _ hi)

omit [Disk D] in
/-- The present pages in the user half of the loaded directory. -/
def residents (s : Paging D) : Finset (ℕ × ℕ) :=
  (Finset.range 768 ×ˢ Finset.range 1024).filter fun q => s.pte s.currentPd q.1 q.2 % 2 = 1

omit [Disk D] in
theorem mem_residents : (i, j) ∈ s.residents ↔
    (i < 768 ∧ j < 1024) ∧ s.pte s.currentPd i j % 2 = 1 := by
  rw [residents, Finset.mem_filter, Finset.mem_product, Finset.mem_range, Finset.mem_range]

attribute [irreducible] residents

omit [Disk D] in
theorem residents_congr (hcur : s'.currentPd = s.currentPd) (h : ∀ i < 768, ∀ j < 1024,
    s'.pte s.currentPd i j % 2 = s.pte s.currentPd i j % 2) : s'.residents = s.residents := by
  ext ⟨i, j⟩
  rw [mem_residents, mem_residents, hcur]
  exact and_congr_right fun hij => by rw [h i hij.1 j hij.2]

omit [Disk D] in
theorem SameButUsed.residents (h : s.SameButUsed s') (hs : s.currentPd % 4096 = 0) :
    s'.residents = s.residents := by
  refine residents_congr h.currentPd fun i hi j hj => ?_
  have hword := h.present hs (i * 1024 + j)
  rw [wordAt, wordAt, show (i * 1024 + j) / 1024 % 768 = i by omega,
    show (i * 1024 + j) % 1024 = j by omega, h.currentPd] at hword
  exact hword

theorem SwappedOut.residents (h : s.SwappedOut s' i j slot port) (hs : s.TableInv live role)
    (hcur : s.currentPd ∈ live) (hi : i < 768) (hj : j < 1024) :
    s'.residents = s.residents.erase (i, j) := by
  have hsame : s'.currentPd = s.currentPd := by rw [h.result]; rfl
  ext ⟨a, b⟩
  rw [Finset.mem_erase, mem_residents, mem_residents, hsame, and_left_comm]
  refine and_congr_right fun hab => ?_
  rw [h.pte_eq hs hcur hi hj hcur (by omega) hab.2]
  by_cases heq : a = i ∧ b = j
  · obtain ⟨rfl, rfl⟩ := heq
    rw [if_pos ⟨rfl, rfl, rfl⟩]
    exact iff_of_false (by omega) fun hne => hne.1 rfl
  · rw [if_neg fun hc => heq hc.2]
    exact (and_iff_right fun hq => heq (Prod.mk.inj hq)).symm

/-- Eviction writes to the tables of the loaded directory only. -/
theorem PageInv.evictSteps_bytes (hs : s.PageInv boot live role) (hcur : s.currentPd ∈ live)
    (hne : s.currentPd ≠ boot) (h : EvictSteps s s') (hx : ∀ i, role (x / 4096) ≠
      .userTable s.currentPd i) : s'.mem x = s.mem x := by
  induction h with
  | refl => rfl
  | @tail t u hsteps hstep ih =>
    obtain ⟨role', he⟩ := hs.evictSteps hcur hne hsteps
    -- a word that is changed lies in a table of the loaded directory
    have hword : ∀ i < 768, ∀ j < 1024, ∀ v, t.pte t.currentPd i j % 2 = 1 →
        (t.setEntry (t.entry t.currentPd i / 4096 * 4096) j v).mem x = t.mem x := by
      intro i hi j hj v hp
      have htable := he.inv.table_own _ (he.currentPd ▸ hcur) i (by omega) (entry_of_pte hp)
      rw [tableRole, if_pos hi, he.currentPd] at htable
      refine Mem.store32_of_not_mem ?_
      by_contra hin
      rw [← show x / 4096 =
        t.entry s.currentPd i / 4096 by rw [he.currentPd] at hin; omega] at htable
      rcases he.own_page (x / 4096) with hrole | hrole
      · exact hx i (hrole.symm.trans htable)
      · rw [hrole] at htable
        cases htable
    refine Eq.trans ?_ ih
    cases hstep with
    | hand pd pt hpd => rfl
    | clear i j hi hj hp => exact hword i hi j hj _ hp
    | failed disk _ => rfl
    | swapped i j slot port hi hj hout =>
      rw [hout.result]
      exact hword i hi j hj _ hout.present

/-! ## The pages of another process as a stock -/

/-- The frames of the user half at `src`, in the state `s`. -/
def sourceFrame (s : Paging D) (src g : ℕ) : Prop := ∃ a ∈ s.spaceFrames src, a / 4096 = g

/-- While a copy of `src` is made another directory is loaded. `n` frames can be had: the free ones,
and those of pages of the loaded directory, which the swap area takes. -/
structure Relief (s₀ : Paging D) (boot : ℕ) (live : List ℕ) (src : ℕ) (own : ℕ → Option Place)
    (n : ℕ) (s : Paging D) (role : ℕ → Role) : Prop where
  pages : s.PageInv boot live role
  source : src ∈ live ∧ src ≠ boot
  loaded : s.currentPd ∈ live ∧ s.currentPd ≠ boot ∧ s.currentPd ≠ src
  hand : s.evictPdIdx < 768 ∧ s.evictPtIdx < 1024
  copy : ∀ g, own g ≠ none → role g = .other
  kept : ∀ x, s₀.sourceFrame src (x / 4096) → s.mem x = s₀.mem x
  frames : n ≤ s.pmm.freeSet.card + s.residents.card
  swap : s.swap.Accepts (n - s.pmm.freeSet.card)

variable {own : ℕ → Option Place}

omit [Disk D] in
theorem PageInv.role_source (hs : s.PageInv boot live role) (hsrc : src ∈ live) (hne : src ≠ boot)
    {g : ℕ} (hg : s.sourceFrame src g) : role g = .directory ∨
      (∃ i, role g = .userTable src i) ∨ ∃ i j, role g = .userPage src i j := by
  obtain ⟨a, ha, rfl⟩ := hg
  rcases mem_spaceFrames.mp ha with rfl | ⟨i, hi, hp, rfl⟩ | ⟨i, hi, j, hj, hp, rfl⟩
  · exact .inl (hs.dir_own _ hsrc)
  · refine .inr (.inl ⟨i, ?_⟩)
    rw [frame_div, hs.table_own _ hsrc i (by omega) hp, tableRole, if_pos hi]
  · refine .inr (.inr ⟨i, j, ?_⟩)
    rw [frame_div, hs.page_own _ hsrc i (by omega) j hj
      (exclusive_user hne hi) hp, pageRole, if_pos hi]

omit [Disk D] in
theorem sourceFrame_of_userTables {g : ℕ} (hg : g ∈ s.userTables src) : s.sourceFrame src g := by
  rcases hg with rfl | ⟨i, hi, hp, rfl⟩
  · exact ⟨src, mem_spaceFrames.mpr (.inl rfl), rfl⟩
  · exact ⟨_, mem_spaceFrames.mpr (.inr (.inl ⟨i, hi, hp, rfl⟩)), frame_div _⟩

section

variable (h : Relief s₀ boot live src own n s role)

include h

/-- The source still has the frames it had in `s₀`. -/
theorem Relief.sourceFrame {g : ℕ} (hg : s₀.sourceFrame src g) : s.sourceFrame src g := by
  have haligned := h.pages.dir_aligned src h.source.1
  have hbytes : ∀ x, x / 4096 ∈ s₀.userTables src → s.mem x = s₀.mem x := fun x hx =>
    h.kept x (sourceFrame_of_userTables hx)
  have hentry : ∀ i < 768, s.entry src i = s₀.entry src i := fun i hi =>
    entry_eq_of_bytes (by omega) fun x h1 h2 => hbytes x (.inl (by omega))
  obtain ⟨a, ha, rfl⟩ := hg
  refine ⟨a, mem_spaceFrames.mpr ?_, rfl⟩
  rcases mem_spaceFrames.mp ha with rfl | ⟨i, hi, hp, rfl⟩ | ⟨i, hi, j, hj, hp, rfl⟩
  · exact .inl rfl
  · exact .inr (.inl ⟨i, hi, by rwa [hentry i hi], by rw [hentry i hi]⟩)
  · have hpte := pte_of_tables haligned hbytes hi hj
    exact .inr (.inr ⟨i, hi, j, hj, by rwa [hpte], by rw [hpte]⟩)

theorem Relief.role_source {g : ℕ} (hg : s₀.sourceFrame src g) : role g = .directory ∨
    (∃ i, role g = .userTable src i) ∨ ∃ i j, role g = .userPage src i j :=
  h.pages.role_source h.source.1 h.source.2 (h.sourceFrame hg)

theorem Relief.write {m : Mem} (hm : ∀ x, own (x / 4096) = none → m x = s.mem x) :
    Relief s₀ boot live src own n { s with mem := m } role := by
  have hpmm : ({ s with mem := m } : Paging D).pmm = s.pmm := rfl
  have hcur : ({ s with mem := m } : Paging D).currentPd = s.currentPd := rfl
  obtain ⟨hinv, -, hpte⟩ := h.pages.of_bytes hpmm fun x hx => hm x (by
    by_contra hown
    exact hx (by rw [h.copy _ hown]; trivial))
  refine ⟨hinv, h.source, h.loaded, h.hand, h.copy, fun x hx => ?_, ?_, h.swap⟩
  · refine (hm x ?_).trans (h.kept x hx)
    by_contra hown
    have hrole := h.role_source hx
    rw [h.copy _ hown] at hrole
    rcases hrole with hr | ⟨i, hr⟩ | ⟨i, j, hr⟩ <;> cases hr
  · rw [residents_congr hcur fun i hi j hj => by rw [hpte _ h.loaded.1 i (by omega) j hj]]
    exact h.frames

end

/-- A free frame is taken. -/
theorem Relief.take (h : Relief s₀ boot live src own (n + 1) s role)
    (hfree : s.pmm.freeSet.Nonempty) (p : Place) :
    ∃ s' f, s.allocFrameZero = .ok (s', f * 4096) ∧
      FrameTaken (s₀.sourceFrame src) s s' own f ∧
      Relief s₀ boot live src (update own f (some p)) n s' (update role f .other) := by
  have hinv := h.pages.pmm
  have hmem := Finset.min'_mem _ hfree
  have hfresh := h.pages.toTableInv.take hmem (hinv.takeFrame hmem fun g hg =>
    Finset.min'_le _ _ hg)
  have halloc := allocFrameZero_of_free hinv hfree
  generalize s.pmm.freeSet.min' hfree = f at hmem hfresh halloc
  have hbytes : ∀ x, x / 4096 ≠ f → (zeroFrame { s with pmm := (s.pmm.takeFrame f).1 }
      (f * 4096)).mem x = s.mem x := fun x hx => Mem.fill_of_not_mem (by omega)
  generalize zeroFrame { s with pmm := (s.pmm.takeFrame f).1 } (f * 4096) = s' at *
  have hnew : own f = none := by
    by_contra hown
    have hrole := h.copy f hown
    rw [hfresh.was_free] at hrole
    cases hrole
  have hapart : ¬ s₀.sourceFrame src f := fun hf => by
    have hrole := h.role_source hf
    rw [hfresh.was_free] at hrole
    rcases hrole with hr | ⟨i, hr⟩ | ⟨i, j, hr⟩ <;> cases hr
  have hkept : ∀ x, s₀.sourceFrame src (x / 4096) ∨ own (x / 4096) ≠ none → s'.mem x = s.mem x :=
    fun x hx => hbytes x fun hxf => by
      rw [hxf] at hx
      exact hx.elim hapart fun hown => hown hnew
  have hcard : s'.pmm.freeSet.card + 1 = s.pmm.freeSet.card := by
    rw [hfresh.taken]
    exact Finset.card_erase_add_one hmem
  have hres : s'.residents = s.residents := residents_congr hfresh.currentPd fun i hi j hj => by
    rw [hfresh.pte_eq _ h.loaded.1 i (by omega) j hj]
  have hframes := h.frames
  refine ⟨s', f, halloc, ⟨hnew, ⟨hapart, (hfresh.lt hinv).2⟩, hkept, hfresh.zero⟩,
    hfresh.pageInv h.pages, h.source, hfresh.currentPd.symm ▸ h.loaded, ?_, fun g hg => ?_,
    fun x hx => (hkept x (.inl hx)).trans (h.kept x hx), by rw [hres]; omega, ?_⟩
  · rw [hfresh.hand.1, hfresh.hand.2]
    exact h.hand
  · by_cases hgf : g = f
    · rw [hgf, update_self]
    · rw [update_of_ne hgf] at hg ⊢
      exact h.copy g hg
  · rw [hfresh.swap, show n - s'.pmm.freeSet.card = n + 1 - s.pmm.freeSet.card by omega]
    exact h.swap

omit [Disk D] in
theorem passed_pmm (s : Paging D) (k : ℕ) : (s.passed k).pmm = s.pmm := by
  induction k with
  | zero => rfl
  | succ k ih =>
    rw [passed, secondChance]
    split_ifs <;> exact ih

/-- **A page is evicted** when no frame is free; then there is one. -/
theorem Relief.evict (h : Relief s₀ boot live src own (n + 1) s role)
    (hempty : s.pmm.freeSet = ∅) :
    ∃ s' role', s.allocFrameZero = s'.allocFrameZero ∧ s'.pmm.freeSet.Nonempty ∧
      (∀ x, own (x / 4096) ≠ none → s'.mem x = s.mem x) ∧
      Relief s₀ boot live src own (n + 1) s' role' := by
  obtain ⟨hcur, hboot, hother⟩ := h.loaded
  have haligned := h.pages.dir_aligned _ hcur
  have hframes := h.frames
  have hswap := h.swap
  rw [hempty, Finset.card_empty] at hframes hswap
  obtain ⟨⟨a, b⟩, hab⟩ := Finset.card_pos.mp (show 0 < s.residents.card by omega)
  rw [mem_residents] at hab
  obtain ⟨k, x, s', slot, port, hevict, hout⟩ := pagingEvictPage_of_page h.hand.1 h.hand.2 haligned
    hswap.1 ⟨a, hab.1.1, b, hab.1.2, hab.2⟩
  have hi : x / 1024 % 768 < 768 := Nat.mod_lt _ (by decide)
  have hj : x % 1024 < 1024 := Nat.mod_lt _ (by decide)
  have hsame : s.SameButUsed ((s.passed k).handAt x) :=
    have hf := (follows_passed haligned k).toSameButUsed
    ⟨hf.currentPd, hf.swap, hf.words⟩
  have hpmm : ((s.passed k).handAt x).pmm = s.pmm := passed_pmm s k
  have hsteps : EvictSteps s ((s.passed k).handAt x) :=
    (evictSteps_passed s k).tail (.hand _ _ hi)
  have hhand : s'.evictPdIdx = x / 1024 % 768 ∧ s'.evictPtIdx = x % 1024 := by
    rw [hout.result]
    exact ⟨rfl, rfl⟩
  generalize (s.passed k).handAt x = u at hout hsame hpmm hsteps
  obtain ⟨roleu, heu⟩ := h.pages.evictSteps hcur hboot hsteps
  have hcuru : u.currentPd ∈ live := heu.currentPd ▸ hcur
  have hsteps' : EvictSteps s s' := hsteps.tail (.swapped _ _ slot port hi hj hout)
  obtain ⟨role', he⟩ := h.pages.evictSteps hcur hboot hsteps'
  have hbytes := fun x => h.pages.evictSteps_bytes (x := x) hcur hboot hsteps'
  -- one frame is free now, and one page less is in memory
  have hcard : s'.pmm.freeSet.card = 1 := by
    obtain ⟨_, hinv, -, hfreed, -⟩ := PageInvOn.swapOut heu.inv (fun _ d' _ hk he =>
      he.kernel d' hk) hcuru (by omega) hj (exclusive_user (heu.currentPd ▸ hboot) hi) hout
    have hpos := Finset.card_pos.mpr ⟨_, (hinv.free_iff _).mp hfreed⟩
    have hle := card_pmmFreeFrame_le heu.inv.pmm
      (u.pte u.currentPd (x / 1024 % 768) (x % 1024) / 4096 * 4096)
    rw [hpmm, hempty, Finset.card_empty, ← hpmm] at hle
    rw [hout.result] at hpos ⊢
    dsimp only at hpos ⊢
    omega
  have hres : s'.residents.card + 1 = s.residents.card := by
    rw [hout.residents heu.inv.toTableInv hcuru hi hj, ← hsame.residents haligned]
    exact Finset.card_erase_add_one (mem_residents.mpr ⟨⟨hi, hj⟩, hout.present⟩)
  have hne : s'.pmm.freeSet.Nonempty := Finset.card_pos.mp (by omega)
  refine ⟨s', role', ?_, hne, fun x hx => hbytes x fun i hr => ?_, he.inv, h.source,
    he.currentPd.symm ▸ h.loaded, by rw [hhand.1, hhand.2]; exact ⟨hi, hj⟩, fun g hg => ?_,
    fun x hx => (hbytes x fun i hr => ?_).trans (h.kept x hx), by omega, ?_⟩
  · have hz : (pmmAllocFrame s'.pmm).2 ≠ 0 := fun hz =>
      absurd ((card_pmmAllocFrame he.inv.pmm).2.mp hz) hne.ne_empty
    simp only [allocFrameZero, pmmAllocFrame_of_empty h.pages.pmm hempty, if_true,
      hevict, if_neg hz]
  · rw [h.copy _ hx] at hr
    cases hr
  · rw [he.own_kept g (by rw [h.copy g hg]; exact fun _ _ _ => Role.noConfusion), h.copy g hg]
  · have hrole := h.role_source hx
    rw [hr] at hrole
    rcases hrole with hr | ⟨i, hr⟩ | ⟨i, j, hr⟩
    · cases hr
    · exact hother (Role.userTable.inj hr).1
    · cases hr
  · rw [hcard]
    exact hswap.2 _ _ slot port (hsame.swap ▸ hout.swap)

/-- A page is mapped in the loaded directory, with frames at hand: the other directories are as
before. -/
theorem NewPage.other {s₁ s₂ s₃ : Paging D} {own₁ own₃ own₄ : ℕ → Role} {virt flags f d : ℕ}
    (h : NewPage s s₁ s₂ s₃ s' boot live role own₁ own₃ own₄ virt flags f)
    (hcur : s.currentPd ∈ live) (hv : pdIndex virt < 768) (hd : d ∈ live) (hne : d ≠ s.currentPd) :
    (∀ i < 768, s'.entry d i = s.entry d i) ∧
      ∀ i < 768, ∀ j < 1024, s'.pte d i j = s.pte d i j := by
  have hcur2 : s₂.currentPd = s.currentPd := h.fresh.currentPd.trans h.evicted₁.currentPd
  have hinv1 := h.evicted₁.inv
  have hfd : d ≠ f * 4096 := (hinv1.free_apart ((hinv1.free_iff f).mp h.fresh.was_free) hd).1
  refine ⟨fun i hi => ?_, fun i hi j hj => ?_⟩
  · rw [h.mapped.entry_eq d hd i (by omega) fun hc => hne (hc.1.trans h.currentPd₃),
      h.evicted₂.entry_eq d hd i (by omega),
      h.fresh.entry_eq d (hinv1.dir_aligned d hd) hfd i (by omega),
      h.evicted₁.entry_eq d hd i (by omega)]
  · rw [h.pte_user hcur hv hd (by omega) hj, if_neg fun hc => hne hc.1,
      h.evicted₂.pte_other d hd i (by omega) j hj (.inl (hcur2 ▸ hne)),
      h.fresh.pte_eq d hd i (by omega) j hj,
      h.evicted₁.pte_other d hd i (by omega) j hj (.inl hne)]

end Paging

end PenOS
