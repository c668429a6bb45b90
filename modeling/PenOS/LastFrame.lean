import PenOS.HeapPages
import PenOS.Eviction

/-!
# A heap that grows with the last frame

`map_new_page` takes a frame, and every 4 MiB one more for a page table. If the first was the last
one there is, a page is evicted, in the kernel's directory any frame below 16 MiB: a page of the
heap, a page table, even the directory. Still no frame in use elsewhere is given away: the evicted
frame is taken again at once, and `heap_trim` gives back only what the call has taken.
-/

namespace PenOS

open Finset

variable {D : Type}
variable {d f g i k phys t v : ℕ} {s0 : Paging D}

namespace Paging

variable {s s' s₁ : Paging D}

/-! ## Words that fade -/

/-- The present words of `s'` name the frames that they named in `s`. -/
def Faded (s s' : Paging D) : Prop := ∀ t, t % 4096 = 0 → ∀ j < 1024, s'.entry t j % 2 = 1 →
  s.entry t j % 2 = 1 ∧ s'.entry t j / 4096 = s.entry t j / 4096

theorem Faded.of_mem (hmem : s'.mem = s.mem) : s.Faded s' := by
  intro t _ j _ hp
  rw [entry_congr hmem] at hp ⊢
  exact ⟨hp, rfl⟩

theorem Faded.trans (h : s.Faded s₁) (h' : s₁.Faded s') : s.Faded s' := by
  intro t ht j hj hp
  obtain ⟨hp1, heq1⟩ := h' t ht j hj hp
  obtain ⟨hp2, heq2⟩ := h t ht j hj hp1
  exact ⟨hp2, heq1.trans heq2⟩

theorem faded_setEntry {base : ℕ} (hb : base % 4096 = 0) (hi : i < 1024)
    (hv : u32 v % 2 = 1 → s.entry base i % 2 = 1 ∧ u32 v / 4096 = s.entry base i / 4096) :
    s.Faded (s.setEntry base i v) := by
  intro t ht j hj hp
  by_cases hsame : t = base ∧ j = i
  · obtain ⟨rfl, rfl⟩ := hsame
    rw [entry_setEntry_self] at hp ⊢
    exact hv hp
  · rw [entry_setEntry_of_ne s v hb ht hi hj (by omega)] at hp ⊢
    exact ⟨hp, rfl⟩

theorem faded_zeroFrame (hphys : phys % 4096 = 0) : s.Faded (s.zeroFrame phys) := by
  intro t ht j hj hp
  rcases eq_or_ne t phys with rfl | hne
  · rw [entry_zeroFrame_self s t hj] at hp
    cases hp
  · rw [entry_zeroFrame_of_ne s hphys ht hj hne] at hp ⊢
    exact ⟨hp, rfl⟩

/-- No table of the user half is the directory itself. -/
def UserApart (s : Paging D) : Prop := ∀ i < 768, s.entry s.currentPd i % 2 = 1 →
  s.entry s.currentPd i / 4096 * 4096 ≠ s.currentPd

/-- What the clock may have changed, short of frames. -/
structure Worn (s s' : Paging D) : Prop where
  currentPd : s'.currentPd = s.currentPd
  faded : s.Faded s'
  hand : s.evictPdIdx < 768 → s'.evictPdIdx < 768
  pmm : s.pmm.Inv → s'.pmm.Inv
  directory : ∀ i < 1024, s'.entry s.currentPd i = s.entry s.currentPd i

variable [Disk D]

/-- One step of the clock. -/
theorem EvictStep.worn (h : EvictStep s s') (hdir : s.currentPd % 4096 = 0)
    (hapart : s.UserApart) : s.Worn s' := by
  -- a word written in a table of the user half
  have hwrite : ∀ i < 768, ∀ j < 1024, s.pte s.currentPd i j % 2 = 1 → ∀ v, ∀ k < 1024,
      (s.setEntry (s.entry s.currentPd i / 4096 * 4096) j v).entry s.currentPd k =
        s.entry s.currentPd k := by
    intro i hi j hj hp v k hk
    exact entry_setEntry_of_ne s v (Nat.mul_mod_left _ _) hdir hj hk
      (.inl (hapart i hi (entry_of_pte hp)).symm)
  cases h with
  | hand pd pt hpd => exact ⟨rfl, .of_mem rfl, fun _ => hpd, id, fun _ _ => rfl⟩
  | clear i j hi hj hp =>
    refine ⟨rfl, faded_setEntry (Nat.mul_mod_left _ _) hj fun _ => ?_, id, id,
      hwrite i hi j hj hp _⟩
    rw [u32_of_lt (clearAccessed_lt _), clearAccessed_div (s.pte_lt _ _ _),
      ← pte_of_present (entry_of_pte hp)]
    exact ⟨hp, rfl⟩
  | failed disk hdisk => exact ⟨rfl, .of_mem rfl, id, id, fun _ _ => rfl⟩
  | swapped i j slot port hi hj h =>
    obtain ⟨hp, hw, hres⟩ := h
    have hslot : slot < 4096 := hw.slot_lt
    rw [hres]
    refine ⟨rfl, ?_, id, fun hpmm => pmmFreeFrame_inv hpmm _, hwrite i hi j hj hp _⟩
    have hfade : s.Faded (s.setEntry (s.entry s.currentPd i / 4096 * 4096) j
        (slot * 4096 + 512)) := by
      refine faded_setEntry (Nat.mul_mod_left _ _) hj fun hodd => ?_
      rw [u32_of_lt (by omega)] at hodd
      omega
    exact hfade

/-- **The clock** loses words of the user half, and nothing else. -/
theorem EvictSteps.worn (h : EvictSteps s s') (hdir : s.currentPd % 4096 = 0)
    (hapart : s.UserApart) : s.Worn s' := by
  induction h with
  | refl => exact ⟨rfl, .of_mem rfl, id, id, fun _ _ => rfl⟩
  | @tail b c _ hstep ih =>
    have hb : b.UserApart := by
      intro i hi hp
      rw [ih.currentPd] at hp ⊢
      rw [ih.directory i (by omega)] at hp ⊢
      exact hapart i hi hp
    have hc := hstep.worn (ih.currentPd ▸ hdir) hb
    refine ⟨hc.currentPd.trans ih.currentPd, ih.faded.trans hc.faded,
      fun hh => hc.hand (ih.hand hh),
      fun hp => hc.pmm (ih.pmm hp), fun i hi => ?_⟩
    rw [← ih.directory i hi, ← ih.currentPd]
    exact hc.directory i hi

/-! ## A frame for a table -/

omit [Disk D] in
/-- What `alloc_frame_zero` leaves when it returns the frame `g`. -/
structure Allotted (s s' : Paging D) (g : ℕ) : Prop where
  pmm : s'.pmm.Inv
  hand : s'.evictPdIdx < 768
  currentPd : s'.currentPd = s.currentPd
  lt : g < 1048576
  free : s'.pmm.freeSet ⊆ s.pmm.freeSet
  faded : s.Faded s'
  cleared : ∀ j < 1024, s'.entry (g * 4096) j = 0
  directory : g * 4096 ≠ s.currentPd → ∀ i < 1024, s'.entry s.currentPd i = s.entry s.currentPd i
  fresh : s.pmm.freeSet.Nonempty → g ∈ s.pmm.freeSet

/-- **`alloc_frame_zero`**, with or without an eviction. -/
theorem allocFrameZero_allotted (hpmm : s.pmm.Inv) (hhand : s.evictPdIdx < 768)
    (hdir : s.currentPd % 4096 = 0) (hapart : s.UserApart) {a : ℕ}
    (h : s.allocFrameZero = .ok (s', a)) : ∃ g, a = g * 4096 ∧ s.Allotted s' g := by
  obtain ⟨hpmm', hcard⟩ := allocFrameZero_card hpmm h
  -- the allocation itself, after the steps of the clock
  have hmain : ∀ s₁ : Paging D, s.Worn s₁ → s₁.pmm.freeSet.Nonempty →
      s₁.allocFrameZero = .ok (s', a) → (s.pmm.freeSet.Nonempty → s₁ = s) →
      ∃ g, a = g * 4096 ∧ s.Allotted s' g := by
    intro s₁ hw hne hrun hself
    have hmin := min'_mem _ hne
    have hlt := (Pmm.mem_freeSet.mp hmin).2.1
    have htotal := (hw.pmm hpmm).total_le
    rw [allocFrameZero_of_free (hw.pmm hpmm) hne] at hrun
    cases hrun
    refine ⟨_, rfl, hpmm', hw.hand hhand, hw.currentPd, by omega, ?_,
      hw.faded.trans (faded_zeroFrame (Nat.mul_mod_left _ _)),
      fun j hj => entry_zeroFrame_self _ _ hj, fun hne' i hi => ?_, fun hs => ?_⟩
    · rcases s.pmm.freeSet.eq_empty_or_nonempty with he | hs
      · rw [he, card_empty] at hcard
        rw [card_eq_zero.mp (Nat.le_zero.mp hcard)]
        exact empty_subset _
      · obtain rfl := hself hs
        change (s₁.pmm.takeFrame _).1.freeSet ⊆ _
        rw [Pmm.freeSet_takeFrame]
        exact erase_subset _ _
    · rw [entry_zeroFrame_of_ne _ (Nat.mul_mod_left _ _) hdir hi hne'.symm]
      exact hw.directory i hi
    · obtain rfl := hself hs
      exact hmin
  rcases s.pmm.freeSet.eq_empty_or_nonempty with he | hne
  · have hsteps : ∀ s₁, EvictSteps s s₁ → s₁.pmm.Inv := fun s₁ h1 =>
      (EvictSteps.worn h1 hdir hapart).pmm hpmm
    obtain ⟨s₁, h1, hne, hrun⟩ := allocFrameZero_steps hpmm hhand h hsteps
    exact hmain s₁ (EvictSteps.worn h1 hdir hapart) hne hrun fun hs =>
      absurd he hs.ne_empty
  · exact hmain s ⟨rfl, .of_mem rfl, id, id, fun _ _ => rfl⟩ hne h fun _ => rfl

theorem evictLoop_empty (n : ℕ) (hhand : s.evictPdIdx < 768)
    (hempty : ∀ i < 768, s.entry s.currentPd i % 2 ≠ 1) : (evictLoop n s).2 = false := by
  by_contra htrue
  obtain ⟨s₁, i, j, slot, port, hsteps, hi, -, hout⟩ :=
    (evictLoop_steps n hhand).2 (Bool.eq_true_of_not_eq_false htrue)
  have hkept : s₁.currentPd = s.currentPd ∧ s₁.mem = s.mem := by
    clear hout htrue
    induction hsteps with
    | refl => exact ⟨rfl, rfl⟩
    | @tail b c _ hstep ih =>
      have habs : ∀ i < 768, b.entry b.currentPd i % 2 ≠ 1 := by
        intro i hi
        rw [ih.1, entry_congr ih.2]
        exact hempty i hi
      cases hstep with
      | hand pd pt hpd => exact ih
      | clear i j hi hj hp => exact absurd (entry_of_pte hp) (habs i hi)
      | failed disk hdisk => exact ih
      | swapped i j slot port hi hj h => exact absurd (entry_of_pte h.present) (habs i hi)
  have hp := entry_of_pte hout.present
  rw [hkept.1, entry_congr hkept.2] at hp
  exact hempty i hi hp

/-! ## Between the calls -/

section

omit [Disk D]

/-- The frames of `U` are not free, and the directory is one of them. -/
structure Kept (s : Paging D) (U : Finset ℕ) : Prop where
  pmm : s.pmm.Inv
  hand : s.evictPdIdx < 768
  aligned : s.currentPd % 4096 = 0
  dir : s.currentPd / 4096 ∈ U
  used : ∀ f ∈ U, f ∉ s.pmm.freeSet

/-- The directory is not one of its tables, and the pages of the heap up to `e` have theirs. -/
structure Orderly (s : Paging D) (e : ℕ) : Prop where
  apart : ∀ i < 1023, s.entry s.currentPd i % 2 = 1 →
    s.entry s.currentPd i / 4096 * 4096 ≠ s.currentPd
  tables : ∀ v, heapStart ≤ v → v < e → s.entry s.currentPd (pdIndex v) % 2 = 1

/-- The directory was evicted and cleared. It is the table of the page at the end of the heap, if
that page has one. -/
structure Wiped (s : Paging D) (e : ℕ) : Prop where
  card : s.pmm.freeSet.card ≤ 1
  user : ∀ i < 768, s.entry s.currentPd i % 2 ≠ 1
  last : s.entry s.currentPd (pdIndex e) % 2 = 1 →
    s.entry s.currentPd (pdIndex e) / 4096 * 4096 = s.currentPd ∧ ptIndex e = 0

/-- The pages from `e₀` to `e` show no frame of `U`. -/
def Spares (s : Paging D) (U : Finset ℕ) (e₀ e : ℕ) : Prop := ∀ v, e₀ ≤ v → v < e →
  s.pte s.currentPd (pdIndex v) (ptIndex v) % 2 = 1 →
    s.pte s.currentPd (pdIndex v) (ptIndex v) / 4096 ∉ U

/-- In the call that uses the cleared directory: the last page is the only new one with a
table. -/
structure Spent (s : Paging D) (e₀ e : ℕ) : Prop where
  free : s.pmm.freeSet = ∅
  user : ∀ i < 768, i ≠ 0 → s.entry s.currentPd i % 2 ≠ 1
  first : e₀ + 4096 ≤ e
  last : s.entry s.currentPd (pdIndex (e - 4096)) % 2 = 1
  table : s.entry s.currentPd (pdIndex (e - 4096)) / 4096 * 4096 = s.currentPd
  index : ptIndex (e - 4096) = 0
  before : ∀ v, e₀ ≤ v → v + 4096 < e → s.entry s.currentPd (pdIndex v) % 2 ≠ 1

end

variable {U : Finset ℕ} {e₀ e : ℕ}

/-! ## A new page -/

theorem pagingMap_cases {virt : ℕ} (h : s.pagingMap virt phys (pageRw ||| pagePresent) = .ok s') :
    s.entry s.currentPd (pdIndex virt) % 2 = 1 ∧
      s' = s.setEntry (s.entry s.currentPd (pdIndex virt) / 4096 * 4096) (ptIndex virt)
        (pageEntry phys (pageRw ||| pagePresent)) ∨
    s.entry s.currentPd (pdIndex virt) % 2 ≠ 1 ∧ ∃ s₁ a, s.allocFrameZero = .ok (s₁, a) ∧
      s' = (s₁.setEntry s₁.currentPd (pdIndex virt) (a ||| 3)).setEntry
        (frameOf (u32 (a ||| 3))) (ptIndex virt) (pageEntry phys (pageRw ||| pagePresent)) := by
  have hflags : hasFlag (pageRw ||| pagePresent) pageUser = false := by decide
  have htable : tableFlags (pageRw ||| pagePresent) = 3 := by decide
  simp only [pagingMap, getPageTable, hasFlag_present, hflags, htable, Bool.false_and,
    Bool.false_eq_true, if_false, frameOf_entry s] at h
  by_cases hp : s.entry s.currentPd (pdIndex virt) % 2 = 1
  · rw [decide_eq_true hp] at h
    exact .inl ⟨hp, (Except.ok.inj h).symm⟩
  · rw [decide_eq_false hp] at h
    rcases ha : s.allocFrameZero with err | ⟨s₁, a⟩ <;> simp only [ha] at h
    · cases h
    · rw [Bool.not_false, if_pos rfl] at h
      have hword := entry_setEntry_self s₁ s₁.currentPd (pdIndex virt) (a ||| 3)
      rw [show (s₁.setEntry s₁.currentPd (pdIndex virt) (a ||| 3)).currentPd =
        s₁.currentPd from rfl,
        hword] at h
      exact .inr ⟨hp, s₁, a, rfl, (Except.ok.inj h).symm⟩

/-- The frame of a new page. -/
theorem growPage_cases (hpmm : s.pmm.Inv) (h : s.growPage e = .ok s') :
    ∃ f ∈ s.pmm.freeSet, ∃ pmm : Pmm, pmm.Inv ∧ pmm.freeSet = s.pmm.freeSet.erase f ∧ f < 1048576 ∧
      { s with pmm := pmm }.pagingMap e (f * 4096) (pageRw ||| pagePresent) = .ok s' := by
  rw [growPage] at h
  rcases s.pmm.freeSet.eq_empty_or_nonempty with he | hne
  · rw [pmmAllocFrame_of_empty hpmm he] at h
    cases h
  have hmin := min'_mem _ hne
  have hlt := (Pmm.mem_freeSet.mp hmin).2.1
  have htotal := hpmm.total_le
  split_ifs at h
  refine ⟨_, hmin, (pmmAllocFrame s.pmm).1, pmmAllocFrame_inv hpmm, ?_, by omega, ?_⟩
  · rw [pmmAllocFrame_of_nonempty hpmm hne, Pmm.freeSet_takeFrame]
  · have haddr : (pmmAllocFrame s.pmm).2 = s.pmm.freeSet.min' hne * 4096 := by
      rw [pmmAllocFrame_of_nonempty hpmm hne]
      exact (hpmm.address_eq hmin).trans (mul_comm _ _)
    rwa [haddr] at h

section

omit [Disk D]

theorem pte_setEntry_or {j w : ℕ} (hd : d % 4096 = 0) (ht : t % 4096 = 0) (hne : d ≠ t)
    (hi : i < 1024) (hj : j < 1024) (hk : k < 1024) :
    (s.setEntry t j w).pte d i k = u32 w ∨ (s.setEntry t j w).pte d i k = s.pte d i k := by
  have hdir : (s.setEntry t j w).entry d i = s.entry d i :=
    entry_setEntry_of_ne s w ht hd hj hi (.inl hne)
  by_cases hp : s.entry d i % 2 = 1
  · rw [pte_of_present (hdir ▸ hp), pte_of_present hp, hdir]
    by_cases hsame : s.entry d i / 4096 * 4096 = t ∧ k = j
    · rw [hsame.1, hsame.2]
      exact .inl (entry_setEntry_self s t j w)
    · exact .inr (entry_setEntry_of_ne s w ht (Nat.mul_mod_left _ _) hj hk (by omega))
  · rw [pte_of_absent (hdir ▸ hp), pte_of_absent hp]
    exact .inr rfl

/-- The word for a page in frame `f`. -/
abbrev newWord (f : ℕ) : ℕ := pageEntry (f * 4096) (pageRw ||| pagePresent)

theorem tableWord_frame (hd : d % 4096 = 0) : (d + 3) / 4096 * 4096 = d := by omega

theorem newWord_facts (hf : f < 1048576) :
    u32 (newWord f) % 2 = 1 ∧
      u32 (newWord f) / 4096 = f := by
  rw [u32_of_lt (pageEntry_lt _ _), pageEntry_div (by omega)]
  exact ⟨pageEntry_mod_two _ _, by omega⟩

theorem Spares.extend (hsp : ∀ v, e₀ ≤ v → v < e →
      s.pte s.currentPd (pdIndex v) (ptIndex v) % 2 = 1 →
      s.pte s.currentPd (pdIndex v) (ptIndex v) / 4096 ∉ U)
    (hlast : s.entry s.currentPd (pdIndex e) % 2 = 1)
    (ht : s.entry s.currentPd (pdIndex e) / 4096 * 4096 = t) (hne : s.currentPd ≠ t)
    (hdir : s.currentPd % 4096 = 0) (hf : f < 1048576) (hU : f ∉ U) (hend : e < heapEnd)
    (halign : e % 4096 = 0) :
    (s.setEntry t (ptIndex e) (newWord f)).Spares U e₀
      (e + 4096) := by
  obtain ⟨-, hframe⟩ := newWord_facts hf
  have hlayout := heap_layout
  have htable : t % 4096 = 0 := ht ▸ Nat.mul_mod_left _ _
  intro v hv hlt hp
  have hpd : pdIndex v < 1024 := by
    rw [pdIndex]
    omega
  rcases lt_or_ge v e with hold | hnew
  · rcases pte_setEntry_or hdir htable
      hne hpd (ptIndex_lt e) (ptIndex_lt v) with heq | heq
    · exact heq ▸ hframe.symm ▸ hU
    · change (s.setEntry _ _ _).pte s.currentPd _ _ % 2 = 1 at hp
      change (s.setEntry _ _ _).pte s.currentPd _ _ / 4096 ∉ U
      rw [heq] at hp ⊢
      exact hsp v hv hold hp
  · -- the new page
    obtain ⟨hpd', hpt'⟩ := (same_page_iff v e).mpr (by omega)
    have hdir' : (s.setEntry t (ptIndex e) (newWord f)).entry
        s.currentPd (pdIndex e) = s.entry s.currentPd (pdIndex e) :=
      entry_setEntry_of_ne s _ htable hdir (ptIndex_lt e) (hpd' ▸ hpd) (.inl hne)
    change (s.setEntry _ _ _).pte s.currentPd _ _ / 4096 ∉ U
    rw [hpd', hpt', pte_of_present (hdir' ▸ hlast), hdir', ht, entry_setEntry_self, hframe]
    exact hU

theorem Orderly.ptIndex_eq_zero (ho : s.Orderly e) (hlo : heapStart ≤ e) (halign : e % 4096 = 0)
    (hp : s.entry s.currentPd (pdIndex e) % 2 ≠ 1) : ptIndex e = 0 := by
  have hlayout := heap_layout
  by_contra hne
  rw [ptIndex] at hne
  have hsame : pdIndex (e - 4096) = pdIndex e := by
    simp only [pdIndex]
    omega
  exact hp (hsame ▸ ho.tables (e - 4096) (by omega) (by omega))

/-- What a new page leaves for the next one. -/
structure Grew (s s' : Paging D) (U : Finset ℕ) (e₀ e : ℕ) : Prop where
  currentPd : s'.currentPd = s.currentPd
  kept : s'.Kept U
  free : s'.pmm.freeSet ⊆ s.pmm.freeSet
  spares : s'.Spares U e₀ e
  mode : s'.Orderly e ∨ s'.Spent e₀ e

theorem Orderly.extend (ho : s.Orderly e) (hcur : s'.currentPd = s.currentPd)
    (hother : ∀ i < 1024, i ≠ pdIndex e → s'.entry s.currentPd i = s.entry s.currentPd i)
    (hp : s'.entry s.currentPd (pdIndex e) % 2 = 1)
    (hne : s'.entry s.currentPd (pdIndex e) / 4096 * 4096 ≠ s.currentPd) (hend : e < heapEnd)
    (halign : e % 4096 = 0) : s'.Orderly (e + 4096) := by
  have hlayout := heap_layout
  refine ⟨fun i hi hpi => ?_, fun v hv hve => ?_⟩
  · rw [hcur] at hpi ⊢
    rcases eq_or_ne i (pdIndex e) with rfl | hi'
    · exact hne
    · rw [hother i (by omega) hi'] at hpi ⊢
      exact ho.apart i hi hpi
  · rw [hcur]
    by_cases hsame : pdIndex v = pdIndex e
    · exact hsame ▸ hp
    · have hold : v < e := by
        by_contra hnew
        exact hsame ((same_page_iff v e).mpr (by omega)).1
      rw [hother _ (by rw [pdIndex]; omega) hsame]
      exact ho.tables v hv hold

theorem Grew.of_wiped (hk : s.Kept U) (hcur : s'.currentPd = s.currentPd) (hpmm : s'.pmm.Inv)
    (hhand : s'.evictPdIdx < 768) (hnone : s'.pmm.freeSet = ∅) (hle : e₀ ≤ e)
    (halign : e % 4096 = 0) (hzero : ptIndex e = 0)
    (hlast : s'.entry s.currentPd (pdIndex e) % 2 = 1)
    (htable : s'.entry s.currentPd (pdIndex e) / 4096 * 4096 = s.currentPd)
    (hword : s'.entry s.currentPd 0 / 4096 ∉ U)
    (huser : ∀ i < 768, i ≠ 0 → s'.entry s.currentPd i % 2 ≠ 1)
    (hbefore : ∀ v, e₀ ≤ v → v < e → s'.entry s.currentPd (pdIndex v) % 2 ≠ 1) :
    s.Grew s' U e₀ (e + 4096) := by
  refine ⟨hcur, ⟨hpmm, hhand, hcur ▸ hk.aligned, hcur ▸ hk.dir, fun x _ => ?_⟩, ?_,
    fun v hv hve hp => ?_, .inr ⟨hnone, hcur ▸ huser, by omega, ?_, ?_, ?_, fun v hv hve => ?_⟩⟩
  · exact hnone ▸ notMem_empty x
  · exact hnone ▸ empty_subset _
  · rw [hcur] at hp ⊢
    rcases lt_or_ge v e with hold | hnew
    · rw [pte_of_absent (hbefore v hv hold)] at hp
      cases hp
    · obtain ⟨hpd, hpt⟩ := (same_page_iff v e).mpr (by omega)
      rwa [hpd, hpt, hzero, pte_of_present hlast, htable]
  · rwa [hcur, Nat.add_sub_cancel]
  · rwa [hcur, Nat.add_sub_cancel]
  · rwa [Nat.add_sub_cancel]
  · rw [hcur]
    exact hbefore v hv (by omega)

/-- A page whose table is there. -/
theorem Orderly.grow_present (hk : s.Kept U) (ho : s.Orderly e) (hsp : s.Spares U e₀ e)
    (hend : e < heapEnd) (halign : e % 4096 = 0) {pmm : Pmm} (hpmm : pmm.Inv)
    (hf : f ∈ s.pmm.freeSet) (hfree : pmm.freeSet = s.pmm.freeSet.erase f) (hlt : f < 1048576)
    (hp : s.entry s.currentPd (pdIndex e) % 2 = 1) :
    s.Grew ({ s with pmm := pmm }.setEntry (s.entry s.currentPd (pdIndex e) / 4096 * 4096)
      (ptIndex e) (newWord f)) U e₀ (e + 4096) := by
  have hlayout := heap_layout
  have hpd : pdIndex e < 1023 := by
    rw [pdIndex]
    omega
  have hne := (ho.apart _ hpd hp).symm
  have hsub : pmm.freeSet ⊆ s.pmm.freeSet := hfree ▸ erase_subset _ _
  have hdir : ∀ i < 1024, ({ s with pmm := pmm }.setEntry
      (s.entry s.currentPd (pdIndex e) / 4096 * 4096) (ptIndex e)
      (newWord f)).entry s.currentPd i =
        s.entry s.currentPd i := fun i hi =>
    entry_setEntry_of_ne { s with pmm := pmm } _ (Nat.mul_mod_left _ _) hk.aligned (ptIndex_lt e) hi
      (.inl hne)
  refine ⟨rfl, ⟨hpmm, hk.hand, hk.aligned, hk.dir, fun g hg hmem => hk.used g hg (hsub hmem)⟩, hsub,
    Spares.extend hsp hp rfl hne hk.aligned hlt (fun hU => hk.used f hU hf) hend halign,
    .inl (ho.extend rfl (fun i hi _ => hdir i hi) ?_ ?_ hend halign)⟩
  · rwa [hdir _ (by omega)]
  · rw [hdir _ (by omega)]
    exact hne.symm

theorem Orderly.grow_table (hk : s.Kept U) (ho : s.Orderly e) (hsp : s.Spares U e₀ e)
    (h0 : heapStart ≤ e₀) (hend : e < heapEnd) (halign : e % 4096 = 0)
    (hmem : s0.mem = s.mem) (hcur : s0.currentPd = s.currentPd)
    (hfree : s0.pmm.freeSet = s.pmm.freeSet.erase f) (hf : f ∈ s.pmm.freeSet) (hlt : f < 1048576)
    (hp : s.entry s.currentPd (pdIndex e) % 2 ≠ 1) (ha : s0.Allotted s₁ g)
    (hne : g * 4096 ≠ s.currentPd) :
    s.Grew ((s₁.setEntry s.currentPd (pdIndex e) (g * 4096 + 3)).setEntry (g * 4096) (ptIndex e)
      (newWord f)) U e₀ (e + 4096) := by
  have hlayout := heap_layout
  have hg := ha.lt
  have hcur1 : s₁.currentPd = s.currentPd := ha.currentPd.trans hcur
  have hpd : pdIndex e < 1023 := by
    rw [pdIndex]
    omega
  have hdiv := tableWord_frame (Nat.mul_mod_left g 4096)
  have hsub : s₁.pmm.freeSet ⊆ s.pmm.freeSet :=
    ha.free.trans (hfree ▸ erase_subset _ _)
  have hself : (s₁.setEntry s.currentPd (pdIndex e) (g * 4096 + 3)).entry s.currentPd (pdIndex e) =
      g * 4096 + 3 := by
    rw [entry_setEntry_self, u32_of_lt (by omega)]
  have hother : ∀ i < 1024, i ≠ pdIndex e →
      (s₁.setEntry s.currentPd (pdIndex e) (g * 4096 + 3)).entry s.currentPd i =
        s.entry s.currentPd i := by
    intro i hi hne'
    rw [entry_setEntry_of_ne s₁ _ hk.aligned hk.aligned (by omega) hi (.inr hne'), ← hcur,
      ha.directory (hcur ▸ hne) i hi, entry_congr hmem]
  -- the pages mapped before have tables of their own
  have hpd_ne : ∀ v, heapStart ≤ v → v < e → pdIndex v ≠ pdIndex e := fun v hv hve heq =>
    hp (heq ▸ ho.tables v hv hve)
  have hold : ∀ v, e₀ ≤ v → v < e →
      (s₁.setEntry s.currentPd (pdIndex e) (g * 4096 + 3)).pte s.currentPd (pdIndex v)
      (ptIndex v) % 2
        = 1 →
      (s₁.setEntry s.currentPd (pdIndex e) (g * 4096 + 3)).pte s.currentPd (pdIndex v) (ptIndex v) /
        4096 ∉ U := by
    intro v hv hve hpv
    have hpdv : pdIndex v < 1023 := by
      rw [pdIndex]
      omega
    have hdir := hother (pdIndex v) (by omega) (hpd_ne v (h0.trans hv) hve)
    have hthere := ho.tables v (h0.trans hv) hve
    -- the table of `v` has not been written, but may have lost words
    have hword : (s₁.setEntry s.currentPd (pdIndex e) (g * 4096 + 3)).pte s.currentPd (pdIndex v)
        (ptIndex v) = s₁.entry (s.entry s.currentPd (pdIndex v) / 4096 * 4096) (ptIndex v) := by
      rw [pte_of_present (hdir ▸ hthere), hdir]
      exact entry_setEntry_of_ne s₁ _ hk.aligned (Nat.mul_mod_left _ _) (by omega) (ptIndex_lt v)
        (.inl (ho.apart _ hpdv hthere))
    rw [hword] at hpv ⊢
    obtain ⟨hpv', hsame⟩ := ha.faded _ (Nat.mul_mod_left _ _) _ (ptIndex_lt v) hpv
    rw [entry_congr hmem, ← pte_of_present hthere] at hpv'
    rw [hsame, entry_congr hmem, ← pte_of_present hthere]
    exact hsp v hv hve hpv'
  have hdir : ∀ i < 1024, ((s₁.setEntry s.currentPd (pdIndex e) (g * 4096 + 3)).setEntry (g * 4096)
      (ptIndex e) (newWord f)).entry s.currentPd i =
        (s₁.setEntry s.currentPd (pdIndex e) (g * 4096 + 3)).entry s.currentPd i := fun i hi =>
    entry_setEntry_of_ne _ _ (Nat.mul_mod_left _ _) hk.aligned (ptIndex_lt e) hi
      (.inl hne.symm)
  refine ⟨hcur1, ⟨ha.pmm, ha.hand, hcur1 ▸ hk.aligned, hcur1 ▸ hk.dir,
    fun x hx hmem' => hk.used x hx (hsub hmem')⟩, hsub, ?_,
    .inl (ho.extend hcur1 (fun i hi hi' => (hdir i hi).trans (hother i hi hi')) ?_ ?_ hend halign)⟩
  · refine Spares.extend ?_ ?_ ?_ ?_ ?_ hlt
      (fun hU => hk.used f hU hf) hend halign
    · change ∀ v, e₀ ≤ v → v < e → pte _ s₁.currentPd _ _ % 2 = 1 →
        pte _ s₁.currentPd _ _ / 4096 ∉ U
      rw [hcur1]
      exact hold
    · change entry _ s₁.currentPd _ % 2 = 1
      rw [hcur1, hself]
      omega
    · change entry _ s₁.currentPd _ / 4096 * 4096 = _
      rw [hcur1, hself, hdiv]
    · exact hcur1 ▸ hne.symm
    · exact hcur1 ▸ hk.aligned
  · rw [hdir _ (by omega), hself]
    omega
  · rw [hdir _ (by omega), hself, hdiv]
    exact hne

theorem Orderly.grow_wiped (hk : s.Kept U) (ho : s.Orderly e) (h0 : heapStart ≤ e₀) (hle : e₀ ≤ e)
    (hend : e < heapEnd) (halign : e % 4096 = 0)
    (hcur : s0.currentPd = s.currentPd) (hfree : s0.pmm.freeSet = s.pmm.freeSet.erase f)
    (hf : f ∈ s.pmm.freeSet) (hlt : f < 1048576)
    (hp : s.entry s.currentPd (pdIndex e) % 2 ≠ 1) (ha : s0.Allotted s₁ g)
    (heq : g * 4096 = s.currentPd) :
    s.Grew ((s₁.setEntry s.currentPd (pdIndex e) (g * 4096 + 3)).setEntry (g * 4096) (ptIndex e)
      (newWord f)) U e₀ (e + 4096) := by
  have hlayout := heap_layout
  have hg := ha.lt
  have hcur1 : s₁.currentPd = s.currentPd := ha.currentPd.trans hcur
  have hmod : s.currentPd % 4096 = 0 := hk.aligned
  have hpresent : (s.currentPd + 3) % 2 = 1 := by omega
  have hdiv := tableWord_frame hmod
  have hzero := ho.ptIndex_eq_zero (h0.trans hle) halign hp
  obtain ⟨-, hframe⟩ := newWord_facts hlt
  have hpd : pdIndex e < 1024 ∧ 768 ≤ pdIndex e := by
    rw [pdIndex]
    omega
  -- no frame was free, or the directory would not have been taken
  have hnone : s0.pmm.freeSet = ∅ := by
    by_contra hne
    have hmem := ha.fresh (nonempty_iff_ne_empty.mpr hne)
    rw [hfree] at hmem
    refine hk.used g ?_ (mem_of_mem_erase hmem)
    rw [show g = s.currentPd / 4096 by omega]
    exact hk.dir
  have hnone1 : s₁.pmm.freeSet = ∅ := subset_empty.mp (hnone ▸ ha.free)
  rw [heq, hzero]
  -- the words of the directory
  have hlast : ((s₁.setEntry s.currentPd (pdIndex e) (s.currentPd + 3)).setEntry s.currentPd 0
      (newWord f)).entry s.currentPd (pdIndex e) =
        s.currentPd + 3 := by
    rw [entry_setEntry_of_ne _ _ hk.aligned hk.aligned (by decide) hpd.1 (.inr (by omega)),
      entry_setEntry_self, u32_of_lt (by omega)]
  have hother : ∀ i < 1024, i ≠ pdIndex e → i ≠ 0 →
      ((s₁.setEntry s.currentPd (pdIndex e) (s.currentPd + 3)).setEntry s.currentPd 0
        (newWord f)).entry s.currentPd i = 0 := by
    intro i hi hne hne0
    rw [entry_setEntry_of_ne _ _ hk.aligned hk.aligned (by decide) hi (.inr hne0),
      entry_setEntry_of_ne _ _ hk.aligned hk.aligned hpd.1 hi (.inr hne), ← heq]
    exact ha.cleared i hi
  have hpd_ne : ∀ v, e₀ ≤ v → v < e → pdIndex v ≠ pdIndex e ∧ pdIndex v ≠ 0 ∧ pdIndex v < 1024 := by
    intro v hv hve
    refine ⟨fun hsame => hp (hsame ▸ ho.tables v (h0.trans hv) hve), ?_⟩
    rw [pdIndex]
    omega
  have hbefore : ∀ v, e₀ ≤ v → v < e →
      ((s₁.setEntry s.currentPd (pdIndex e) (s.currentPd + 3)).setEntry s.currentPd 0
        (newWord f)).entry s.currentPd (pdIndex v) % 2 ≠ 1 := by
    intro v hv hve
    obtain ⟨h1, h2, h3⟩ := hpd_ne v hv hve
    rw [hother _ h3 h1 h2]
    decide
  refine .of_wiped hk hcur1 ha.pmm ha.hand hnone1 hle halign hzero ?_ ?_ ?_
    (fun i hi hne => ?_) hbefore
  · rw [hlast]
    exact hpresent
  · rw [hlast]
    exact hdiv
  · rw [entry_setEntry_self, hframe]
    exact fun hU => hk.used f hU hf
  · rw [hother i (by omega) (by omega) hne]
    decide

end

/-- **A new page of the heap**, in the usual state. -/
theorem Orderly.growPage (hk : s.Kept U) (ho : s.Orderly e) (hsp : s.Spares U e₀ e)
    (h0 : heapStart ≤ e₀) (hle : e₀ ≤ e) (hend : e < heapEnd) (halign : e % 4096 = 0)
    (h : s.growPage e = .ok s') : s.Grew s' U e₀ (e + 4096) := by
  obtain ⟨f, hf, pmm, hpmm, hfree, hlt, hmap⟩ := growPage_cases hk.pmm h
  rcases pagingMap_cases hmap with ⟨hp, rfl⟩ | ⟨hp, s₁, a, halloc, rfl⟩
  · exact ho.grow_present hk hsp hend halign hpmm hf hfree hlt hp
  obtain ⟨g, rfl, ha⟩ :=
    allocFrameZero_allotted (s := { s with pmm := pmm }) hpmm hk.hand hk.aligned
    (fun i hi => ho.apart i (by omega)) halloc
  have hg := ha.lt
  have hword : g * 4096 ||| 3 = g * 4096 + 3 := or_offset g (by decide)
  have hcur : s₁.currentPd = s.currentPd := ha.currentPd
  rw [hword, u32_of_lt (by omega), frameOf_eq (by omega), hcur,
    tableWord_frame (Nat.mul_mod_left g 4096)]
  by_cases hne : g * 4096 = s.currentPd
  · refine ho.grow_wiped hk h0 hle hend halign ?_ ?_ hf hlt hp ha hne
    · rfl
    · exact hfree
  · refine ho.grow_table hk hsp h0 hend halign ?_ ?_ ?_ hf hlt hp ha hne
    · rfl
    · rfl
    · exact hfree

theorem Wiped.growPage (hk : s.Kept U) (hw : s.Wiped e) (hlo : heapStart ≤ e) (hend : e < heapEnd)
    (halign : e % 4096 = 0) (h : s.growPage e = .ok s') : s.Grew s' U e (e + 4096) := by
  have hlayout := heap_layout
  have hpd : pdIndex e < 1024 ∧ 768 ≤ pdIndex e := by
    rw [pdIndex]
    omega
  obtain ⟨f, hf, pmm, hpmm, hfree, hlt, hmap⟩ := growPage_cases hk.pmm h
  obtain ⟨-, hframe⟩ := newWord_facts hlt
  have hnone : pmm.freeSet = ∅ := by
    have hcard := card_erase_of_mem hf
    have hone := hw.card
    rw [hfree, ← card_eq_zero]
    omega
  rcases pagingMap_cases hmap with ⟨hp, rfl⟩ | ⟨hp, s₁, a, halloc, -⟩
  · obtain ⟨htable, hzero⟩ := hw.last hp
    have hother : ∀ i < 1024, i ≠ 0 →
        ({ s with pmm := pmm }.setEntry s.currentPd 0 (newWord f)).entry
          s.currentPd i = s.entry s.currentPd i := fun i hi hne =>
      entry_setEntry_of_ne { s with pmm := pmm } _ hk.aligned hk.aligned (by decide) hi (.inr hne)
    change s.Grew ({ s with pmm := pmm }.setEntry
      (s.entry s.currentPd (pdIndex e) / 4096 * 4096) _ _)
      U e (e + 4096)
    rw [htable, hzero]
    refine .of_wiped hk rfl hpmm hk.hand hnone le_rfl halign hzero ?_ ?_ ?_
      (fun i hi hne => ?_) fun v hv hve => absurd hv (by omega)
    · rwa [hother _ hpd.1 (by omega)]
    · rwa [hother _ hpd.1 (by omega)]
    · rw [entry_setEntry_self, hframe]
      exact fun hU => hk.used f hU hf
    · rw [hother i (by omega) hne]
      exact hw.user i hi
  · -- there is nothing left to evict
    have hevict := evictLoop_empty (s := { s with pmm := pmm }) (768 * 1024 * 2) hk.hand hw.user
    simp only [allocFrameZero, pmmAllocFrame_of_empty hpmm hnone, if_true, pagingEvictPage,
      hevict, Bool.false_eq_true, if_false] at halloc
    cases halloc

/-- **The pages of one call**: the frames of `U` stay as they are, and none of the new pages shows
one of them. -/
theorem growUp_grew (hk : s.Kept U) (hmode : s.Orderly e₀ ∨ s.Wiped e₀)
    (h0 : heapStart ≤ e₀) (hend : e₀ + k * 4096 ≤ heapEnd) (halign : e₀ % 4096 = 0)
    (h : growUp k s e₀ = .ok s') :
    s.Grew s' U e₀ (e₀ + k * 4096) ∨ k = 0 ∧ s' = s ∧ s.Wiped e₀ := by
  have hloop := growUp_induct (I := fun j t e => (s.Grew t U e₀ e ∨ e = e₀ ∧ t = s ∧ s.Wiped e₀) ∧
    e + j * 4096 = e₀ + k * 4096 ∧ e % 4096 = 0 ∧ e₀ ≤ e) ?_ ?_ h
  · rcases hloop.1 with hgrew | ⟨hzero, hsame⟩
    · exact .inl hgrew
    · exact .inr ⟨by omega, hsame⟩
  · refine ⟨?_, rfl, halign, le_rfl⟩
    rcases hmode with ho | hw
    · exact .inl ⟨rfl, hk, Finset.Subset.refl _, fun v hv hve => absurd hve (by omega), .inl ho⟩
    · exact .inr ⟨rfl, rfl, hw⟩
  · rintro j t e t' - ⟨hstate, heq, hmod, hle⟩ hgrow
    refine ⟨.inl ?_, by omega, by omega, by omega⟩
    have hlt : e < heapEnd := by omega
    rcases hstate with hgrew | ⟨rfl, rfl, hw⟩
    · rcases hgrew.mode with ho | hsp
      · have hnext := ho.growPage hgrew.kept hgrew.spares h0 hle hlt hmod hgrow
        exact ⟨hnext.currentPd.trans hgrew.currentPd, hnext.kept, hnext.free.trans hgrew.free,
          hnext.spares, hnext.mode⟩
      · -- no frame is left
        obtain ⟨f, hf, -⟩ := growPage_cases hgrew.kept.pmm hgrow
        rw [hsp.free] at hf
        exact absurd hf (notMem_empty f)
    · exact hw.growPage hk h0 hlt hmod hgrow

/-! ## Giving pages back -/

omit [Disk D]

theorem shrinkPage_of_absent (hp : s.entry s.currentPd (pdIndex v) % 2 ≠ 1) :
    s.shrinkPage v = s := by
  simp only [shrinkPage, pagingVirtToPhys_eq, pte_of_absent hp, pagingUnmap, findPageTable_eq,
    if_neg hp]
  simp

theorem shrinkPage_of_present (hv : v % 4096 = 0) (hpmm : s.pmm.Inv)
    (hp : s.entry s.currentPd (pdIndex v) % 2 = 1) : ∃ pmm : Pmm,
      s.shrinkPage v = { s.setEntry (s.entry s.currentPd (pdIndex v) / 4096 * 4096)
        (ptIndex v) 0 with
        pmm := pmm } ∧ pmm.Inv ∧ s.pmm.freeSet ⊆ pmm.freeSet ∧
      ∀ f ∈ pmm.freeSet, f ∈ s.pmm.freeSet ∨ s.pte s.currentPd (pdIndex v) (ptIndex v) % 2 = 1 ∧
        f = s.pte s.currentPd (pdIndex v) (ptIndex v) / 4096 := by
  have hunmap : s.pagingUnmap v =
      s.setEntry (s.entry s.currentPd (pdIndex v) / 4096 * 4096) (ptIndex v) 0 := by
    simp only [pagingUnmap, findPageTable_eq, if_pos hp]
  have hphys : s.pagingVirtToPhys v = if s.pte s.currentPd (pdIndex v) (ptIndex v) % 2 = 1 then
      s.pte s.currentPd (pdIndex v) (ptIndex v) / 4096 * 4096 else 0 := by
    rw [pagingVirtToPhys_eq, hv, add_zero]
  rw [shrinkPage, hunmap, hphys]
  by_cases hpage : s.pte s.currentPd (pdIndex v) (ptIndex v) % 2 = 1
  · rw [if_pos hpage]
    split_ifs
    · refine ⟨_, rfl, pmmFreeFrame_inv hpmm _, freeSet_subset_pmmFreeFrame hpmm.base_pos _,
        fun f hf => ?_⟩
      rcases mem_insert.mp (freeSet_pmmFreeFrame_subset hpmm.base_pos _ hf) with rfl | hold
      · exact .inr ⟨hpage, frame_div _⟩
      · exact .inl hold
    · exact ⟨s.pmm, rfl, hpmm, Finset.Subset.refl _, fun f hf => .inl hf⟩
  · rw [if_neg hpage, if_neg (not_not.mpr rfl)]
    exact ⟨s.pmm, rfl, hpmm, Finset.Subset.refl _, fun f hf => .inl hf⟩

/-- What giving back a page leaves. -/
structure Gave (s s' : Paging D) (U : Finset ℕ) : Prop where
  currentPd : s'.currentPd = s.currentPd
  kept : s'.Kept U
  free : s.pmm.freeSet ⊆ s'.pmm.freeSet

/-- A page in the usual state. -/
theorem Orderly.shrinkPage (hk : s.Kept U) (ho : s.Orderly (v + 4096))
    (hsp : s.Spares U e₀ (v + 4096)) (h0 : heapStart ≤ e₀) (hv : e₀ ≤ v) (hend : v < heapEnd)
    (halign : v % 4096 = 0) :
    s.Gave (s.shrinkPage v) U ∧ (s.shrinkPage v).Orderly v ∧ (s.shrinkPage v).Spares U e₀ v := by
  have hlayout := heap_layout
  have hp := ho.tables v (h0.trans hv) (by omega)
  have hpd : pdIndex v < 1023 := by
    rw [pdIndex]
    omega
  have hne := (ho.apart _ hpd hp).symm
  obtain ⟨pmm, hres, hpmm, hsub, hnew⟩ := shrinkPage_of_present halign hk.pmm hp
  have hdir : ∀ i < 1024, (s.setEntry (s.entry s.currentPd (pdIndex v) / 4096 * 4096) (ptIndex v)
      0).entry s.currentPd i = s.entry s.currentPd i := fun i hi =>
    entry_setEntry_of_ne s 0 (Nat.mul_mod_left _ _) hk.aligned (ptIndex_lt v) hi (.inl hne)
  rw [hres]
  refine ⟨⟨rfl, ⟨hpmm, hk.hand, hk.aligned, hk.dir, fun f hf hfree => ?_⟩, hsub⟩,
    ⟨fun i hi hpi => ?_, fun w hw hwv => ?_⟩, fun w hw hwv hpw => ?_⟩
  · rcases hnew f hfree with hold | ⟨hpage, rfl⟩
    · exact hk.used f hf hold
    · exact hsp v hv (by omega) hpage hf
  · have hsame := hdir i (by omega)
    exact hsame ▸ ho.apart i hi (hsame ▸ hpi)
  · have hsame := hdir (pdIndex w) (by rw [pdIndex]; omega)
    exact hsame ▸ ho.tables w hw (by omega)
  · change (s.setEntry _ _ _).pte s.currentPd _ _ % 2 = 1 at hpw
    change (s.setEntry _ _ _).pte s.currentPd _ _ / 4096 ∉ U
    rcases pte_setEntry_or (i := pdIndex w) hk.aligned (Nat.mul_mod_left _ _) hne
      (by rw [pdIndex]; omega) (ptIndex_lt v) (ptIndex_lt w) with heq | heq <;> rw [heq] at hpw ⊢
    · cases hpw
    · exact hsp w hw (by omega) hpw

/-- The page in the cleared directory. -/
theorem Spent.shrinkPage (hk : s.Kept U) (hs : s.Spent e₀ (v + 4096))
    (hsp : s.Spares U e₀ (v + 4096)) (h0 : heapStart ≤ e₀) (hend : v < heapEnd)
    (halign : v % 4096 = 0) : s.Gave (s.shrinkPage v) U ∧ (s.shrinkPage v).Wiped e₀ ∧
      ∀ w, e₀ ≤ w → w < v →
        (s.shrinkPage v).entry (s.shrinkPage v).currentPd (pdIndex w) % 2 ≠ 1 := by
  have hlayout := heap_layout
  have hv : e₀ ≤ v := Nat.le_of_add_le_add_right hs.first
  have hlast := hs.last
  have htable := hs.table
  have hzero := hs.index
  rw [Nat.add_sub_cancel] at hlast htable hzero
  obtain ⟨pmm, hres, hpmm, hsub, hnew⟩ := shrinkPage_of_present halign hk.pmm hlast
  rw [htable, hzero] at hres
  rw [hzero] at hnew
  have hother : ∀ i < 1024, i ≠ 0 →
      (s.setEntry s.currentPd 0 0).entry s.currentPd i = s.entry s.currentPd i := fun i hi hne =>
    entry_setEntry_of_ne s 0 hk.aligned hk.aligned (by decide) hi (.inr hne)
  have hpd : ∀ w, e₀ ≤ w → w ≤ v → pdIndex w < 1024 ∧ pdIndex w ≠ 0 := by
    intro w hw hwv
    rw [pdIndex]
    omega
  have hbefore : ∀ w, e₀ ≤ w → w < v →
      (s.setEntry s.currentPd 0 0).entry s.currentPd (pdIndex w) % 2 ≠ 1 := by
    intro w hw hwv
    obtain ⟨hlt, hne⟩ := hpd w hw hwv.le
    rw [hother _ hlt hne]
    exact hs.before w hw (by omega)
  rw [hres]
  refine ⟨⟨rfl, ⟨hpmm, hk.hand, hk.aligned, hk.dir, fun f hf hfree => ?_⟩, hsub⟩,
    ⟨?_, fun i hi => ?_, ?_⟩,
    hbefore⟩
  · rcases hnew f hfree with hold | ⟨hpage, rfl⟩
    · exact hk.used f hf hold
    · rw [← hzero] at hpage hf
      exact hsp v hv (by omega) hpage hf
  · -- only the frame of this page has come free
    refine card_le_one.mpr fun a ha b hb => ?_
    rcases hnew a ha with hold | ⟨-, rfl⟩
    · rw [hs.free] at hold
      exact absurd hold (notMem_empty a)
    rcases hnew b hb with hold | ⟨-, rfl⟩
    · rw [hs.free] at hold
      exact absurd hold (notMem_empty b)
    · rfl
  · change (s.setEntry s.currentPd 0 0).entry s.currentPd i % 2 ≠ 1
    rcases eq_or_ne i 0 with rfl | hne
    · rw [entry_setEntry_self]
      decide
    · rw [hother i (by omega) hne]
      exact hs.user i hi hne
  · change (s.setEntry s.currentPd 0 0).entry s.currentPd (pdIndex e₀) % 2 = 1 →
      (s.setEntry s.currentPd 0 0).entry s.currentPd (pdIndex e₀) / 4096 * 4096 = s.currentPd ∧ _
    intro hp
    rcases lt_or_eq_of_le hv with hlt | rfl
    · exact absurd hp (hbefore e₀ le_rfl hlt)
    · obtain ⟨hlt, hne⟩ := hpd e₀ le_rfl le_rfl
      rw [hother _ hlt hne]
      exact ⟨htable, hzero⟩

/-- Pages without tables are passed over. -/
theorem shrinkDown_of_absent
    (h : ∀ w, e₀ ≤ w → w < e₀ + k * 4096 → s.entry s.currentPd (pdIndex w) % 2 ≠ 1) :
    shrinkDown k s (e₀ + k * 4096) = s := by
  induction k with
  | zero => rfl
  | succ k ih =>
    have hless : e₀ + k * 4096 < e₀ + (k + 1) * 4096 := by omega
    rw [shrinkDown, show e₀ + (k + 1) * 4096 - 4096 = e₀ + k * 4096 by omega,
      shrinkPage_of_absent (h _ (Nat.le_add_right _ _) hless)]
    exact ih fun w hw hlt => h w hw (hlt.trans hless)

/-- **Giving the pages of a call back**: what comes free was not among the frames of `U`. -/
theorem Grew.shrinkDown (hg : s.Grew s' U e₀ (e₀ + k * 4096)) (h0 : heapStart ≤ e₀)
    (hend : e₀ + k * 4096 ≤ heapEnd) (halign : e₀ % 4096 = 0) :
    s'.Gave (shrinkDown k s' (e₀ + k * 4096)) U ∧
      ((shrinkDown k s' (e₀ + k * 4096)).Orderly e₀ ∨
      (shrinkDown k s' (e₀ + k * 4096)).Wiped e₀) := by
  rcases hg.mode with ho | hs
  · have hloop := shrinkDown_induct (I := fun j t e => s'.Gave t U ∧ t.Orderly e ∧ t.Spares U e₀ e ∧
      e = e₀ + j * 4096) ⟨⟨rfl, hg.kept, Finset.Subset.refl _⟩, ho, hg.spares, rfl⟩ ?_
    · rw [Nat.add_sub_cancel] at hloop
      exact ⟨hloop.1, .inl hloop.2.1⟩
    · rintro j t e hj ⟨hgave, ho, hsp, rfl⟩
      rw [show e₀ + (j + 1) * 4096 = e₀ + j * 4096 + 4096 by omega] at ho hsp ⊢
      rw [Nat.add_sub_cancel]
      obtain ⟨hnext, ho', hsp'⟩ := ho.shrinkPage hgave.kept hsp h0 (Nat.le_add_right _ _) (by omega)
        (by omega)
      exact ⟨⟨hnext.currentPd.trans hgave.currentPd, hnext.kept, hgave.free.trans hnext.free⟩, ho',
        hsp', rfl⟩
  · cases k with
    | zero =>
      have hfirst := hs.first
      omega
    | succ k =>
      have hlt : e₀ + k * 4096 < heapEnd := by omega
      have hmod : (e₀ + k * 4096) % 4096 = 0 := by omega
      have hsp := hg.spares
      rw [show e₀ + (k + 1) * 4096 = e₀ + k * 4096 + 4096 by omega] at hs hsp ⊢
      obtain ⟨hgave, hw, habs⟩ := hs.shrinkPage hg.kept hsp h0 hlt hmod
      rw [shrinkDown, Nat.add_sub_cancel, shrinkDown_of_absent habs]
      exact ⟨hgave, .inr hw⟩

end Paging

end PenOS
