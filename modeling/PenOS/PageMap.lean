import PenOS.PageTables

/-!
# One directory is a finite map

From the empty directory on, the word of a page is the entry of the last `paging_map` there,
unless a `paging_unmap` came later: `lastMap` says so, `map_run_spec` is the simulation.
-/

namespace PenOS

open Finset Function List

/-- The calls that change translations. -/
inductive MapOp : Type where
  /-- `paging_map(virt, phys, flags)` -/
  | map (virt phys flags : ℕ) : MapOp
  /-- `paging_unmap(virt)` -/
  | unmap (virt : ℕ) : MapOp

/-- The address a call is about. -/
def MapOp.virt : MapOp → ℕ
  | .map virt _ _ => virt
  | .unmap virt => virt

/-- What the calls (newest first) have made of a page: address and flags of the last `paging_map`,
if no `paging_unmap` came after. -/
def lastMap : List MapOp → ℕ → Option (ℕ × ℕ)
  | [], _ => none
  | .map virt phys flags :: ops, page =>
    if virt / 4096 = page then some (phys, flags) else lastMap ops page
  | .unmap virt :: ops, page => if virt / 4096 = page then none else lastMap ops page

theorem lastMap_cons_of_ne {op : MapOp} {ops : List MapOp} {page : ℕ} (h : op.virt / 4096 ≠ page) :
    lastMap (op :: ops) page = lastMap ops page := by
  cases op with
  | map virt phys flags => exact if_neg h
  | unmap virt => exact if_neg h

/-- The page-table word the specification gives a page. -/
def specWord (ops : List MapOp) (page : ℕ) : ℕ :=
  match lastMap ops page with
  | some (phys, flags) => pageEntry phys flags
  | none => 0

theorem same_page_iff (v w : ℕ) :
    pdIndex v = pdIndex w ∧ ptIndex v = ptIndex w ↔ v / 4096 = w / 4096 := by
  unfold pdIndex ptIndex
  omega

namespace Paging

variable {D : Type} {s : Paging D} {live : List ℕ} {own : ℕ → Role}

/-! ## `paging_unmap` -/

/-- `paging_unmap` touches memory only. -/
theorem pagingUnmap_pmm (s : Paging D) (virt : ℕ) : (s.pagingUnmap virt).pmm = s.pmm := by
  unfold pagingUnmap
  rcases s.findPageTable virt with _ | table <;> rfl

theorem pagingUnmap_currentPd (s : Paging D) (virt : ℕ) :
    (s.pagingUnmap virt).currentPd = s.currentPd := by
  unfold pagingUnmap
  rcases s.findPageTable virt with _ | table <;> rfl

theorem pagingUnmap_of_absent {virt : ℕ} (h : s.entry s.currentPd (pdIndex virt) % 2 ≠ 1) :
    s.pagingUnmap virt = s := by
  unfold pagingUnmap
  rw [findPageTable_eq, if_neg h]

theorem pagingUnmap_of_present {virt : ℕ} (h : s.entry s.currentPd (pdIndex virt) % 2 = 1) :
    s.pagingUnmap virt =
      s.setEntry (s.entry s.currentPd (pdIndex virt) / 4096 * 4096) (ptIndex virt) 0 := by
  unfold pagingUnmap
  rw [findPageTable_eq, if_pos h]

/-- **`paging_unmap`**: the roles stay and no directory word changes. -/
theorem TableInv.pagingUnmap (hs : s.TableInv live own) (hcur : s.currentPd ∈ live) {virt : ℕ}
    (hv : pdIndex virt < 1023) : (s.pagingUnmap virt).TableInv live own ∧
      ∀ d ∈ live, ∀ i < 1024, (s.pagingUnmap virt).entry d i = s.entry d i := by
  by_cases hp : s.entry s.currentPd (pdIndex virt) % 2 = 1
  · rw [pagingUnmap_of_present hp]
    exact ⟨hs.setPte hcur hv (ptIndex_lt virt) hp, fun d hd i hi =>
      hs.entry_setPte hcur hv (ptIndex_lt virt) hp hd hi⟩
  · rw [pagingUnmap_of_absent hp]
    exact ⟨hs, fun _ _ _ _ => rfl⟩

theorem TableInv.pte_pagingUnmap (hs : s.TableInv live own) (hcur : s.currentPd ∈ live) {virt : ℕ}
    (hv : pdIndex virt < 1023) {d i j : ℕ} (hd : d ∈ live) (hi : i < 1023) (hj : j < 1024) :
    (s.pagingUnmap virt).pte d i j =
      if i = pdIndex virt ∧ j = ptIndex virt ∧ s.entry s.currentPd i % 2 = 1 ∧
          s.entry d i % 2 = 1 ∧ s.entry d i / 4096 = s.entry s.currentPd i / 4096 then 0
      else s.pte d i j := by
  by_cases hp : s.entry s.currentPd (pdIndex virt) % 2 = 1
  · rw [pagingUnmap_of_present hp]
    by_cases hij : i = pdIndex virt ∧ j = ptIndex virt
    · obtain ⟨rfl, rfl⟩ := hij
      rw [hs.pte_setPte hcur hv (ptIndex_lt virt) hp hd hv (ptIndex_lt virt)]
      simp only [true_and, hp]
      rfl
    · rw [hs.pte_setPte_of_ne hcur hv (ptIndex_lt virt) hp hd hi hj (by omega),
        if_neg (by tauto)]
  · rw [pagingUnmap_of_absent hp, if_neg]
    rintro ⟨rfl, -, h, -⟩
    exact hp h

/-! ## The empty directory -/

variable [Disk D]

theorem initDirectory_spec (hs : s.pmm.Inv) (hne : s.pmm.freeSet.Nonempty) :
    ∃ s' own, s.initDirectory = .ok s' ∧ s'.TableInv [s'.currentPd] own ∧
      (∀ i < 1023, s'.entry s'.currentPd i = 0) ∧ s'.swap = s.swap ∧
      (s'.evictPdIdx = s.evictPdIdx ∧ s'.evictPtIdx = s.evictPtIdx) ∧
      s'.pmm.freeSet.card + 1 = s.pmm.freeSet.card := by
  have hmem := min'_mem _ hne
  obtain ⟨hb, ht, -⟩ := Pmm.mem_freeSet.mp hmem
  have htotal := hs.total_le
  set f := s.pmm.freeSet.min' hne with hf
  let own : ℕ → Role := fun g =>
    if g ∈ s.pmm.freeSet.erase f then .free else if g = f then .directory else .other
  have hentry : ∀ i < 1023,
      (setRecursive (zeroFrame { s with pmm := (s.pmm.takeFrame f).1, currentPd := f * 4096 }
        (f * 4096)) (f * 4096)).entry (f * 4096) i = 0 := by
    intro i hi
    unfold setRecursive
    rw [entry_setEntry_of_ne _ _ (by omega) (by omega) (by decide) (by omega) (Or.inr (by omega))]
    exact entry_zeroFrame_self _ _ (by omega)
  have hcard : (s.pmm.takeFrame f).1.freeSet.card + 1 = s.pmm.freeSet.card := by
    rw [Pmm.freeSet_takeFrame]
    exact card_erase_add_one hmem
  refine ⟨_, own, ?_, ⟨?_, ?_, ?_, ?_, ?_, ?_⟩, hentry, rfl, ⟨rfl, rfl⟩, hcard⟩
  · unfold initDirectory
    rw [allocFrameZero_of_free hs hne]
    rfl
  · exact hs.takeFrame hmem fun g hg => min'_le _ _ hg
  · intro g
    change own g = .free ↔ g ∈ (s.pmm.takeFrame f).1.freeSet
    rw [Pmm.freeSet_takeFrame]
    dsimp only [own]
    split
    · simp_all
    · split <;> simp_all
  · intro g hg
    have hout : g ∉ s.pmm.freeSet := fun h => by
      have := Pmm.mem_freeSet.mp h
      change g < s.pmm.baseUsableFrame ∨ s.pmm.totalFrames ≤ g at hg
      omega
    have hne : g ≠ f := by
      rintro rfl
      exact hout hmem
    simp [own, hout, hne]
  · intro d hd
    obtain rfl := List.mem_singleton.mp hd
    exact Nat.mul_mod_left f 4096
  · intro d hd
    obtain rfl := List.mem_singleton.mp hd
    change own (f * 4096 / 4096) = .directory
    rw [frame_div]
    simp [own]
  · intro d hd i hi hp
    obtain rfl := List.mem_singleton.mp hd
    change (setRecursive _ (f * 4096)).entry (f * 4096) i % 2 = 1 at hp
    rw [hentry i hi] at hp
    cases hp

end Paging

/-! ## Runs -/

variable {D : Type} [Disk D]

/-- One call. -/
def MapOp.run (s : Paging D) : MapOp → Except Halt (Paging D)
  | .map virt phys flags => s.pagingMap virt phys flags
  | .unmap virt => .ok (s.pagingUnmap virt)

/-- The permission bits (writable, User) the processor grants: those set in both levels. -/
def Paging.permission (s : Paging D) (w : ℕ) : ℕ :=
  let pde := s.entry s.currentPd (pdIndex w)
  let pte := s.pte s.currentPd (pdIndex w) (ptIndex w)
  if pde % 2 = 1 ∧ pte % 2 = 1 then pde &&& pte &&& 6 else 0

/-- Calls below the recursive window, each made while a frame is free. `ops` has the newest first;
`held` are the frames that the callers hold. -/
inductive MapRun (s₀ : Paging D) : List MapOp → List ℕ → Paging D → Prop where
  /-- no call yet -/
  | start : MapRun s₀ [] [] s₀
  /-- one more call -/
  | call {ops : List MapOp} {held : List ℕ} {s s' : Paging D} (op : MapOp) :
      MapRun s₀ ops held s → op.virt < 0xFFC00000 → s.pmm.freeFrames ≠ 0 → op.run s = .ok s' →
      MapRun s₀ (op :: ops) held s'
  /-- `pmm_alloc_frame` by a caller -/
  | take {ops : List MapOp} {held : List ℕ} {s : Paging D} :
      MapRun s₀ ops held s → s.pmm.freeFrames ≠ 0 →
      MapRun s₀ ops ((pmmAllocFrame s.pmm).2 :: held) { s with pmm := (pmmAllocFrame s.pmm).1 }
  /-- `pmm_free_frame` by a caller, of a frame it holds -/
  | give {ops : List MapOp} {held : List ℕ} {s : Paging D} (addr : ℕ) :
      MapRun s₀ ops held s → addr ∈ held →
      MapRun s₀ ops (held.erase addr) { s with pmm := pmmFreeFrame s.pmm addr }

/-- The simulation: the page-table words of `d` are those of the specification, and a User page sits
below a User directory entry. -/
structure MapState (ops : List MapOp) (held : List ℕ) (s : Paging D) (d : ℕ) (own : ℕ → Role) :
    Prop where
  inv : s.TableInv [d] own
  currentPd : s.currentPd = d
  word : ∀ i < 1023, ∀ j < 1024, s.pte d i j = specWord ops (i * 1024 + j)
  user : ∀ i < 1023, ∀ j < 1024, s.pte d i j / 4 % 2 = 1 → s.entry d i / 4 % 2 = 1
  held_nodup : held.Nodup
  held_own : ∀ addr ∈ held, addr % 4096 = 0 ∧ own (addr / 4096) = .other

variable {ops : List MapOp} {held : List ℕ} {s : Paging D} {d : ℕ} {own : ℕ → Role}

omit [Disk D] in
theorem MapState.nonempty (h : MapState ops held s d own) (hfree : s.pmm.freeFrames ≠ 0) :
    s.pmm.freeSet.Nonempty := by
  rw [nonempty_iff_ne_empty]
  exact fun he => hfree (h.inv.pmm.freeFrames_eq_zero.mpr he)

theorem specWord_cons (op : MapOp) (ops : List MapOp) (page : ℕ) : specWord (op :: ops) page =
      if op.virt / 4096 = page then match op with
        | .map _ phys flags => pageEntry phys flags
        | .unmap _ => 0 else specWord ops page := by
  by_cases h : op.virt / 4096 = page
  · rw [if_pos h]
    cases op with
    | map virt phys flags =>
      change virt / 4096 = page at h
      simp [specWord, lastMap, h]
    | unmap virt =>
      change virt / 4096 = page at h
      simp [specWord, lastMap, h]
  · rw [if_neg h]
    unfold specWord
    rw [lastMap_cons_of_ne h]

/-! ## Steps -/

/-- What one call does to `d`: the word of its page is the one specified, others stay, and a
directory entry has at most gained the User bit. -/
structure CallEffect (s s' : Paging D) (op : MapOp) (d : ℕ) (own : ℕ → Role) : Prop where
  inv : ∃ own', s'.TableInv [d] own' ∧ ∀ g, own g ≠ .free → own' g = own g
  currentPd : s'.currentPd = d
  word : s'.pte d (pdIndex op.virt) (ptIndex op.virt) =
    match op with
    | .map _ phys flags => pageEntry phys flags
    | .unmap _ => 0
  other : ∀ i < 1023, ∀ j < 1024, ¬ (i = pdIndex op.virt ∧ j = ptIndex op.virt) →
    s'.pte d i j = s.pte d i j
  user : s'.pte d (pdIndex op.virt) (ptIndex op.virt) / 4 % 2 = 1 →
    s'.entry d (pdIndex op.virt) / 4 % 2 = 1
  kept : ∀ i < 1023, s.entry d i % 2 = 1 →
    s'.entry d i = s.entry d i ∨
      s.entry d i / 4 % 2 ≠ 1 ∧ s'.entry d i = s.entry d i ||| pageUser
  absent : ∀ i < 1023, i ≠ pdIndex op.virt → s'.entry d i = s.entry d i

/-- **Every call returns**, with the effect above. -/
theorem MapState.call (h : MapState ops held s d own) (op : MapOp)
    (hv : op.virt < 0xFFC00000) (hfree : s.pmm.freeFrames ≠ 0) :
    ∃ s', op.run s = .ok s' ∧ CallEffect s s' op d own := by
  have hcur := h.currentPd
  subst hcur
  have hmem := List.mem_singleton_self s.currentPd
  have hpd : pdIndex op.virt < 1023 := by
    unfold pdIndex
    omega
  cases op with
  | map virt phys flags =>
    change pdIndex virt < 1023 at hpd
    obtain ⟨s', own', hrun, hm⟩ :=
      h.inv.pagingMap hmem hpd phys flags (Or.inr (h.nonempty hfree))
    have hword := hm.pte_current hmem
    refine ⟨s', hrun, ⟨own', hm.inv, hm.own_kept⟩, hm.currentPd, hword, ?_, ?_, ?_, ?_⟩
    · intro i hi j hj hne
      refine hm.pte_other _ hmem i hi j hj ?_
      change ¬ (i = pdIndex virt ∧ j = ptIndex virt) at hne
      tauto
    · intro hu
      change s'.pte s.currentPd (pdIndex virt) (ptIndex virt) / 4 % 2 = 1 at hu
      rw [hword, pageEntry_user] at hu
      exact hm.user hu
    · intro i hi hp
      by_cases heq : i = pdIndex virt
      · subst heq
        exact hm.kept hp
      · exact Or.inl (hm.entry_eq _ hmem i (by omega) (by tauto))
    · intro i hi hne
      exact hm.entry_eq _ hmem i (by omega) fun hc => hne hc.2
  | unmap virt =>
    change pdIndex virt < 1023 at hpd
    obtain ⟨hinv, hentry⟩ := h.inv.pagingUnmap hmem hpd
    have hpte := fun i (hi : i < 1023) j (hj : j < 1024) =>
      h.inv.pte_pagingUnmap hmem hpd hmem hi hj
    have hword : (s.pagingUnmap virt).pte s.currentPd (pdIndex virt) (ptIndex virt) = 0 := by
      rw [hpte _ hpd _ (Paging.ptIndex_lt virt)]
      by_cases hp : s.entry s.currentPd (pdIndex virt) % 2 = 1
      · rw [if_pos ⟨rfl, rfl, hp, hp, rfl⟩]
      · rw [if_neg (by tauto), Paging.pte_of_absent hp]
    refine ⟨_, rfl, ⟨own, hinv, fun _ _ => rfl⟩, s.pagingUnmap_currentPd virt, hword,
      ?_, ?_, ?_, ?_⟩
    · intro i hi j hj hne
      rw [hpte i hi j hj]
      exact if_neg fun hc => hne ⟨hc.1, hc.2.1⟩
    · intro hu
      change (s.pagingUnmap virt).pte s.currentPd (pdIndex virt) (ptIndex virt) / 4 % 2 = 1 at hu
      rw [hword] at hu
      cases hu
    · exact fun i hi _ => Or.inl (hentry _ hmem i (by omega))
    · exact fun i hi _ => hentry _ hmem i (by omega)

section

omit [Disk D]

/-- The simulation follows a call. -/
theorem CallEffect.mapState {s' : Paging D} {op : MapOp} (he : CallEffect s s' op d own)
    (h : MapState ops held s d own) (hv : op.virt < 0xFFC00000) :
    ∃ own', MapState (op :: ops) held s' d own' := by
  obtain ⟨own', hinv, hkept⟩ := he.inv
  have hpd : pdIndex op.virt < 1023 := by
    unfold pdIndex
    omega
  have hpage : ∀ i j, j < 1024 → (op.virt / 4096 = i * 1024 + j ↔
      i = pdIndex op.virt ∧ j = ptIndex op.virt) := by
    intro i j hj
    unfold pdIndex ptIndex
    omega
  refine ⟨own', hinv, he.currentPd, ?_, ?_, h.held_nodup, ?_⟩
  · intro i hi j hj
    rw [specWord_cons]
    by_cases hij : i = pdIndex op.virt ∧ j = ptIndex op.virt
    · rw [if_pos ((hpage i j hj).mpr hij), hij.1, hij.2]
      exact he.word
    · rw [if_neg fun hc => hij ((hpage i j hj).mp hc), he.other i hi j hj hij]
      exact h.word i hi j hj
  · intro i hi j hj hu
    by_cases hij : i = pdIndex op.virt ∧ j = ptIndex op.virt
    · obtain ⟨rfl, rfl⟩ := hij
      exact he.user hu
    · rw [he.other i hi j hj hij] at hu
      have huser := h.user i hi j hj hu
      -- a User page is below a present entry, and those lose no bit
      by_cases hp : s.entry d i % 2 = 1
      · rcases he.kept i hi hp with heq | ⟨hno, -⟩
        · rw [heq]
          exact huser
        · exact absurd huser hno
      · rw [Paging.pte_of_absent hp] at hu
        cases hu
  · intro addr haddr
    obtain ⟨hal, hown⟩ := h.held_own addr haddr
    exact ⟨hal, (hkept _ (by rw [hown]; exact Role.noConfusion)).trans hown⟩

theorem and_or_user {pde pte : ℕ} (h : pte / 4 % 2 ≠ 1) :
    (pde ||| pageUser) &&& pte &&& 6 = pde &&& pte &&& 6 := by
  have hpte : pte &&& 2 ^ 2 = 0 := by
    by_contra hne
    exact h ((and_flag_ne_zero pte 2).mp hne)
  rw [Nat.and_or_distrib_right, show pageUser &&& pte = 0 from (Nat.and_comm _ _).trans hpte,
    Nat.or_zero]

/-- **A call leaves the other pages alone**: their page-table word, their
translation and their effective permissions. -/
theorem CallEffect.other_page {s' : Paging D} {op : MapOp} (he : CallEffect s s' op d own)
    (h : MapState ops held s d own) {w : ℕ} (hw : w < 0xFFC00000)
    (hne : w / 4096 ≠ op.virt / 4096) :
    s'.pte d (pdIndex w) (ptIndex w) = s.pte d (pdIndex w) (ptIndex w) ∧
      s'.pagingVirtToPhys w = s.pagingVirtToPhys w ∧ s'.permission w = s.permission w := by
  have hi : pdIndex w < 1023 := by
    unfold pdIndex
    omega
  have hj := Paging.ptIndex_lt w
  have hpte := he.other (pdIndex w) hi (ptIndex w) hj fun hc => hne ((same_page_iff _ _).mp hc)
  have hcur := he.currentPd.trans h.currentPd.symm
  refine ⟨hpte, ?_, ?_⟩
  · rw [Paging.pagingVirtToPhys_eq, Paging.pagingVirtToPhys_eq, he.currentPd, h.currentPd, hpte]
  · unfold Paging.permission
    rw [he.currentPd, h.currentPd]
    dsimp only
    rw [hpte]
    by_cases hp : s.entry d (pdIndex w) % 2 = 1
    · rcases he.kept _ hi hp with heq | ⟨hno, heq⟩
      · rw [heq]
      · have hmod := (or_user_facts (s.entry_lt d (pdIndex w))).2.2.1
        have hpu : s.pte d (pdIndex w) (ptIndex w) / 4 % 2 ≠ 1 :=
          fun hu => hno (h.user _ hi _ hj hu)
        rw [heq, hmod, and_or_user hpu]
    · -- without a table there is no page, before and after
      rw [Paging.pte_of_absent hp, if_neg (by omega), if_neg (by omega)]

end

theorem MapRun.mapState {s0 s1 : Paging D} (hboot : PmmReachable s0.pmm)
    (hfree : s0.pmm.freeFrames ≠ 0) (hdir : s0.initDirectory = .ok s1)
    (hrun : MapRun s1 ops held s) : ∃ own, MapState ops held s s1.currentPd own := by
  have hne : s0.pmm.freeSet.Nonempty := by
    rw [nonempty_iff_ne_empty]
    exact fun he => hfree (hboot.inv.freeFrames_eq_zero.mpr he)
  obtain ⟨s1', own1, hdir', hinv, hzero, -⟩ := Paging.initDirectory_spec hboot.inv hne
  obtain rfl : s1' = s1 := Except.ok.inj (hdir'.symm.trans hdir)
  induction hrun with
  | start =>
    have hpte : ∀ i < 1023, ∀ j, s1'.pte s1'.currentPd i j = 0 := fun i hi j =>
      Paging.pte_of_absent (by rw [hzero i hi]; decide) j
    refine ⟨own1, hinv, rfl, fun i hi j _ => hpte i hi j, fun i hi j _ hu => ?_, nodup_nil,
      fun _ h => absurd h not_mem_nil⟩
    rw [hpte i hi j] at hu
    cases hu
  | call op _ hv hfree hstep ih =>
    obtain ⟨own, h⟩ := ih
    obtain ⟨s', hok, he⟩ := h.call op hv hfree
    obtain rfl := Except.ok.inj (hok.symm.trans hstep)
    exact he.mapState h hv
  | take _ hfree ih =>
    obtain ⟨own, h⟩ := ih
    obtain ⟨f, hown, haddr, hinv'⟩ := h.inv.pmmAlloc (h.nonempty hfree)
    rw [haddr]
    refine ⟨_, hinv', h.currentPd, h.word, h.user, List.nodup_cons.mpr ⟨?_, h.held_nodup⟩, ?_⟩
    · intro hmem
      have := (h.held_own _ hmem).2
      rw [frame_div, hown] at this
      cases this
    · intro addr hmem
      rcases List.mem_cons.mp hmem with rfl | hmem
      · rw [frame_div]
        exact ⟨Nat.mul_mod_left f 4096, update_self ..⟩
      · obtain ⟨hal, ho⟩ := h.held_own addr hmem
        refine ⟨hal, ?_⟩
        rw [update_of_ne, ho]
        rintro rfl
        rw [ho] at hown
        cases hown
  | give addr _ hmem ih =>
    obtain ⟨own, h⟩ := ih
    obtain ⟨own', hinv', hkept, -⟩ := h.inv.pmmFree
      (by rw [(h.held_own addr hmem).2]; trivial)
    refine ⟨own', hinv', h.currentPd, h.word, h.user, h.held_nodup.erase addr, ?_⟩
    intro addr' hmem'
    obtain ⟨hne', hmem''⟩ := (h.held_nodup.mem_erase_iff).mp hmem'
    obtain ⟨hal, ho⟩ := h.held_own addr' hmem''
    have hal' := (h.held_own addr hmem).1
    exact ⟨hal, (hkept _ (by omega)).trans ho⟩

/-- **Page tables implement a finite map.** In every run from an empty directory an address
translates as the last call for its page says; every further call returns and leaves every other
page alone, and the tables are distinct frames. -/
theorem page_tables_finite_map {s₀ s₁ : Paging D} (hboot : PmmReachable s₀.pmm)
    (hfree : s₀.pmm.freeFrames ≠ 0) (hdir : s₀.initDirectory = .ok s₁)
    (hrun : MapRun s₁ ops held s) : (∀ w < 0xFFC00000, s.pagingVirtToPhys w =
      match lastMap ops (w / 4096) with
      | some (phys, _) => frameOf phys ||| (w &&& 0xFFF)
      | none => 0) ∧
    (∀ op : MapOp, op.virt < 0xFFC00000 → s.pmm.freeFrames ≠ 0 → ∃ s', op.run s = .ok s' ∧
      ∀ w < 0xFFC00000, w / 4096 ≠ op.virt / 4096 →
        s'.pte s.currentPd (pdIndex w) (ptIndex w) = s.pte s.currentPd (pdIndex w) (ptIndex w) ∧
        s'.pagingVirtToPhys w = s.pagingVirtToPhys w ∧ s'.permission w = s.permission w) ∧
    (∀ i < 1023, s.entry s.currentPd i % 2 = 1 → frameOf (s.entry s.currentPd i) ≠ s.currentPd ∧
      ∀ j < 1023, j ≠ i → s.entry s.currentPd j % 2 = 1 →
        frameOf (s.entry s.currentPd j) ≠ frameOf (s.entry s.currentPd i)) ∧
    ∀ virt, (s.pagingUnmap virt).pmm = s.pmm := by
  obtain ⟨own, h⟩ := hrun.mapState hboot hfree hdir
  have hmem := List.mem_singleton.mpr h.currentPd
  have hcur := h.currentPd
  refine ⟨?_, ?_, ?_, s.pagingUnmap_pmm⟩
  · intro w hw
    have hi : pdIndex w < 1023 := by
      unfold pdIndex
      omega
    have hpage : pdIndex w * 1024 + ptIndex w = w / 4096 := by
      unfold pdIndex ptIndex
      omega
    have hword := h.word _ hi _ (Paging.ptIndex_lt w)
    rw [hpage] at hword
    rw [Paging.pagingVirtToPhys_eq, hcur, hword]
    unfold specWord
    rcases lastMap ops (w / 4096) with _ | ⟨phys, flags⟩
    · rfl
    · dsimp only
      have hframe := pageEntry_frame phys flags
      rw [if_pos (pageEntry_mod_two phys flags), hframe, and_offsetMask, ← hframe,
        or_offset _ (Nat.mod_lt _ (by decide))]
  · intro op hv hfree'
    obtain ⟨s', hok, he⟩ := h.call op hv hfree'
    refine ⟨s', hok, fun w hw hne => ?_⟩
    rw [hcur]
    exact he.other_page h hw hne
  · intro i hi hp
    simp only [Paging.frameOf_entry]
    rw [hcur] at hp ⊢
    have hd := List.mem_singleton_self s₁.currentPd
    refine ⟨(h.inv.table_ne_dir hd hi hp hd).symm, fun j hj hne hpj heq => ?_⟩
    exact hne (h.inv.table_inj hd hd hj hi hpj hp (by omega)).1

/-- One page mapped and read back through its offset, with four frames above the
first MiB. -/
theorem page_tables_finite_map_one :
    ∃ s₀ s₁ s : Paging DiskImage, PmmReachable s₀.pmm ∧ s₀.pmm.freeFrames ≠ 0 ∧
      s₀.initDirectory = .ok s₁ ∧ MapRun s₁ [.map 0x400000 0x123000 3] [] s ∧
      s.pagingVirtToPhys 0x400123 = 0x123123 := by
  let mb : MultibootInfo := ⟨1024, 16, 0, fun _ => ⟨0, 0, 0, 0⟩⟩
  let boot : Pmm → Paging DiskImage := fun p => Paging.boot p (fun _ => 0) (fun _ _ _ => 0)
  have hinit : ((pmmInit 1 0 (some mb)).map fun p => (p.freeFrames,
      ((boot p).initDirectory.map fun s => s.pmm.freeFrames).toOption)) = some (4, some 3) := by
    decide
  obtain ⟨p, hp, hvals⟩ := Option.map_eq_some_iff.mp hinit
  obtain ⟨hfour, hthree⟩ := Prod.mk.inj hvals
  have hboot : PmmReachable (boot p).pmm := ⟨1, 0, some mb, p, [], hp, rfl⟩
  have hfree : (boot p).pmm.freeFrames ≠ 0 := by
    change p.freeFrames ≠ 0
    omega
  have hdir : ∃ s₁, (boot p).initDirectory = .ok s₁ ∧ s₁.pmm.freeFrames ≠ 0 := by
    rcases hd : (boot p).initDirectory with e | s₁
    · rw [hd] at hthree
      cases hthree
    · rw [hd] at hthree
      refine ⟨s₁, rfl, ?_⟩
      have hval : s₁.pmm.freeFrames = 3 := Option.some.inj hthree
      omega
  obtain ⟨s₁, hdir, hfree1⟩ := hdir
  have hnil : MapRun s₁ [] [] s₁ := .start
  obtain ⟨own, hstart⟩ := hnil.mapState hboot hfree hdir
  obtain ⟨s, hcall, -⟩ := hstart.call (.map 0x400000 0x123000 3) (by decide) hfree1
  have hrun : MapRun s₁ [.map 0x400000 0x123000 3] [] s :=
    .call _ hnil (by decide) hfree1 hcall
  refine ⟨boot p, s₁, s, hboot, hfree, hdir, hrun, ?_⟩
  rw [(page_tables_finite_map hboot hfree hdir hrun).1 0x400123 (by decide)]
  decide

end PenOS
