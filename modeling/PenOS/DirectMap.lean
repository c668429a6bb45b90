import PenOS.KernelCalls

/-!
# Memory at its physical address

The paging code works at physical addresses (`phys_to_ptr` is a cast), which the boot directory maps
to themselves for the first 16 MiB and other directories for nothing.
-/

namespace PenOS

open Function List

variable {D : Type}
variable {cr2 d errCode f flags i n phys table virt : ℕ} {r : Paging D × ℕ}

namespace Paging

variable {s s' : Paging D} {live : List ℕ} {own own' : ℕ → Role}

/-- The byte at `addr` is mapped to itself in the current directory. -/
def DirectMapped (s : Paging D) (addr : ℕ) : Prop :=
  s.pte s.currentPd (pdIndex addr) (ptIndex addr) % 2 = 1 ∧ s.pagingVirtToPhys addr = addr

/-- Every byte of the page at `phys` is mapped to itself. -/
def DirectPage (s : Paging D) (phys : ℕ) : Prop := ∀ k < 4096, s.DirectMapped (phys + k)

/-- There are `n` free frames, or there is no swap space to evict to. -/
def RoomFor (s : Paging D) (n : ℕ) : Prop := s.swap.swapPort = none ∨ n ≤ s.pmm.freeFrames

/-- The first 16 MiB are mapped to themselves. -/
def LowDirect (s : Paging D) : Prop := ∀ k < 4096,
  s.pte s.currentPd (k / 1024) (k % 1024) % 2 = 1 ∧
    s.pte s.currentPd (k / 1024) (k % 1024) / 4096 = k

theorem LowDirect.mapped (h : s.LowDirect) {addr : ℕ} (ha : addr < 16777216) :
    s.DirectMapped addr := by
  obtain ⟨hp, hframe⟩ := h (addr / 4096) (by omega)
  rw [show addr / 4096 / 1024 = pdIndex addr by rw [pdIndex]; omega,
    show addr / 4096 % 1024 = ptIndex addr from rfl] at hp hframe
  refine ⟨hp, ?_⟩
  rw [pagingVirtToPhys_eq, if_pos hp, hframe]
  omega

theorem LowDirect.page (h : s.LowDirect) (hf : f < 4096) : s.DirectPage (f * 4096) :=
  fun k hk => h.mapped (by omega)

theorem LowDirect.kept (h : s.LowDirect) (hcur : s'.currentPd = s.currentPd)
    (hpte : ∀ i < 4, ∀ j < 1024, s'.pte s.currentPd i j = s.pte s.currentPd i j) :
    s'.LowDirect := by
  intro k hk
  rw [hcur, hpte (k / 1024) (by omega) (k % 1024) (Nat.mod_lt k (by decide))]
  exact h k hk

/-- The boot directory is loaded, maps the first 16 MiB to themselves, and all managed
frames lie there. -/
structure DirectInv (s : Paging D) (live : List ℕ) (own : ℕ → Role) : Prop extends
    TableInv s live own where
  current : s.currentPd ∈ live
  low : s.pmm.totalFrames ≤ 4096
  direct : s.LowDirect
  recursive : s.Recursive

theorem DirectInv.frame_page (hs : s.DirectInv live own) (h : own f ≠ .other) :
    s.DirectPage (f * 4096) :=
  hs.direct.page ((hs.managed h).2.trans_le hs.low)

theorem DirectInv.dir_page (hs : s.DirectInv live own) (hd : d ∈ live) : s.DirectPage d := by
  have haligned := hs.dir_aligned d hd
  have hpage := hs.frame_page (by rw [hs.dir_own d hd]; exact Role.noConfusion)
  rwa [show d / 4096 * 4096 = d by omega] at hpage

theorem DirectInv.table_page (hs : s.DirectInv live own) (hd : d ∈ live) (hi : i < 1023)
    (hp : s.entry d i % 2 = 1) : s.DirectPage (s.entry d i / 4096 * 4096) := by
  refine hs.frame_page ?_
  rw [hs.table_own d hd i hi hp]
  intro h
  have hloose : (tableRole d i).Loose := by
    rw [h]
    trivial
  exact tableRole_not_loose d i hloose

theorem DirectInv.last_page (hs : s.DirectInv live own) :
    s.DirectPage (s.entry s.currentPd 1023 / 4096 * 4096) := by
  have haligned := hs.dir_aligned _ hs.current
  rw [hs.recursive.2, show s.currentPd / 4096 * 4096 = s.currentPd by omega]
  exact hs.dir_page hs.current

theorem DirectInv.kept {live' : List ℕ} (hs : s.DirectInv live own) (hinv : s'.TableInv live' own')
    (hlive : ∀ d ∈ live, d ∈ live') (hcur : s'.currentPd = s.currentPd)
    (htotal : s'.pmm.totalFrames = s.pmm.totalFrames)
    (hpte : ∀ i < 4, ∀ j < 1024, s'.pte s.currentPd i j = s.pte s.currentPd i j)
    (hlast : s'.entry s.currentPd 1023 = s.entry s.currentPd 1023) : s'.DirectInv live' own' := by
  refine ⟨hinv, by rw [hcur]; exact hlive _ hs.current, htotal ▸ hs.low,
    hs.direct.kept hcur hpte, ?_⟩
  rw [Recursive, hcur, hlast]
  exact hs.recursive

/-! ## Setting the User bit of the last entry -/

theorem TableInv.pte_setLast (hs : s.TableInv live own) {d0 v : ℕ} (hd0 : d0 ∈ live) {j : ℕ}
    (hd : d ∈ live) (hi : i < 1023) (hj : j < 1024) :
    (s.setEntry d0 1023 v).pte d i j = s.pte d i j := by
  have he : (s.setEntry d0 1023 v).entry d i = s.entry d i :=
    hs.entry_setPde hd0 (by decide) hd (by omega) (by omega)
  by_cases hp : s.entry d i % 2 = 1
  · rw [pte_of_present (by rw [he]; exact hp), pte_of_present hp, he]
    exact entry_setEntry_of_ne s v (hs.dir_aligned d0 hd0) (by omega) (by decide) hj
      (.inl (hs.table_ne_dir hd hi hp hd0).symm)
  · rw [pte_of_absent (by rw [he]; exact hp), pte_of_absent hp]

/-! ## Frames taken without an eviction -/

/-- Room for one frame less. -/
theorem FreshFrame.roomFor (h : s.FreshFrame s' live own f) (hs : s.TableInv live own)
    (hroom : s.RoomFor (n + 1)) : s'.RoomFor n := by
  refine hroom.imp (fun hport => by rw [h.swap]; exact hport) fun hle => ?_
  have hcard := Finset.card_erase_add_one ((hs.free_iff f).mp h.was_free)
  rw [hs.pmm.count] at hle
  rw [h.inv.pmm.count, h.taken]
  omega

theorem DirectInv.fresh (hs : s.DirectInv live own) (h : s.FreshFrame s' live own f) :
    s'.DirectInv live (Function.update own f .other) :=
  hs.kept h.inv (fun _ => id) h.currentPd h.range.2
    (fun i hi j hj => h.pte_eq _ hs.current i (by omega) j hj)
    (h.entry_eq _ (hs.dir_aligned _ hs.current)
      (hs.free_apart ((hs.free_iff f).mp h.was_free) hs.current).1 _ (by decide))

theorem DirectInv.created (hs : s.DirectInv live own) (hc : s.Created s' live own f) :
    s'.DirectInv (f * 4096 :: live) (Function.update own f .directory) :=
  hs.kept hc.inv (fun _ => mem_cons_of_mem _) hc.currentPd hc.range.2
    (fun i hi j hj => hc.pte_eq _ hs.current i (by omega) j hj)
    (hc.entry_eq _ hs.current _ (by decide))

/-! ## What the calls dereference -/

theorem DirectInv.find (hs : s.DirectInv live own) (hvirt : virt < 4294967296)
    (hfind : s.findPageTable virt = some table) : s.DirectPage table := by
  have hpd : pdIndex virt < 1024 := by
    rw [pdIndex]
    omega
  rw [findPageTable_eq] at hfind
  split_ifs at hfind with hp
  cases hfind
  rcases Nat.lt_succ_iff_lt_or_eq.mp hpd with hlt | hlast
  · exact hs.table_page hs.current hlt hp
  · rw [hlast]
    exact hs.last_page

variable [Disk D]

/-- Everything the paging code reads and writes through `phys_to_ptr` is mapped when it
does so. -/
structure Reaches (s : Paging D) (live : List ℕ) : Prop where
  /-- `alloc_frame_zero` clears the frame it returns -/
  alloc : ∀ s' phys, s.allocFrameZero = .ok (s', phys) → s'.DirectPage phys
  /-- `get_page_table` reads the directory, and its callers the table it returns -/
  directory : s.DirectPage s.currentPd
  find : ∀ virt < 4294967296, ∀ table, s.findPageTable virt = some table → s.DirectPage table
  table : ∀ virt < 4294967296, ∀ flags s' table, s.getPageTable virt flags = .ok (s', table) →
    s'.DirectPage s.currentPd ∧ s'.DirectPage table
  /-- `paging_create_directory` copies from the current directory to the new one -/
  create : ∀ s' pd, s.pagingCreateDirectory = .ok (s', pd) →
    s'.DirectPage s.currentPd ∧ s'.DirectPage pd
  /-- `paging_destroy_directory` reads the directory and the tables of its user half -/
  destroy : ∀ d ∈ live, s.DirectPage d ∧
    ∀ i < 768, s.entry d i % 2 = 1 → s.DirectPage (s.entry d i / 4096 * 4096)

theorem RoomFor.nonempty_of_alloc (h : s.RoomFor (n + 1)) (hs : s.pmm.Inv)
    (hrun : s.allocFrameZero = .ok r) : s.pmm.freeSet.Nonempty := by
  rcases h with hport | hroom
  · by_contra hempty
    rw [allocFrameZero_of_exhausted hs (Finset.not_nonempty_iff_eq_empty.mp hempty) hport] at hrun
    cases hrun
  · exact hs.nonempty (by omega)

theorem TableInv.fresh_of_room (hs : s.TableInv live own) (hroom : s.RoomFor (n + 1))
    (hrun : s.allocFrameZero = .ok (s', phys)) :
    ∃ f ∈ s.pmm.freeSet, phys = f * 4096 ∧ s.FreshFrame s' live own f := by
  obtain ⟨s1, f, hrun1, hf, hfresh⟩ := hs.allocFrameZero (hroom.nonempty_of_alloc hs.pmm hrun)
  obtain ⟨rfl, rfl⟩ := ok_pair (hrun1.symm.trans hrun)
  exact ⟨f, hf, rfl, hfresh⟩

theorem RoomFor.avail (h : s.RoomFor (n + 1)) (hs : s.pmm.Inv)
    (hrun : s.getPageTable virt flags = .ok r) :
    s.entry s.currentPd (pdIndex virt) % 2 = 1 ∨ s.pmm.freeSet.Nonempty := by
  by_cases hp : s.entry s.currentPd (pdIndex virt) % 2 = 1
  · exact .inl hp
  · refine .inr ?_
    simp only [getPageTable, hasFlag_present, decide_eq_false hp, Bool.not_false,
      if_true] at hrun
    rcases halloc : s.allocFrameZero with e | r <;> rw [halloc] at hrun
    · cases hrun
    · exact h.nonempty_of_alloc hs halloc

/-- A page mapped without an eviction. -/
theorem TableInv.mapped_of_room (hs : s.TableInv live own) (hcur : s.currentPd ∈ live)
    (hv : pdIndex virt < 1023) (hroom : s.RoomFor (n + 1))
    (hrun : s.pagingMap virt phys flags = .ok s') :
    ∃ own', s.Mapped s' live own own' virt (pageEntry phys flags) flags := by
  have havail : s.entry s.currentPd (pdIndex virt) % 2 = 1 ∨ s.pmm.freeSet.Nonempty := by
    rw [Paging.pagingMap] at hrun
    rcases hget : s.getPageTable virt flags with e | r <;> rw [hget] at hrun
    · cases hrun
    · exact hroom.avail hs.pmm hget
  obtain ⟨s1, own', hrun1, hm⟩ := hs.pagingMap hcur hv phys flags havail
  obtain rfl := Except.ok.inj (hrun1.symm.trans hrun)
  exact ⟨own', hm⟩

/-- What a fault served without an eviction leaves: one word is new, and its table may be. -/
structure Served (s s' : Paging D) (live : List ℕ) (own own' : ℕ → Role) (virt : ℕ) : Prop where
  inv : s'.TableInv live own'
  own_kept : ∀ g, own g ≠ .free → own' g = own g
  currentPd : s'.currentPd = s.currentPd
  hand : s'.evictPdIdx = s.evictPdIdx
  range : s'.pmm.baseUsableFrame = s.pmm.baseUsableFrame ∧ s'.pmm.totalFrames = s.pmm.totalFrames
  entry_eq : ∀ d ∈ live, ∀ i < 1024, ¬ (d = s.currentPd ∧ i = pdIndex virt) →
    s'.entry d i = s.entry d i
  pte_other : ∀ d ∈ live, ∀ i < 1023, ∀ j < 1024, i ≠ pdIndex virt ∨ j ≠ ptIndex virt →
    s'.pte d i j = s.pte d i j

/-- **A fault** below the last entry, with room for a frame and a table. -/
theorem TableInv.fault_of_room (hs : s.TableInv live own) (hcur : s.currentPd ∈ live)
    (hcr2 : cr2 < 0xFFC00000) (hroom : s.RoomFor 2)
    (hrun : s.pageFaultHandler cr2 errCode = .ok s') : ∃ own', s.Served s' live own own' cr2 := by
  have hlt : cr2 < 4294967296 := by omega
  have hpd : pdIndex (cr2 &&& 0xFFFFF000) < 1023 := by
    rw [pdIndex_page hlt, pdIndex]
    omega
  obtain ⟨s4, hmap, hcase⟩ := pageFaultHandler_cases hlt hrun
  rw [Paging.mapFresh] at hmap
  rcases halloc : s.allocFrameZero with e | ⟨s2, phys⟩ <;> rw [halloc] at hmap
  · cases hmap
  obtain ⟨f, hf, rfl, hfresh⟩ := hs.fresh_of_room hroom halloc
  obtain ⟨own4, hm⟩ := hfresh.inv.mapped_of_room (hfresh.currentPd ▸ hcur) hpd
    (hfresh.roomFor hs hroom) hmap
  have hused : ∀ g, own g ≠ .free → own4 g = own g := fun g hg => by
    have hkept := update_kept hfresh.was_free .other g hg
    rw [hm.own_kept g (by rw [hkept]; exact hg), hkept]
  have hserved : s.Served s4 live own own4 cr2 := by
    refine ⟨hm.inv, hused, hm.currentPd.trans hfresh.currentPd, hm.hand.1.trans hfresh.hand.1,
      ⟨hm.range.1.trans hfresh.range.1, hm.range.2.trans hfresh.range.2⟩, fun d hd i hi hne => ?_,
      fun d hd i hi j hj hne => ?_⟩
    · rw [hm.entry_eq d hd i hi (by rw [hfresh.currentPd, pdIndex_page hlt]; exact hne),
        hfresh.entry_eq d (hs.dir_aligned d hd) (hs.free_apart hf hd).1 i hi]
    · rw [hm.pte_other d hd i hi j hj (by rw [pdIndex_page hlt, ptIndex_page hlt]; exact hne),
        hfresh.pte_eq d hd i hi j hj]
  rcases hcase with ⟨-, rfl⟩ | ⟨-, rfl⟩
  · exact ⟨own4, hserved⟩
  · -- the page is read into the new frame, which holds no entries
    have hown : own4 f = .other :=
      (hm.own_kept f (by rw [update_self]; exact Role.noConfusion)).trans
        (update_self ..)
    have htarget : s4.pagingVirtToPhys (cr2 &&& 0xFFFFF000) / 4096 = f := by
      have hframe := (hfresh.lt hs.pmm).2
      have hword := hm.pte_current (hfresh.currentPd ▸ hcur)
      have hmod : (cr2 &&& 0xFFFFF000) % 4096 = 0 := by rw [and_pageMask hlt, Nat.mul_mod_left]
      rw [pagingVirtToPhys_eq, hm.currentPd, hword, if_pos (pageEntry_mod_two _ _),
        pageEntry_div (by omega), hmod]
      omega
    have hvirt : s4.pagingVirtToPhys (cr2 &&& 0xFFFFF000) % 4096 = 0 := by
      have hmod : (cr2 &&& 0xFFFFF000) % 4096 = 0 := by rw [and_pageMask hlt, Nat.mul_mod_left]
      rw [pagingVirtToPhys_eq, hmod]
      split_ifs <;> omega
    have hon : s4.PageInvOn (fun _ _ => False) live own4 :=
      ⟨hm.inv, fun _ _ _ _ _ _ he => he.elim⟩
    have hbytes : ∀ x, ¬ (own4 (x / 4096)).Loose → (s4.readBack (cr2 &&& 0xFFFFF000)
        (s.pte s.currentPd (pdIndex cr2) (ptIndex cr2) / 4096)).mem x = s4.mem x := by
      intro x hx
      refine Mem.paste_of_not_mem ?_
      by_contra hin
      refine hx ?_
      rw [show x / 4096 = f by omega, hown]
      trivial
    have hpmm : (s4.readBack (cr2 &&& 0xFFFFF000)
        (s.pte s.currentPd (pdIndex cr2) (ptIndex cr2) / 4096)).pmm = s4.pmm := rfl
    obtain ⟨hinv, hentry, hpte⟩ := hon.of_bytes hpmm hbytes
    exact ⟨own4, hinv.toTableInv, hused, hserved.currentPd, hserved.hand, hserved.range,
      fun d hd i hi hne => (hentry d hd i hi).trans (hserved.entry_eq d hd i hi hne),
      fun d hd i hi j hj hne => (hpte d hd i hi j hj).trans (hserved.pte_other d hd i hi j hj hne)⟩

/-- **A table on demand** keeps the identity map, and is reached through it. -/
theorem DirectInv.getPageTable (hs : s.DirectInv live own)
    (hvirt : virt < 4294967296) (hroom : s.RoomFor (n + 1))
    (hrun : s.getPageTable virt flags = .ok (s', table)) :
    s'.DirectPage s.currentPd ∧ s'.DirectPage table := by
  have hpd : pdIndex virt < 1024 := by
    rw [pdIndex]
    omega
  rcases Nat.lt_succ_iff_lt_or_eq.mp hpd with hlt | hlast
  · -- a table of its own: it exists, or a frame is taken
    obtain ⟨s1, table1, own1, hrun1, hready, -, -⟩ :=
      hs.toTableInv.getPageTable hs.current hlt flags (hroom.avail hs.pmm hrun)
    obtain ⟨rfl, rfl⟩ := ok_pair (hrun1.symm.trans hrun)
    have hs1 : s1.DirectInv live own1 :=
      hs.kept hready.inv (fun _ => id) hready.currentPd hready.range.2
        (fun i hi j hj => hready.pte_eq _ hs.current i (by omega) j hj)
        (hready.entry_eq _ hs.current _ (by decide) (by omega))
    refine ⟨hs1.dir_page hs.current, ?_⟩
    rw [hready.table_eq]
    exact hs1.table_page hs.current hlt hready.present
  · -- the directory itself, whose last entry may get the User bit
    have hp : s.entry s.currentPd (pdIndex virt) % 2 = 1 := by
      rw [hlast]
      exact hs.recursive.1
    have hdirect : ∀ v, (s.setEntry s.currentPd 1023 v).LowDirect := fun v =>
      hs.direct.kept rfl fun i hi j hj => hs.pte_setLast hs.current hs.current (by omega) hj
    have hframe := hs.managed
      (by rw [hs.dir_own _ hs.current]; exact Role.noConfusion)
    have haligned := hs.dir_aligned _ hs.current
    have hself : ∀ {t : Paging D}, t.LowDirect → t.DirectPage s.currentPd := fun ht => by
      have hpage := ht.page (hframe.2.trans_le hs.low)
      rwa [show s.currentPd / 4096 * 4096 = s.currentPd by omega] at hpage
    have htable : s.entry s.currentPd (pdIndex virt) / 4096 * 4096 = s.currentPd := by
      rw [hlast, hs.recursive.2]
      omega
    simp only [Paging.getPageTable, hasFlag_present, decide_eq_true hp, Bool.not_true,
      Bool.false_eq_true, if_false, frameOf_entry, htable] at hrun
    split_ifs at hrun
    · cases hrun
      rw [hlast]
      exact ⟨hself (hdirect _), hself (hdirect _)⟩
    · cases hrun
      exact ⟨hself hs.direct, hself hs.direct⟩

/-- A directory made without an eviction. -/
theorem TableInv.created_of_room (hs : s.TableInv live own) (hcur : s.currentPd ∈ live) {pd : ℕ}
    (hroom : s.RoomFor (n + 1)) (hrun : s.pagingCreateDirectory = .ok (s', pd)) :
    ∃ f, pd = f * 4096 ∧ s.Created s' live own f := by
  have hne : s.pmm.freeSet.Nonempty := by
    rw [Paging.pagingCreateDirectory] at hrun
    rcases halloc : s.allocFrameZero with e | r <;> rw [halloc] at hrun
    · cases hrun
    · exact hroom.nonempty_of_alloc hs.pmm halloc
  obtain ⟨s1, f, hrun1, -, hc⟩ := hs.pagingCreateDirectory hcur hne
  obtain ⟨rfl, rfl⟩ := ok_pair (hrun1.symm.trans hrun)
  exact ⟨f, rfl, hc⟩

/-- **The code reaches what it dereferences.** -/
theorem DirectInv.reaches (hs : s.DirectInv live own) (hroom : s.RoomFor (n + 1)) :
    s.Reaches live where
  alloc s' phys hrun := by
    obtain ⟨f, hf, rfl, hfresh⟩ := hs.toTableInv.fresh_of_room hroom hrun
    exact (hs.fresh hfresh).direct.page (hfresh.managed.2.trans_le hs.low)
  directory := hs.dir_page hs.current
  find virt hvirt table := hs.find hvirt
  table virt hvirt flags s' table := hs.getPageTable hvirt hroom
  create s' pd hrun := by
    obtain ⟨f, rfl, hc⟩ := hs.toTableInv.created_of_room hs.current hroom hrun
    have hs' := hs.created hc
    exact ⟨hs'.dir_page (mem_cons_of_mem _ hs.current), hs'.dir_page mem_cons_self⟩
  destroy d hd := ⟨hs.dir_page hd, fun i hi hp => hs.table_page hd (by omega) hp⟩

/-! ## The last entry of the boot directory -/

/-- **`paging_init`** leaves a directory that names itself. -/
theorem pagingInit_recursive {s0 : Paging D} {syms : LinkerSymbols} (hs : s0.pmm.Inv)
    (hport : s0.swap.swapPort = none) (hsyms : LinkerSymbols.Placed syms)
    (hrun : s0.pagingInit syms = .ok s) : s.Recursive := by
  refine pagingInit_induct hs hport hsyms (fun t own hinit ht _ => ?_)
    (fun t t' own own' virt phys flags hrec ht hv hm => ?_) hrun
  · have haligned := ht.dir_aligned _ (mem_singleton_self _)
    have hmanaged := ht.managed
      (by rw [ht.dir_own _ (mem_singleton_self _)]; exact Role.noConfusion)
    have htotal := ht.pmm.total_le
    have hlt : t.currentPd < 4294967296 := by omega
    rw [initDirectory] at hinit
    rcases halloc : s0.allocFrameZero with e | ⟨u, pd⟩ <;> rw [halloc] at hinit
    · cases hinit
    cases hinit
    have hlast := setRecursive_last { u with currentPd := pd } haligned hlt
    rw [Recursive]
    change (setRecursive { u with currentPd := pd } pd).entry pd 1023 % 2 = 1 ∧
      (setRecursive { u with currentPd := pd } pd).entry pd 1023 / 4096 = pd / 4096
    change (setRecursive { u with currentPd := pd } pd).entry pd 1023 = pd + 3 at hlast
    change pd % 4096 = 0 at haligned
    rw [hlast]
    omega
  · -- the mappings are below the last entry
    rw [Recursive, hm.currentPd, hm.entry_eq _ (mem_singleton_self _) 1023 (by decide) (by omega)]
    exact hrec

end Paging

/-! ## Runs under the boot directory -/

/-- The boot directory stays loaded and nothing is mapped below 16 MiB or through the last entry;
frames freed were held, and nothing is evicted. -/
def Kernel.Direct (a : Kernel D) : KernelCall → Prop
  | .pmmAlloc => True
  | .pmmFree phys => phys / 4096 ∈ a.held
  | .map virt _ _ => 0x1000000 ≤ virt ∧ virt < 0xFFC00000 ∧ a.paging.RoomFor 1
  | .kmalloc want => want ≤ heapSize ∧ Unevicted a.heap want
  | .fault cr2 _ => cr2 < 0xFFC00000 ∧
      a.paging.pte a.paging.currentPd (pdIndex cr2) (ptIndex cr2) % 2 ≠ 1 ∧ a.paging.RoomFor 2
  | .create => a.paging.RoomFor 1
  | .switch pd => pd = a.boot
  | _ => False

variable [Disk D] {a b : Kernel D} {own : ℕ → Role}

namespace Kernel

omit [Disk D] in
/-- The identity map is in place and the boot directory loaded. -/
structure DirectInv (a : Kernel D) (own : ℕ → Role) : Prop extends a.Inv
    (fun _ _ => False) own where
  loaded : a.paging.currentPd = a.boot
  direct : a.paging.DirectInv a.live own

omit [Disk D] in
theorem DirectInv.kept (hs : a.DirectInv own) {own' : ℕ → Role}
    (hinv : b.Inv (fun _ _ => False) own') (hboot : b.boot = a.boot)
    (hlive : ∀ d ∈ a.live, d ∈ b.live) (hcur : b.paging.currentPd = a.paging.currentPd)
    (htotal : b.paging.pmm.totalFrames = a.paging.pmm.totalFrames)
    (hpte : ∀ i < 4, ∀ j < 1024, b.paging.pte a.paging.currentPd i j =
      a.paging.pte a.paging.currentPd i j)
    (hlast : b.paging.entry a.paging.currentPd 1023 = a.paging.entry a.paging.currentPd 1023) :
    b.DirectInv own' :=
  ⟨hinv, by rw [hcur, hboot]; exact hs.loaded,
    hs.direct.kept hinv.pages.toTableInv hlive hcur htotal hpte hlast⟩

theorem DirectInv.map (hs : a.DirectInv own) (hlo : 0x1000000 ≤ virt)
    (hhi : virt < 0xFFC00000) (hroom : a.paging.RoomFor 1)
    (h : a.exec (.map virt phys flags) = .ok b) : ∃ own', b.DirectInv own' := by
  simp only [exec] at h
  rcases hrun : a.paging.pagingMap virt phys flags with e | p <;> rw [hrun] at h
  · cases h
  cases h
  have hpd : 4 ≤ pdIndex virt ∧ pdIndex virt < 1023 := by
    rw [pdIndex]
    omega
  obtain ⟨own', hm⟩ := hs.pages.toTableInv.mapped_of_room hs.current hpd.2 hroom hrun
  have hinv := hs.withPaging ⟨hm.inv, fun _ _ _ _ _ _ he => he.elim⟩ hm.currentPd
    (hm.hand.1 ▸ hs.hand) hm.range fun f hf =>
      (hm.own_kept f (hs.held_ne_free hf)).trans (hs.held_own f hf).1
  exact ⟨own', hs.kept (hinv.dropHeld _) rfl (fun _ => id) hm.currentPd hm.range.2
    (fun i hi j hj => hm.pte_other _ hs.current i (by omega) j hj (by omega))
    (hm.entry_eq _ hs.current _ (by decide) (by omega))⟩

theorem DirectInv.fault (hs : a.DirectInv own) (hcr2 : cr2 < 0xFFC00000)
    (habsent : a.paging.pte a.paging.currentPd (pdIndex cr2) (ptIndex cr2) % 2 ≠ 1)
    (hroom : a.paging.RoomFor 2) (h : a.exec (.fault cr2 errCode) = .ok b) :
    ∃ own', b.DirectInv own' := by
  simp only [exec] at h
  rcases hrun : a.paging.pageFaultHandler cr2 errCode with e | p <;> rw [hrun] at h
  · cases h
  cases h
  -- the first 16 MiB are present, so the fault is above
  have hhigh : ¬ cr2 < 16777216 := fun hlow => habsent (hs.direct.direct.mapped hlow).1
  have hpd : 4 ≤ pdIndex cr2 ∧ pdIndex cr2 < 1023 := by
    rw [pdIndex]
    omega
  obtain ⟨own', hserved⟩ := hs.pages.toTableInv.fault_of_room hs.current hcr2 hroom hrun
  have hinv := hs.withPaging ⟨hserved.inv, fun _ _ _ _ _ _ he => he.elim⟩
    hserved.currentPd (hserved.hand ▸ hs.hand) hserved.range fun f hf =>
      (hserved.own_kept f (hs.held_ne_free hf)).trans (hs.held_own f hf).1
  exact ⟨own', hs.kept hinv rfl (fun _ => id) hserved.currentPd hserved.range.2
    (fun i hi j hj => hserved.pte_other _ hs.current i (by omega) j hj (by omega))
    (hserved.entry_eq _ hs.current _ (by decide) (by omega))⟩

theorem DirectInv.create (hs : a.DirectInv own) (hroom : a.paging.RoomFor 1)
    (h : a.exec .create = .ok b) : ∃ own', b.DirectInv own' := by
  simp only [exec] at h
  rcases hrun : a.paging.pagingCreateDirectory with e | ⟨p, pd⟩ <;> rw [hrun] at h
  · cases h
  cases h
  obtain ⟨f, rfl, hc⟩ := hs.pages.toTableInv.created_of_room hs.current hroom hrun
  have hnew : f * 4096 ∉ a.live := fun hmem =>
    (hs.pages.free_apart ((hs.pages.free_iff f).mp hc.was_free) hmem).1 rfl
  have hinv := hs.addDirectory ⟨hc.inv, fun _ _ _ _ _ _ he => he.elim⟩ hnew hc.currentPd
    (hc.hand.1 ▸ hs.hand) hc.range fun g hg => by
      rw [Paging.update_kept hc.was_free _ g (hs.held_ne_free hg), (hs.held_own g hg).1]
  refine ⟨_, hs.kept hinv rfl (fun d hd => ?_) hc.currentPd hc.range.2
    (fun i hi j hj => hc.pte_eq _ hs.current i (by omega) j hj)
    (hc.entry_eq _ hs.current _ (by decide))⟩
  rcases mem_cons.mp hd with rfl | hd
  · exact mem_cons_self
  · exact mem_cons_of_mem _ (mem_cons_of_mem _ hd)

/-- What one call keeps. -/
theorem DirectInv.step (hs : a.DirectInv own) {c : KernelCall} (hc : a.Direct c)
    (h : a.exec c = .ok b) : ∃ own', b.DirectInv own' := by
  cases c with
  | pmmAlloc =>
    obtain ⟨own', hinv⟩ := hs.pmmAlloc h
    cases h
    have htotal := (pmmAllocFrame_range a.paging.pmm).2
    refine ⟨own', ?_⟩
    split_ifs at hinv ⊢ <;>
      exact hs.kept hinv rfl (fun _ => id) rfl htotal (fun _ _ _ _ => rfl) rfl
  | pmmFree phys =>
    obtain ⟨own', hinv⟩ := hs.pmmFree hc h
    cases h
    exact ⟨own', hs.kept hinv rfl (fun _ => id) rfl (pmmFreeFrame_total _ _)
      (fun _ _ _ _ => rfl) rfl⟩
  | map virt phys flags => exact hs.map hc.1 hc.2.1 hc.2.2 h
  | kmalloc want =>
    obtain ⟨⟨own', hinv⟩, hkept, hlive⟩ := hs.kmalloc hc.1 hc.2 h
    refine ⟨own', hs.kept hinv (cons.inj hlive).1 (fun d hd => hlive ▸ hd) hkept.currentPd
      hkept.range.2 (fun i hi j hj => hkept.pte_user _ hs.current i (by omega) j hj)
      (hkept.entry_user _ hs.current _ (by decide) (.inr rfl))⟩
  | fault cr2 errCode => exact hs.fault hc.1 hc.2.1 hc.2.2 h
  | create => exact hs.create hc h
  | switch pd =>
    cases h
    have hsame : a.paging.pagingSwitchDirectory pd = a.paging := by
      rw [Paging.pagingSwitchDirectory, if_pos (hc.trans hs.loaded.symm)]
    rw [hsame]
    exact ⟨own, hs⟩
  | _ => exact hc.elim

end Kernel

theorem CallStart.directInv {syms : Paging.LinkerSymbols} (h : CallStart syms a)
    (hlow : a.paging.pmm.totalFrames ≤ 4096) : ∃ own, a.DirectInv own := by
  obtain ⟨own, hinv⟩ := h.inv
  obtain ⟨connected, hpmm, hsyms, hrun⟩ := h
  have hstart := Paging.pagingInit_started (pmmInit_inv hpmm) rfl hsyms hrun
  have hrec := Paging.pagingInit_recursive (pmmInit_inv hpmm) rfl hsyms hrun
  refine ⟨own, ⟨hinv.sound, ⟨hinv.pages.toTableInv, fun _ _ _ _ _ _ he => he.elim⟩, hinv.nodup,
    hinv.current, hinv.hand, hinv.held_nodup, hinv.held_own⟩, rfl, hinv.pages.toTableInv,
    hinv.current, hlow, fun k hk => ?_, hrec⟩
  have hword := hstart.identity k hk
  constructor
  · exact (congrArg (· % 2) hword).trans (pageEntry_mod_two _ _)
  · exact (congrArg (· / 4096) hword).trans ((pageEntry_div (by omega)).trans (by omega))

/-- **The kernel reaches its memory**: with no frame above 16 MiB, in every run that leaves the
identity map alone, all that the paging code dereferences is mapped to itself. -/
theorem kernel_reaches_memory {syms : Paging.LinkerSymbols} (hstart : CallStart syms a)
    (hlow : a.paging.pmm.totalFrames ≤ 4096) (hrun : CallRun Kernel.Direct a b)
    (hroom : b.paging.RoomFor 1) : b.paging.Reaches b.live ∧
      ∀ addr, 0x100000 ≤ addr → addr < syms.kernelEnd → b.paging.DirectMapped addr := by
  obtain ⟨own, hs⟩ : ∃ own, b.DirectInv own :=
    hrun.induct (I := fun b => ∃ own, b.DirectInv own) (hstart.directInv hlow)
      fun _ _ _ ⟨_, hb⟩ hc hexec => hb.step hc hexec
  obtain ⟨-, -, hsyms, -⟩ := hstart
  exact ⟨hs.direct.reaches hroom, fun addr _ hend =>
    hs.direct.direct.mapped (hend.trans_le hsyms.kernelEnd)⟩

/-- A new directory on the small machine. -/
theorem exists_small_directory (disk : D) :
    ∃ a b : Kernel D, ∃ d, CallStart Paging.smallImage a ∧ a.paging.pmm.totalFrames = 292 ∧
      a.exec .create = .ok b ∧ a.Direct .create ∧ b.paging.RoomFor 1 ∧ d ∈ b.live ∧
      ∀ i < 768, b.paging.entry d i = 0 := by
  obtain ⟨a, ha, -, -, -, -, hcard, htotal⟩ := exists_small_kernel disk fun _ => false
  obtain ⟨own, hs⟩ := ha.inv
  obtain ⟨p, f, hrun, hf, hc⟩ := hs.pages.toTableInv.pagingCreateDirectory hs.current
    (Finset.card_pos.mp (by omega))
  have hexec : a.exec .create = .ok { a.withPaging p with dirs := f * 4096 :: a.dirs } := by
    simp only [Kernel.exec, hrun]
  refine ⟨a, _, f * 4096, ha, htotal, hexec, .inr ?_, .inr ?_,
    mem_cons_of_mem _ mem_cons_self, hc.user⟩
  · rw [hs.pages.pmm.count]
    omega
  · change 1 ≤ p.pmm.freeFrames
    rw [hc.inv.pmm.count, hc.taken, Finset.card_erase_of_mem hf]
    omega

/-- After `paging_create_directory` the image is still mapped to itself, in the boot
directory. -/
theorem kernel_reaches_memory_create :
    ∃ a b : Kernel DiskImage, CallRun Kernel.Direct a b ∧ b.dirs ≠ [] ∧ b.paging.Reaches b.live ∧
      b.paging.DirectMapped 0x100000 := by
  obtain ⟨a, b, d, ha, htotal, hexec, hdirect, hroom, hd, -⟩ :=
    exists_small_directory (D := DiskImage) fun _ _ _ => 0
  have hrun : CallRun Kernel.Direct a b := .call .start hdirect hexec
  obtain ⟨hreach, himage⟩ := kernel_reaches_memory ha (htotal.trans_le (by decide)) hrun hroom
  refine ⟨a, b, hrun, ?_, hreach, himage _ le_rfl (by decide)⟩
  simp only [Kernel.exec] at hexec
  split at hexec
  · cases hexec
  · cases hexec
    exact cons_ne_nil _ _

/-- In the new directory the code that is running is not mapped. -/
theorem image_unmapped_after_switch :
    ∃ a b c : Kernel DiskImage, CallStart Paging.smallImage a ∧ a.exec .create = .ok b ∧
      ∃ d ∈ b.live, b.exec (.switch d) = .ok c ∧ 0x100000 < Paging.smallImage.kernelEnd ∧
        ¬ c.paging.DirectMapped 0x100000 := by
  obtain ⟨a, b, d, ha, -, hexec, -, -, hd, hempty⟩ :=
    exists_small_directory (D := DiskImage) fun _ _ _ => 0
  refine ⟨a, b, _, ha, hexec, d, hd, rfl, by decide, fun h => ?_⟩
  have hp := h.1
  rw [Kernel.withPaging, Paging.pagingSwitchDirectory_eq] at hp
  have habsent : b.paging.pte d 0 256 = 0 :=
    Paging.pte_of_absent (by rw [hempty 0 (by decide)]; decide) 256
  change b.paging.pte d 0 256 % 2 = 1 at hp
  rw [habsent] at hp
  cases hp

end PenOS
