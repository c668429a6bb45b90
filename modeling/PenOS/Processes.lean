import PenOS.PagingStart
import PenOS.PageFault
import PenOS.Teardown

/-!
# Address spaces of processes

The directories of `paging_create_directory` are switched to, get pages by faults, are swapped and
destroyed; a frame has one use at most. Nothing is evicted from the boot directory.
-/

namespace PenOS

open List

variable {boot cr2 i j k pd : ℕ} {live : List ℕ}

/-- The machine with the directory of `paging_init` and those of processes. -/
structure Processes (D : Type) where
  paging : Paging D
  boot : ℕ
  dirs : List ℕ

namespace Paging

variable {D : Type}

/-- The processor has used a page: it sets the Accessed bit, and the Dirty bit for a write. -/
def touch (s : Paging D) (i j : ℕ) (dirty : Bool) : Paging D :=
  s.setEntry (s.entry s.currentPd i / 4096 * 4096) j
    (s.pte s.currentPd i j ||| if dirty then 0x60 else 0x20)

/-- A byte of a page of the current directory is written. -/
def writeByte (s : Paging D) (i j k : ℕ) (b : UInt8) : Paging D :=
  { s with mem := Function.update s.mem (s.pte s.currentPd i j / 4096 * 4096 + k) b }

end Paging

variable {D : Type} [Disk D]

/-- One event in the life of processes. -/
inductive ProcessStep : Processes D → Processes D → Prop where
  /-- `paging_create_directory()`, in a process or with a frame at hand -/
  | create {a : Processes D} {s : Paging D} {pd : ℕ}
      (hroom : a.paging.currentPd ∈ a.dirs ∨ a.paging.pmm.freeFrames ≠ 0)
      (h : a.paging.pagingCreateDirectory = .ok (s, pd)) :
      ProcessStep a { a with paging := s, dirs := pd :: a.dirs }
  /-- `paging_switch_directory(pd)` -/
  | switch {a : Processes D} {pd : ℕ} (hpd : pd ∈ a.boot :: a.dirs) :
      ProcessStep a { a with paging := a.paging.pagingSwitchDirectory pd }
  /-- a fault at a user address that is not present: demand paging, or a page comes back -/
  | fault {a : Processes D} {s : Paging D} {cr2 errCode : ℕ} (hcur : a.paging.currentPd ∈ a.dirs)
      (hcr2 : cr2 < kernelVirtBase)
      (habsent : a.paging.pte a.paging.currentPd (pdIndex cr2) (ptIndex cr2) % 2 ≠ 1)
      (h : a.paging.pageFaultHandler cr2 errCode = .ok s) :
      ProcessStep a { a with paging := s }
  /-- `paging_swap_out(virt)` of a user address -/
  | swapOut {a : Processes D} {virt : ℕ} (hcur : a.paging.currentPd ∈ a.dirs)
      (hvirt : virt < kernelVirtBase) :
      ProcessStep a { a with paging := (a.paging.pagingSwapOut virt).1 }
  /-- `paging_evict_page()` -/
  | evict {a : Processes D} (hcur : a.paging.currentPd ∈ a.dirs) :
      ProcessStep a { a with paging := a.paging.pagingEvictPage.1 }
  /-- `paging_destroy_directory(pd)`, refused for the current one -/
  | destroy {a : Processes D} {pd : ℕ} (hpd : pd ∈ a.dirs) :
      ProcessStep a { a with
        paging := a.paging.pagingDestroyDirectory pd
        dirs := if pd = a.paging.currentPd then a.dirs else a.dirs.erase pd }
  /-- the processor sets bits of a present page-table word -/
  | touch {a : Processes D} {i j : ℕ} (dirty : Bool) (hcur : a.paging.currentPd ∈ a.dirs)
      (hi : i < 768) (hj : j < 1024) (hp : a.paging.pte a.paging.currentPd i j % 2 = 1) :
      ProcessStep a { a with paging := a.paging.touch i j dirty }
  /-- a byte of a present page is written -/
  | write {a : Processes D} {i j k : ℕ} (b : UInt8) (hcur : a.paging.currentPd ∈ a.dirs)
      (hi : i < 768) (hj : j < 1024) (hk : k < 4096)
      (hp : a.paging.pte a.paging.currentPd i j % 2 = 1) :
      ProcessStep a { a with paging := a.paging.writeByte i j k b }

/-- Any number of events. -/
abbrev ProcessRun : Processes D → Processes D → Prop := Relation.ReflTransGen ProcessStep

/-- After `paging_init`, with swap space or without: no process yet. -/
inductive ProcessStart : Processes D → Prop where
  | mk {fuel kernelEnd : ℕ} {mbInfo : Option MultibootInfo} {pmm : Pmm} {mem : Mem} {disk : D}
      {syms : Paging.LinkerSymbols} {s : Paging D} (swap : Swap D)
      (hpmm : pmmInit fuel kernelEnd mbInfo = some pmm) (hsyms : LinkerSymbols.Placed syms)
      (h : (Paging.boot pmm mem disk).pagingInit syms = .ok s) :
      ProcessStart ⟨{ s with swap := swap }, s.currentPd, []⟩

/-! ## The invariant -/

omit [Disk D] in
/-- Frames have the roles of directories, tables and pages. -/
structure Processes.Inv (a : Processes D) (own : ℕ → Role) : Prop where
  pages : a.paging.PageInv a.boot (a.boot :: a.dirs) own
  nodup : (a.boot :: a.dirs).Nodup
  current : a.paging.currentPd ∈ a.boot :: a.dirs
  hand : a.paging.evictPdIdx < 768

variable {a b : Processes D} {own : ℕ → Role}

omit [Disk D] in
/-- A process directory is not the boot directory. -/
theorem Processes.Inv.ne_boot (hs : a.Inv own) {d : ℕ} (hd : d ∈ a.dirs) : d ≠ a.boot := by
  rintro rfl
  exact (List.nodup_cons.mp hs.nodup).1 hd

omit [Disk D] in
theorem Paging.Started.pageInv {s0 s : Paging D} (h : Started s0 s 4096) :
    ∃ own, s.PageInv s.currentPd [s.currentPd] own := by
  obtain ⟨own, hinv⟩ := h.inv
  refine ⟨own, hinv, fun d hd i hi j hj he hp => absurd hp ?_⟩
  obtain rfl := List.mem_singleton.mp hd
  rcases he with ⟨hlo, hne | hi4⟩ | ⟨hlo, -⟩
  · exact absurd rfl hne
  · rw [h.unmapped i hlo j hj (by omega)]
    decide
  · intro hp
    have := h.tables i (by omega) hi (Paging.entry_of_pte hp)
    omega

theorem ProcessStart.inv (h : ProcessStart a) : ∃ own, a.Inv own := by
  obtain ⟨swap, hpmm, hsyms, hrun⟩ := h
  have hstart := Paging.pagingInit_started (pmmInit_inv hpmm) rfl hsyms hrun
  obtain ⟨own, hpages⟩ := hstart.pageInv
  exact ⟨own, hpages.congr rfl rfl, nodup_singleton _, mem_singleton_self _,
    hstart.hand.1.trans_lt (show 0 < 768 by decide)⟩

theorem Processes.Inv.create (hs : a.Inv own)
    (hroom : a.paging.currentPd ∈ a.dirs ∨ a.paging.pmm.freeFrames ≠ 0) {s : Paging D}
    (h : a.paging.pagingCreateDirectory = .ok (s, pd)) :
    ∃ own', { a with paging := s, dirs := pd :: a.dirs }.Inv own' := by
  have hroom' : a.paging.Room a.boot := hroom.symm.imp hs.pages.pmm.nonempty hs.ne_boot
  obtain ⟨s1, own1, f, hev, -, rfl, hc⟩ := hs.pages.createDirectory_ok hs.current hs.hand hroom' h
  have hpages := hc.pageInv hev.inv (hev.currentPd ▸ hs.current)
  have hcur := hc.currentPd.trans hev.currentPd
  have hnew : f * 4096 ∉ a.boot :: a.dirs := fun hmem =>
    (hev.inv.free_apart ((hev.inv.free_iff f).mp hc.was_free) hmem).1 rfl
  refine ⟨_, hpages.subset fun d hd => ?_, ?_, ?_, ?_⟩
  · simp only [mem_cons] at hd ⊢
    tauto
  · exact (List.Perm.swap _ _ _).nodup_iff.mp (List.nodup_cons.mpr ⟨hnew, hs.nodup⟩)
  · have hmem := hs.current
    rw [hcur]
    simp only [mem_cons] at hmem ⊢
    tauto
  · rw [hc.hand.1]
    exact hev.hand hs.hand

omit [Disk D] in
theorem Processes.Inv.switch (hs : a.Inv own) (hpd : pd ∈ a.boot :: a.dirs) :
    { a with paging := a.paging.pagingSwitchDirectory pd }.Inv own := by
  rw [Paging.pagingSwitchDirectory_eq]
  exact ⟨hs.pages.congr rfl rfl, hs.nodup, hpd, hs.hand⟩

theorem Processes.Inv.fault (hs : a.Inv own) {s : Paging D} {errCode : ℕ}
    (hcur : a.paging.currentPd ∈ a.dirs) (hcr2 : cr2 < kernelVirtBase)
    (h : a.paging.pageFaultHandler cr2 errCode = .ok s) :
    ∃ own', { a with paging := s }.Inv own' := by
  have hbase := kernelVirtBase_eq
  obtain ⟨own', hpages, hcur', hhand⟩ := hs.pages.pageFault_ok hs.current hs.hand
    (Or.inl (hs.ne_boot hcur)) (by omega) h
  exact ⟨own', hpages, hs.nodup, by rw [hcur']; exact hs.current, hhand⟩

/-- Whatever eviction does in a process. -/
theorem Processes.Inv.evictSteps (hs : a.Inv own) (hcur : a.paging.currentPd ∈ a.dirs)
    {s : Paging D} (h : Paging.EvictSteps a.paging s) :
    ∃ own', { a with paging := s }.Inv own' := by
  obtain ⟨own', hev⟩ := hs.pages.evictSteps hs.current (hs.ne_boot hcur) h
  exact ⟨own', hev.inv, hs.nodup, by rw [hev.currentPd]; exact hs.current, hev.hand hs.hand⟩

theorem Paging.evictStep_of_user {s : Paging D} {virt : ℕ} (hvirt : virt < kernelVirtBase) :
    EvictStep s (s.pagingSwapOut virt).1 := by
  have hbase := kernelVirtBase_eq
  have hpd : pdIndex virt < 768 := by
    rw [pdIndex]
    omega
  rcases pagingSwapOut_cases (s := s) (show virt < 4294967296 by omega) with
    ⟨disk, hdisk, hout, -⟩ | ⟨s', slot, port, hout, h⟩
  · rw [hout]
    exact .failed disk hdisk
  · rw [hout]
    exact .swapped _ _ slot port hpd (ptIndex_lt virt) h

section

omit [Disk D]

theorem Processes.Inv.destroy (hs : a.Inv own) (hpd : pd ∈ a.dirs) : ∃ own', { a with
      paging := a.paging.pagingDestroyDirectory pd
      dirs := if pd = a.paging.currentPd then a.dirs else a.dirs.erase pd }.Inv own' := by
  by_cases hcur : pd = a.paging.currentPd
  · rw [if_pos hcur, Paging.pagingDestroyDirectory, if_pos hcur]
    exact ⟨own, hs⟩
  · rw [if_neg hcur, Paging.pagingDestroyDirectory_eq hcur]
    have hlive : pd ∈ a.boot :: a.dirs := mem_cons_of_mem _ hpd
    have herase : (a.boot :: a.dirs).erase pd = a.boot :: a.dirs.erase pd :=
      erase_cons_tail (by simpa using (hs.ne_boot hpd).symm)
    obtain ⟨own', hpages, -⟩ := hs.pages.destroy hs.nodup hlive (hs.ne_boot hpd)
    rw [herase] at hpages
    refine ⟨own', hpages, herase ▸ hs.nodup.erase pd, ?_, hs.hand⟩
    rw [← herase]
    exact (mem_erase_of_ne (Ne.symm hcur)).mpr hs.current

/-- The bits the processor sets keep presence and frame. -/
theorem touch_word {e : ℕ} (he : e < 4294967296) (dirty : Bool) :
    u32 (e ||| if dirty then 0x60 else 0x20) / 4096 = e / 4096 ∧
      u32 (e ||| if dirty then 0x60 else 0x20) % 2 = e % 2 := by
  obtain ⟨m, hm, hlt, heven⟩ : ∃ m,
      (if dirty then 0x60 else 0x20) = m ∧ m < 2 ^ 12 ∧ m % 2 = 0 := by
    cases dirty
    · exact ⟨0x20, rfl, by decide, rfl⟩
    · exact ⟨0x60, rfl, by decide, rfl⟩
  rw [hm, u32_of_lt (Nat.or_lt_two_pow he (by omega : m < 2 ^ 32))]
  have hdiv : (e ||| m) / 4096 = e / 4096 := or_div_of_lt e hlt
  have hodd : (e ||| m) % 2 = 1 ↔ e % 2 = 1 ∨ m % 2 = 1 := Nat.or_mod_two_eq_one
  refine ⟨hdiv, ?_⟩
  omega

theorem Paging.PageInv.touch {s : Paging D}
    (hs : s.PageInv boot live own) (hcur : s.currentPd ∈ live) (dirty : Bool)
    (hi : i < 768) (hj : j < 1024) (hp : s.pte s.currentPd i j % 2 = 1) :
    (s.touch i j dirty).PageInv boot live own := by
  refine hs.setPte hcur (by omega) hj (Paging.entry_of_pte hp) fun _ he => ?_
  rw [(touch_word (s.pte_lt _ _ _) dirty).1]
  exact hs.page_own _ hcur i (by omega) j hj he hp

/-- A byte of a user page is in no directory and no table. -/
theorem Paging.PageInv.writeByte {s : Paging D}
    (hs : s.PageInv boot live own) (hcur : s.currentPd ∈ live) (hboot : s.currentPd ≠ boot)
    (b : UInt8) (hi : i < 768) (hj : j < 1024) (hk : k < 4096)
    (hp : s.pte s.currentPd i j % 2 = 1) : (s.writeByte i j k b).PageInv boot live own := by
  refine And.left (hs.of_bytes rfl fun x hx => Function.update_of_ne ?_ _ _)
  rintro rfl
  refine hx ?_
  rw [show (s.pte s.currentPd i j / 4096 * 4096 + k) / 4096 = s.pte s.currentPd i j / 4096 by omega,
    hs.page_own _ hcur i (by omega) j hj (Paging.exclusive_user hboot hi) hp]
  exact pageRole_loose _ _ _ _

theorem Processes.Inv.touch (hs : a.Inv own) (dirty : Bool) (hi : i < 768)
    (hj : j < 1024) (hp : a.paging.pte a.paging.currentPd i j % 2 = 1) :
    { a with paging := a.paging.touch i j dirty }.Inv own :=
  ⟨hs.pages.touch hs.current dirty hi hj hp, hs.nodup, hs.current, hs.hand⟩

theorem Processes.Inv.write (hs : a.Inv own) (b : UInt8)
    (hcur : a.paging.currentPd ∈ a.dirs) (hi : i < 768) (hj : j < 1024) (hk : k < 4096)
    (hp : a.paging.pte a.paging.currentPd i j % 2 = 1) :
    { a with paging := a.paging.writeByte i j k b }.Inv own :=
  ⟨hs.pages.writeByte hs.current (hs.ne_boot hcur) b hi hj hk hp, hs.nodup, hs.current, hs.hand⟩

end

/-- What one event preserves. -/
theorem Processes.Inv.step (hs : a.Inv own) (h : ProcessStep a b) : ∃ own', b.Inv own' := by
  cases h with
  | create hroom h => exact hs.create hroom h
  | switch hpd => exact ⟨own, hs.switch hpd⟩
  | fault hcur hcr2 _ h => exact hs.fault hcur hcr2 h
  | swapOut hcur hvirt => exact hs.evictSteps hcur (.single (Paging.evictStep_of_user hvirt))
  | evict hcur => exact hs.evictSteps hcur (Paging.evictLoop_steps _ hs.hand).1
  | destroy hpd => exact hs.destroy hpd
  | touch dirty hcur hi hj hp => exact ⟨own, hs.touch dirty hi hj hp⟩
  | write b hcur hi hj hk hp => exact ⟨own, hs.write b hcur hi hj hk hp⟩

/-- What a run preserves. -/
theorem Processes.Inv.run (hs : a.Inv own) (h : ProcessRun a b) : ∃ own', b.Inv own' := by
  induction h with
  | refl => exact ⟨own, hs⟩
  | tail _ hstep ih =>
    obtain ⟨own', hs'⟩ := ih
    exact hs'.step hstep

/-! ## One use for a frame -/

/-- The uses of a frame. -/
inductive FrameUse : Type where
  | free : FrameUse
  | directory (d : ℕ) : FrameUse
  /-- the table behind user entry `i` of `d` -/
  | table (d i : ℕ) : FrameUse
  /-- the page behind word `j` of that table -/
  | page (d i j : ℕ) : FrameUse
  deriving DecidableEq

omit [Disk D] in
/-- Frame `f` has this use. -/
def Processes.Uses (a : Processes D) (f : ℕ) : FrameUse → Prop
  | .free => f ∈ a.paging.pmm.freeSet
  | .directory d => d ∈ a.dirs ∧ d = f * 4096
  | .table d i => d ∈ a.dirs ∧ i < 768 ∧ a.paging.entry d i % 2 = 1 ∧
      a.paging.entry d i / 4096 = f
  | .page d i j => d ∈ a.dirs ∧ i < 768 ∧ j < 1024 ∧ a.paging.pte d i j % 2 = 1 ∧
      a.paging.pte d i j / 4096 = f

/-- The role that goes with a use. -/
def FrameUse.role : FrameUse → Role
  | .free => .free
  | .directory _ => .directory
  | .table d i => .userTable d i
  | .page d i j => .userPage d i j

omit [Disk D] in
theorem Processes.Inv.role (hs : a.Inv own) {f : ℕ} {u : FrameUse} (h : a.Uses f u) :
    own f = u.role := by
  cases u with
  | free => exact (hs.pages.free_iff f).mpr h
  | directory d =>
    obtain ⟨hd, rfl⟩ := h
    have hdir := hs.pages.dir_own _ (mem_cons_of_mem _ hd)
    rwa [frame_div] at hdir
  | table d i =>
    obtain ⟨hd, hi, hp, rfl⟩ := h
    rw [hs.pages.table_own d (mem_cons_of_mem _ hd) i (by omega) hp, tableRole, if_pos hi]
    rfl
  | page d i j =>
    obtain ⟨hd, hi, hj, hp, rfl⟩ := h
    rw [hs.pages.page_own d (mem_cons_of_mem _ hd) i (by omega) j hj
      (Paging.exclusive_user (hs.ne_boot hd) hi) hp, pageRole, if_pos hi]
    rfl

/-- **Processes do not share frames**: in every run a frame is free, a directory, a user table, or
the page of one word, and only one of these. -/
theorem frame_has_one_use (hstart : ProcessStart a) (hrun : ProcessRun a b) {f : ℕ}
    {u u' : FrameUse} (h : b.Uses f u) (h' : b.Uses f u') : u = u' := by
  obtain ⟨own, hs⟩ := hstart.inv
  obtain ⟨own', hs'⟩ := hs.run hrun
  have hrole : u.role = u'.role := (hs'.role h).symm.trans (hs'.role h')
  cases u <;> cases u' <;> cases hrole
  case directory.directory d d' =>
    obtain ⟨-, rfl⟩ := h
    obtain ⟨-, rfl⟩ := h'
    rfl
  all_goals rfl

/-! ## A small run -/

theorem exists_process (swap : Swap D) (disk : D) :
    ∃ (a b : Processes D) (own : ℕ → Role) (d : ℕ), ProcessStart a ∧ ProcessRun a b ∧ b.Inv own ∧
      b.dirs = [d] ∧ b.paging.currentPd = d ∧ b.paging.swap = swap ∧
      22 ≤ b.paging.pmm.freeSet.card ∧ ∀ i < 768, b.paging.entry d i = 0 := by
  obtain ⟨pmm, s, hpmm, hrun, hstart, hleft⟩ := Paging.exists_small_start (fun _ => 0) disk
  obtain ⟨a, ha, hpaging, hdirs⟩ : ∃ a : Processes D, ProcessStart a ∧
      a.paging = { s with swap := swap } ∧ a.dirs = [] :=
    ⟨_, .mk swap hpmm Paging.smallImage_placed hrun, rfl, rfl⟩
  obtain ⟨own, hs⟩ := ha.inv
  have hcard : 23 ≤ a.paging.pmm.freeSet.card := by rw [hpaging]; exact hleft
  obtain ⟨s1, f, hcreate, hf, hc⟩ := hs.pages.toTableInv.pagingCreateDirectory hs.current
    (Finset.card_pos.mp (by omega))
  have hstep := ProcessStep.create (Or.inr (by rw [hs.pages.pmm.count]; omega)) hcreate
  obtain ⟨own1, hs1⟩ := hs.step hstep
  have hmem : f * 4096 ∈ a.boot :: f * 4096 :: a.dirs :=
    mem_cons_of_mem _ mem_cons_self
  refine ⟨a, _, own1, f * 4096, ha, (Relation.ReflTransGen.single hstep).tail (.switch hmem),
    hs1.switch hmem, by rw [hdirs], ?_, ?_, ?_, ?_⟩ <;>
    rw [Paging.pagingSwitchDirectory_eq]
  · exact hc.swap.trans (by rw [hpaging])
  · change 22 ≤ s1.pmm.freeSet.card
    rw [hc.taken, Finset.card_erase_of_mem hf]
    omega
  · exact hc.user

theorem Processes.Inv.exists_fault (hs : a.Inv own) (hcur : a.paging.currentPd ∈ a.dirs)
    (hcr2 : cr2 < kernelVirtBase) (hcard : 2 ≤ a.paging.pmm.freeSet.card)
    (hword : a.paging.pte a.paging.currentPd (pdIndex cr2) (ptIndex cr2) = 0) :
    ∃ (b : Processes D) (own' : ℕ → Role) (g : ℕ), ProcessStep a b ∧ b.Inv own' ∧
      b.dirs = a.dirs ∧ b.paging.currentPd = a.paging.currentPd ∧ b.paging.swap = a.paging.swap ∧
      a.paging.pmm.freeSet.card ≤ b.paging.pmm.freeSet.card + 2 ∧
      b.paging.pte a.paging.currentPd (pdIndex cr2) (ptIndex cr2) = pageEntry (g * 4096) 7 := by
  have hbase := kernelVirtBase_eq
  have hlt : cr2 < 4294967296 := by omega
  have hpd : pdIndex (cr2 &&& 0xFFFFF000) < 1023 := by
    rw [Paging.pdIndex_page hlt, pdIndex]
    omega
  obtain ⟨s', hmap, hswap, hleft⟩ := hs.pages.mapFresh_of_free hs.current hpd hcard
  obtain ⟨_, _, _, _, _, _, g, hnew⟩ :=
    hs.pages.mapFresh_ok hs.current hs.hand (Or.inr hcard) hpd hmap
  have hfault : a.paging.pageFaultHandler cr2 4 = .ok s' := by
    rw [Paging.pageFaultHandler_eq hlt, hword, if_neg (by decide), if_pos (by decide)]
    exact hmap
  have hstep := ProcessStep.fault hcur hcr2 (by rw [hword]; decide) hfault
  obtain ⟨own', hs'⟩ := hs.step hstep
  have hpte := hnew.pte_virt hs.current
  rw [Paging.pdIndex_page hlt, Paging.ptIndex_page hlt] at hpte
  exact ⟨_, own', g, hstep, hs', rfl, hnew.currentPd, hswap, hleft, hpte⟩

/-- A process with one page: its frame is not free. -/
theorem frame_has_one_use_page :
    ∃ (a b : Processes DiskImage) (d f : ℕ), ProcessStart a ∧ ProcessRun a b ∧
      b.Uses f (.page d 1 0) ∧ ¬ b.Uses f .free := by
  obtain ⟨a, b, own, d, ha, hrun, hs, hdirs, hcur, -, hcard, hempty⟩ :=
    exists_process (D := DiskImage) ⟨fun _ => 0#8, none, fun _ _ _ => 0⟩ (fun _ _ _ => 0)
  have hmem : b.paging.currentPd ∈ b.dirs := by rw [hcur, hdirs]; exact mem_singleton_self d
  have hword : b.paging.pte b.paging.currentPd 1 0 = 0 := by
    rw [hcur]
    exact Paging.pte_of_absent (by rw [hempty 1 (by decide)]; decide) 0
  obtain ⟨c, -, g, hstep, -, hdirs', hcur', -, -, hpte⟩ :=
    hs.exists_fault hmem (show 0x400000 < kernelVirtBase by decide) (by omega) hword
  have huse : c.Uses (c.paging.pte d 1 0 / 4096) (.page d 1 0) := by
    refine ⟨by rw [hdirs', hdirs]; exact mem_singleton_self d, by decide, by decide, ?_, rfl⟩
    rw [hcur] at hpte
    rw [show c.paging.pte d 1 0 = pageEntry (g * 4096) 7 from hpte]
    exact pageEntry_mod_two _ _
  exact ⟨a, c, d, _, ha, hrun.tail hstep, huse, fun h =>
    FrameUse.noConfusion (frame_has_one_use ha (hrun.tail hstep) huse h)⟩

end PenOS
