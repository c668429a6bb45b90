import PenOS.TaskMemory
import PenOS.HeapLive
import PenOS.WideMachine

/-!
# The memory calls of the kernel

`Kernel.exec` is one call on the whole machine, `CallRun P` are the runs in which every call meets
`P`. Two lists are not in the machine: `dirs`, the directories made and not destroyed, and `held`,
the frames that callers of `pmm_alloc_frame` have and that are mapped nowhere.
-/

namespace PenOS

open List

variable {D : Type}
variable {want : ℕ} {p : Paging D} {own' : ℕ → Role}

/-- The machine, with the directory of `paging_init` and those made since. -/
structure Kernel (D : Type) where
  heap : Heap D
  boot : ℕ
  dirs : List ℕ
  held : List ℕ

/-- A call, or an event the processor reports. -/
inductive KernelCall : Type where
  /-- `pmm_alloc_frame()` -/
  | pmmAlloc : KernelCall
  /-- `pmm_free_frame(phys)` -/
  | pmmFree (phys : ℕ) : KernelCall
  /-- `paging_map(virt, phys, flags)` -/
  | map (virt phys flags : ℕ) : KernelCall
  /-- `paging_unmap(virt)` -/
  | unmap (virt : ℕ) : KernelCall
  /-- `kmalloc(want)` -/
  | kmalloc (want : ℕ) : KernelCall
  /-- `kfree(ptr)` -/
  | kfree (ptr : ℕ) : KernelCall
  /-- a page fault at `cr2` -/
  | fault (cr2 errCode : ℕ) : KernelCall
  /-- `paging_swap_out(virt)` -/
  | swapOut (virt : ℕ) : KernelCall
  /-- `paging_create_directory()` -/
  | create : KernelCall
  /-- `paging_switch_directory(pd)` -/
  | switch (pd : ℕ) : KernelCall
  /-- `paging_destroy_directory(pd)` -/
  | destroy (pd : ℕ) : KernelCall
  deriving DecidableEq

namespace Kernel

/-- The paging layer. -/
abbrev paging (a : Kernel D) : Paging D := a.heap.paging

/-- All directories. -/
def live (a : Kernel D) : List ℕ := a.boot :: a.dirs

/-- The machine with another paging layer. -/
def withPaging (a : Kernel D) (p : Paging D) : Kernel D :=
  { a with heap := { a.heap with paging := p } }

variable [Disk D]

/-- One call. -/
def exec (a : Kernel D) : KernelCall → Except Halt (Kernel D)
  | .pmmAlloc =>
    let out := pmmAllocFrame a.paging.pmm
    let b := a.withPaging { a.paging with pmm := out.1 }
    .ok (if out.2 = 0 then b else { b with held := out.2 / 4096 :: a.held })
  | .pmmFree phys =>
    .ok { a.withPaging { a.paging with pmm := pmmFreeFrame a.paging.pmm phys } with
      held := a.held.erase (phys / 4096) }
  | .map virt phys flags =>
    match a.paging.pagingMap virt phys flags with
    | .error e => .error e
    | .ok p => .ok { a.withPaging p with held := a.held.erase (phys / 4096) }
  | .unmap virt => .ok (a.withPaging (a.paging.pagingUnmap virt))
  | .kmalloc want =>
    match a.heap.kmalloc want with
    | .error e => .error e
    | .ok (h, _) => .ok { a with heap := h }
  | .kfree ptr =>
    match a.heap.kfree ptr with
    | .error e => .error e
    | .ok h => .ok { a with heap := h }
  | .fault cr2 errCode =>
    match a.paging.pageFaultHandler cr2 errCode with
    | .error e => .error e
    | .ok p => .ok (a.withPaging p)
  | .swapOut virt => .ok (a.withPaging (a.paging.pagingSwapOut virt).1)
  | .create =>
    match a.paging.pagingCreateDirectory with
    | .error e => .error e
    | .ok (p, pd) => .ok { a.withPaging p with dirs := pd :: a.dirs }
  | .switch pd => .ok (a.withPaging (a.paging.pagingSwitchDirectory pd))
  | .destroy pd =>
    .ok { a.withPaging (a.paging.pagingDestroyDirectory pd) with
      dirs := if pd = a.paging.currentPd then a.dirs else a.dirs.erase pd }

theorem exec_boot {a b : Kernel D} {c : KernelCall} (h : a.exec c = .ok b) : b.boot = a.boot := by
  cases c with
  | pmmAlloc =>
    cases h
    split <;> rfl
  | pmmFree | unmap | swapOut | switch | destroy =>
    cases h
    rfl
  | map | kmalloc | kfree | fault | create =>
    simp only [exec] at h
    split at h
    · cases h
    · cases h
      rfl

end Kernel

variable [Disk D]

/-- The runs from `a` in which every call meets `P`. -/
inductive CallRun (P : Kernel D → KernelCall → Prop) (a : Kernel D) : Kernel D → Prop where
  | start : CallRun P a a
  | call {b b' : Kernel D} {c : KernelCall} (hrun : CallRun P a b) (hp : P b c)
      (h : b.exec c = .ok b') : CallRun P a b'

/-- After `pmm_init`, `paging_init`, `heap_init` and `swap_init`. -/
inductive CallStart (syms : Paging.LinkerSymbols) : Kernel D → Prop where
  | mk {fuel kernelEnd : ℕ} {mbInfo : Option MultibootInfo} {pmm : Pmm} {mem : Mem} {disk : D}
      {s : Paging D} (connected : ℕ → Bool) (hpmm : pmmInit fuel kernelEnd mbInfo = some pmm)
      (hsyms : LinkerSymbols.Placed syms) (h : (Paging.boot pmm mem disk).pagingInit syms = .ok s) :
      CallStart syms
        ⟨(Heap.boot { s with swap := s.swap.swapInit connected }).heapInit, s.currentPd, [], []⟩

variable {a b : Kernel D} {P Q : Kernel D → KernelCall → Prop}

theorem CallRun.induct {I : Kernel D → Prop} (hrun : CallRun P a b) (h0 : I a)
    (hstep : ∀ b b' c, I b → P b c → b.exec c = .ok b' → I b') : I b := by
  induction hrun with
  | start => exact h0
  | call _ hp h ih => exact hstep _ _ _ ih hp h

/-! ## The roles of frames -/

omit [Disk D] in
/-- The blocks of the heap are in order, the frames have roles, and those that are held have
no other use. -/
structure Kernel.Inv (a : Kernel D) (ex : ℕ → ℕ → Prop) (own : ℕ → Role) : Prop where
  sound : a.heap.Sound
  pages : a.paging.PageInvOn ex a.live own
  nodup : a.live.Nodup
  current : a.paging.currentPd ∈ a.live
  hand : a.paging.evictPdIdx < 768
  held_nodup : a.held.Nodup
  held_own : ∀ f ∈ a.held, own f = .other ∧
    a.paging.pmm.baseUsableFrame ≤ f ∧ f < a.paging.pmm.totalFrames

namespace Kernel.Inv

variable {ex : ℕ → ℕ → Prop} {own : ℕ → Role}

section

variable (hs : a.Inv ex own)

include hs

section

omit [Disk D]

theorem withPaging (hpages : p.PageInvOn ex a.live own') (hcur : p.currentPd = a.paging.currentPd)
    (hhand : p.evictPdIdx < 768) (hrange : p.pmm.baseUsableFrame = a.paging.pmm.baseUsableFrame ∧
      p.pmm.totalFrames = a.paging.pmm.totalFrames)
    (hother : ∀ f ∈ a.held, own' f = .other) : (a.withPaging p).Inv ex own' :=
  ⟨hs.sound.withPaging p, hpages, hs.nodup, by
    change p.currentPd ∈ a.live
    rw [hcur]
    exact hs.current, hhand, hs.held_nodup, fun f hf => by
    change own' f = .other ∧ p.pmm.baseUsableFrame ≤ f ∧ f < p.pmm.totalFrames
    rw [hrange.1, hrange.2]
    exact ⟨hother f hf, (hs.held_own f hf).2⟩⟩

theorem held_ne_free {f : ℕ} (hf : f ∈ a.held) : own f ≠ .free := by
  rw [(hs.held_own f hf).1]
  exact Role.noConfusion

theorem dropHeld (f : ℕ) : { a with held := a.held.erase f }.Inv ex own :=
  ⟨hs.sound, hs.pages, hs.nodup, hs.current, hs.hand, hs.held_nodup.erase f,
    fun g hg => hs.held_own g (mem_of_mem_erase hg)⟩

/-- There is one more directory. -/
theorem addDirectory {pd : ℕ} (hpages : p.PageInvOn ex (pd :: a.live) own') (hnew : pd ∉ a.live)
    (hcur : p.currentPd = a.paging.currentPd) (hhand : p.evictPdIdx < 768)
    (hrange : p.pmm.baseUsableFrame = a.paging.pmm.baseUsableFrame ∧
      p.pmm.totalFrames = a.paging.pmm.totalFrames) (hother : ∀ f ∈ a.held, own' f = .other) :
    { a.withPaging p with dirs := pd :: a.dirs }.Inv ex own' := by
  have hbase := hs.withPaging (hpages.subset fun d => mem_cons_of_mem _) hcur hhand hrange
    hother
  have hperm : (a.boot :: pd :: a.dirs).Perm (pd :: a.boot :: a.dirs) := .swap _ _ _
  refine ⟨hbase.sound, hpages.subset fun d hd => hperm.mem_iff.mp hd,
    hperm.nodup_iff.mpr (List.nodup_cons.mpr ⟨hnew, hs.nodup⟩),
    hperm.mem_iff.mpr (mem_cons_of_mem _ hbase.current), hhand, hs.held_nodup,
    hbase.held_own⟩

end

/-- **`pmm_alloc_frame`** hands a frame to the caller, if there is one. -/
theorem pmmAlloc (h : a.exec .pmmAlloc = .ok b) : ∃ own', b.Inv ex own' := by
  cases h
  by_cases hne : a.paging.pmm.freeSet.Nonempty
  · obtain ⟨f, hfree, haddr, hinv⟩ := hs.pages.toTableInv.pmmAlloc hne
    have hmanaged := hs.pages.managed (f := f) (by rw [hfree]; exact Role.noConfusion)
    have hrange := pmmAllocFrame_range a.paging.pmm
    have hpages : { a.paging with pmm := (pmmAllocFrame a.paging.pmm).1 }.PageInvOn ex a.live
        (Function.update own f .other) :=
      hs.pages.kept hinv (Paging.update_kept hfree _) (fun _ _ _ _ _ _ => rfl) fun _ _ _ _ _ => rfl
    have hbase := hs.withPaging hpages rfl hs.hand hrange fun g hg => by
      rw [Paging.update_kept hfree _ _ (hs.held_ne_free hg), (hs.held_own g hg).1]
    have hfloor := hs.pages.pmm.floor
    have hnew : f ∉ a.held := fun hf => hs.held_ne_free hf hfree
    refine ⟨Function.update own f .other, ?_⟩
    rw [haddr, if_neg (by omega), frame_div]
    refine ⟨hbase.sound, hbase.pages, hbase.nodup, hbase.current, hbase.hand,
      List.nodup_cons.mpr ⟨hnew, hs.held_nodup⟩, fun g hg => ?_⟩
    rcases List.mem_cons.mp hg with rfl | hg
    · refine ⟨Function.update_self .., ?_⟩
      change (pmmAllocFrame a.paging.pmm).1.baseUsableFrame ≤ g ∧
        g < (pmmAllocFrame a.paging.pmm).1.totalFrames
      rw [hrange.1, hrange.2]
      exact hmanaged
    · exact hbase.held_own g hg
  · rw [pmmAllocFrame_of_empty hs.pages.pmm (Finset.not_nonempty_iff_eq_empty.mp hne), if_pos rfl]
    exact ⟨own, hs.withPaging (hs.pages.congr rfl rfl) rfl hs.hand ⟨rfl, rfl⟩ fun f hf =>
      (hs.held_own f hf).1⟩

/-- **`pmm_free_frame`** of a frame that is held. -/
theorem pmmFree {phys : ℕ} (hheld : phys / 4096 ∈ a.held)
    (h : a.exec (.pmmFree phys) = .ok b) : ∃ own', b.Inv ex own' := by
  cases h
  obtain ⟨hother, hmanaged⟩ := hs.held_own _ hheld
  -- no page has the role of a client's frame
  obtain ⟨own', hpages, hkept, -⟩ := hs.pages.release phys (by rw [hother]; trivial)
    fun d hd i hi j hj he hp heq => by
      have hrole := hs.pages.page_own d hd i hi j hj he hp
      rw [heq, hother] at hrole
      exact pageRole_ne_other _ _ _ _ hrole.symm
  refine ⟨own', hs.sound.withPaging _, hpages, hs.nodup, hs.current, hs.hand,
    hs.held_nodup.erase _, fun f hf => ?_⟩
  have hne : f ≠ phys / 4096 := fun heq => hs.held_nodup.not_mem_erase (heq ▸ hf)
  obtain ⟨hown, hrange⟩ := hs.held_own f (mem_of_mem_erase hf)
  refine ⟨(hkept f hne).trans hown, ?_⟩
  change (pmmFreeFrame a.paging.pmm phys).baseUsableFrame ≤ f ∧
    f < (pmmFreeFrame a.paging.pmm phys).totalFrames
  rw [pmmFreeFrame_base, pmmFreeFrame_total]
  exact hrange

/-- **`kmalloc`** maps new pages at the end of the heap, if any. -/
theorem kmalloc_growUp (hwant : want ≤ heapSize)
    (hsup : Unevicted a.heap want) (h : a.exec (.kmalloc want) = .ok b) :
    b = { a with heap := b.heap } ∧ b.heap.Sound ∧ heapStart ≤ a.heap.heapMappedEnd ∧
      ∃ k, a.heap.heapMappedEnd + k * 4096 ≤ heapEnd ∧ a.paging.Supply k ∧
        Paging.growUp k a.paging a.heap.heapMappedEnd = .ok b.paging := by
  simp only [exec] at h
  rcases hrun : a.heap.kmalloc want with e | ⟨heap, ptr⟩ <;> rw [hrun] at h
  · cases h
  cases h
  obtain ⟨cs, hinv⟩ := hs.sound
  have hsound : heap.Sound := by
    rcases Heap.Sound.kmalloc ⟨cs, hinv⟩ hwant hrun with ⟨-, rfl⟩ | ⟨-, hsound, -⟩
    · exact ⟨cs, hinv⟩
    · exact hsound
  obtain ⟨ds, hinv'⟩ := hsound
  obtain ⟨k, hgrow, hend, hk⟩ := Heap.kmalloc_paging hinv hwant hrun
  obtain ⟨hlo, -, -⟩ := hinv.mapped_range
  obtain ⟨-, hhi, -⟩ := hinv'.mapped_range
  exact ⟨rfl, ⟨ds, hinv'⟩, hlo, k, hend ▸ hhi, hsup.mono hk, hgrow⟩

/-- **`kmalloc`**, with tables or frames at hand, leaves the user halves alone. -/
theorem kmalloc (hwant : want ≤ heapSize)
    (hsup : Unevicted a.heap want) (h : a.exec (.kmalloc want) = .ok b) :
    (∃ own', b.Inv ex own') ∧ a.paging.UserKept b.paging a.live ∧ b.live = a.live := by
  obtain ⟨hb, hsound, hlo, k, hhi, hsup', hgrow⟩ := hs.kmalloc_growUp hwant hsup h
  obtain ⟨⟨own', hpages, hused⟩, hkept, -, -⟩ := hs.pages.growUp hs.current hlo hhi hsup' hgrow
  have hlive : b.live = a.live := by
    rw [hb]
    rfl
  have hheld : b.held = a.held := by rw [hb]
  refine ⟨⟨own', hsound, hlive ▸ hpages, hlive ▸ hs.nodup, ?_, hkept.hand.1 ▸ hs.hand,
    hheld ▸ hs.held_nodup, fun f hf => ?_⟩, hkept, hlive⟩
  · rw [hkept.currentPd, hlive]
    exact hs.current
  · rw [hheld] at hf
    rw [hused f (hs.held_ne_free hf), hkept.range.1, hkept.range.2]
    exact hs.held_own f hf

end

end Kernel.Inv

theorem CallStart.inv {syms : Paging.LinkerSymbols} (h : CallStart syms a) :
    ∃ own, a.Inv (Exclusive a.boot) own := by
  obtain ⟨connected, hpmm, hsyms, hrun⟩ := h
  have hstart := Paging.pagingInit_started (pmmInit_inv hpmm) rfl hsyms hrun
  obtain ⟨own, hpages⟩ := hstart.pageInv
  exact ⟨own, (Heap.Sound.start _).1, hpages.congr rfl rfl, nodup_singleton _,
    mem_singleton_self _, hstart.hand.1.trans_lt (show 0 < 768 by decide), nodup_nil,
    fun f hf => absurd hf not_mem_nil⟩

theorem exists_small_kernel (disk : D) (connected : ℕ → Bool) :
    ∃ a : Kernel D, CallStart Paging.smallImage a ∧ a.paging.currentPd = a.boot ∧ a.dirs = [] ∧
      a.held = [] ∧ a.paging.swap = Swap.swapInit ⟨fun _ => 0#8, none, disk⟩ connected ∧
      23 ≤ a.paging.pmm.freeSet.card ∧ a.paging.pmm.totalFrames = 292 := by
  obtain ⟨pmm, hpmm, hinv, hcard, -, htotal⟩ := Paging.exists_small_pmm
  obtain ⟨s, hrun, hstart, hleft⟩ := Paging.pagingInit_ok hinv Paging.smallImage_placed
    (show 9 + 23 ≤ (Paging.boot pmm (fun _ => 0) disk).pmm.freeSet.card from hcard.ge)
  refine ⟨_, .mk connected hpmm Paging.smallImage_placed hrun, rfl, rfl, rfl, ?_, hleft, ?_⟩
  · exact congrArg (Swap.swapInit · connected) hstart.swap
  · exact (Paging.pagingInit_range hrun).2.trans htotal

theorem exists_wide_kernel (disk : D) (connected : ℕ → Bool) :
    ∃ a : Kernel D, CallStart Paging.smallImage a ∧ 7923 ≤ a.paging.pmm.freeSet.card := by
  obtain ⟨pmm, s, hpmm, hrun, -, hcard, -⟩ := Paging.exists_wide_start (fun _ => 0) disk
  exact ⟨_, .mk connected hpmm Paging.smallImage_placed hrun, hcard⟩

end PenOS
