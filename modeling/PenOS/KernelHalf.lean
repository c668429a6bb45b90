import PenOS.PagingStart

/-!
# The kernel half of all address spaces

A new directory copies the kernel entries of the current one, so both name the same tables; a kernel
table made later is entered in the current directory only.
-/

namespace PenOS

open Function List

/-- The machine with its directories and the addresses of frames that callers (the heap, mostly)
hold. -/
structure Spaces (D : Type) where
  paging : Paging D
  boot : ℕ
  live : List ℕ
  held : List ℕ

/-- The calls that change or switch address spaces. Growing the heap is `take` and
`map`, trimming it `unmap` and `give`. -/
inductive SpaceOp : Type where
  /-- `paging_create_directory()` -/
  | create : SpaceOp
  /-- `paging_switch_directory(pd)` -/
  | switch (pd : ℕ) : SpaceOp
  /-- `paging_map(virt, phys, flags)` -/
  | map (virt phys flags : ℕ) : SpaceOp
  /-- `paging_unmap(virt)` -/
  | unmap (virt : ℕ) : SpaceOp
  /-- `paging_destroy_directory(pd)` -/
  | destroy (pd : ℕ) : SpaceOp
  /-- `pmm_alloc_frame()` by a caller -/
  | take : SpaceOp
  /-- `pmm_free_frame(addr)` by a caller, of a frame it holds -/
  | give (addr : ℕ) : SpaceOp

variable {D : Type} [Disk D]
variable {pd virt : ℕ} {s : Paging D}

/-- One call. Switched to and destroyed are live directories; mapped and unmapped are
kernel addresses below the recursive window. -/
inductive SpaceStep : Spaces D → SpaceOp → Spaces D → Prop where
  | create {a : Spaces D} {s : Paging D} {pd : ℕ}
      (h : a.paging.pagingCreateDirectory = .ok (s, pd)) :
      SpaceStep a .create { a with paging := s, live := pd :: a.live }
  | switch {a : Spaces D} {pd : ℕ} (hpd : pd ∈ a.live) :
      SpaceStep a (.switch pd) { a with paging := a.paging.pagingSwitchDirectory pd }
  | map {a : Spaces D} {s : Paging D} {virt phys flags : ℕ} (hlo : kernelVirtBase ≤ virt)
      (hhi : virt < 0xFFC00000) (h : a.paging.pagingMap virt phys flags = .ok s) :
      SpaceStep a (.map virt phys flags) { a with paging := s }
  | unmap {a : Spaces D} {virt : ℕ} (hlo : kernelVirtBase ≤ virt) (hhi : virt < 0xFFC00000) :
      SpaceStep a (.unmap virt) { a with paging := a.paging.pagingUnmap virt }
  /-- destroying the current directory is refused -/
  | destroy {a : Spaces D} {pd : ℕ} (hpd : pd ∈ a.live) :
      SpaceStep a (.destroy pd) { a with
        paging := a.paging.pagingDestroyDirectory pd
        live := if pd = a.paging.currentPd then a.live else a.live.erase pd }
  | take {a : Spaces D} (h : (pmmAllocFrame a.paging.pmm).2 ≠ 0) :
      SpaceStep a .take { a with
        paging := { a.paging with pmm := (pmmAllocFrame a.paging.pmm).1 }
        held := (pmmAllocFrame a.paging.pmm).2 :: a.held }
  | give {a : Spaces D} {addr : ℕ} (h : addr ∈ a.held) :
      SpaceStep a (.give addr) { a with
        paging := { a.paging with pmm := pmmFreeFrame a.paging.pmm addr }
        held := a.held.erase addr }

/-- The states reached from `paging_init` by calls that each meet `P`. -/
inductive SpaceRun (P : Spaces D → SpaceOp → Prop) : Spaces D → Prop where
  | start {fuel kernelEnd : ℕ} {mbInfo : Option MultibootInfo} {pmm : Pmm} {mem : Mem} {disk : D}
      {syms : Paging.LinkerSymbols} {s : Paging D}
      (hpmm : pmmInit fuel kernelEnd mbInfo = some pmm) (hsyms : LinkerSymbols.Placed syms)
      (h : (Paging.boot pmm mem disk).pagingInit syms = .ok s) :
      SpaceRun P ⟨s, s.currentPd, [s.currentPd], []⟩
  | step {a b : Spaces D} {op : SpaceOp} (h : SpaceRun P a) (hP : P a op)
      (hstep : SpaceStep a op b) : SpaceRun P b

omit [Disk D] in
/-- Every kernel address is translated the same way in all live directories. -/
def Spaces.KernelShared (a : Spaces D) : Prop :=
  ∀ d ∈ a.live, ∀ d' ∈ a.live, ∀ virt, kernelVirtBase ≤ virt → virt < 0xFFC00000 →
    (a.paging.pagingSwitchDirectory d).pagingVirtToPhys virt =
      (a.paging.pagingSwitchDirectory d').pagingVirtToPhys virt

omit [Disk D] in
/-- A kernel mapping that needs a new table is made while there is a single directory; a frame is
free where one is needed; and the boot directory is not destroyed. -/
def Spaces.Careful (a : Spaces D) : SpaceOp → Prop
  | .create => a.paging.pmm.freeFrames ≠ 0
  | .map virt _ _ => a.paging.findPageTable virt ≠ none ∨
      a.live = [a.paging.currentPd] ∧ a.paging.pmm.freeFrames ≠ 0
  | .destroy pd => pd ≠ a.boot
  | _ => True

/-! ## The invariant -/

omit [Disk D] in
/-- The directories name the same kernel tables. -/
structure Spaces.Inv (a : Spaces D) (own : ℕ → Role) : Prop where
  tables : a.paging.TableInv a.live own
  nodup : a.live.Nodup
  current : a.paging.currentPd ∈ a.live
  agree : ∀ d ∈ a.live, ∀ d' ∈ a.live, ∀ i, 768 ≤ i → i < 1023 →
    a.paging.entry d i % 2 = a.paging.entry d' i % 2 ∧
    a.paging.entry d i / 4096 = a.paging.entry d' i / 4096
  /-- user tables hang below the boot directory only -/
  empty : ∀ d ∈ a.live, d ≠ a.boot → ∀ i < 768, a.paging.entry d i % 2 ≠ 1
  held_nodup : a.held.Nodup
  held_own : ∀ addr ∈ a.held, addr % 4096 = 0 ∧ own (addr / 4096) = .other

variable {a b : Spaces D} {own : ℕ → Role}

omit [Disk D] in
/-- Held frames keep their role where only free frames change theirs. -/
theorem Spaces.Inv.held_kept (hs : a.Inv own) {own' : ℕ → Role}
    (h : ∀ g, own g ≠ .free → own' g = own g) :
    ∀ addr ∈ a.held, addr % 4096 = 0 ∧ own' (addr / 4096) = .other := by
  intro addr haddr
  obtain ⟨h1, h2⟩ := hs.held_own addr haddr
  exact ⟨h1, (h _ (by rw [h2]; exact Role.noConfusion)).trans h2⟩

theorem Spaces.Inv.create (hs : a.Inv own) (hfree : a.paging.pmm.freeFrames ≠ 0)
    (h : a.paging.pagingCreateDirectory = .ok (s, pd)) :
    ∃ own', { a with paging := s, live := pd :: a.live }.Inv own' := by
  obtain ⟨s', f, hrun, hf, hc⟩ :=
    hs.tables.pagingCreateDirectory hs.current (hs.tables.pmm.nonempty hfree)
  rw [hrun] at h
  obtain ⟨rfl, rfl⟩ := ok_pair h
  -- a live directory has, in the kernel half, the words the current one had before
  have hwords : ∀ d ∈ f * 4096 :: a.live, ∃ d' ∈ a.live, ∀ i, 768 ≤ i → i < 1023 →
      s'.entry d i = a.paging.entry d' i := by
    intro d hd
    rcases List.mem_cons.mp hd with rfl | hd
    · exact ⟨_, hs.current, hc.kernel⟩
    · exact ⟨d, hd, fun i _ hi => hc.entry_eq d hd i (by omega)⟩
  refine ⟨_, hc.inv, List.nodup_cons.mpr ⟨?_, hs.nodup⟩, ?_, ?_, ?_, hs.held_nodup,
    hs.held_kept fun g hg => update_of_ne ?_ _ _⟩
  · exact fun hmem => (hs.tables.free_apart hf hmem).1 rfl
  · rw [hc.currentPd]
    exact mem_cons_of_mem _ hs.current
  · intro d hd d' hd' i hlo hhi
    obtain ⟨e, he, hde⟩ := hwords d hd
    obtain ⟨e', he', hde'⟩ := hwords d' hd'
    rw [hde i hlo hhi, hde' i hlo hhi]
    exact hs.agree e he e' he' i hlo hhi
  · intro d hd hne i hi
    rcases List.mem_cons.mp hd with rfl | hd
    · rw [hc.user i hi]
      decide
    · rw [hc.entry_eq d hd i (by omega)]
      exact hs.empty d hd hne i hi
  · rintro rfl
    exact hg hc.was_free

theorem Spaces.Inv.map (hs : a.Inv own) {phys flags : ℕ} (hlo : kernelVirtBase ≤ virt)
    (hhi : virt < 0xFFC00000) (hcare : a.Careful (.map virt phys flags))
    (h : a.paging.pagingMap virt phys flags = .ok s) : ∃ own', { a with paging := s }.Inv own' := by
  have hbase := kernelVirtBase_eq
  have hpd : 768 ≤ pdIndex virt ∧ pdIndex virt < 1023 := by
    unfold pdIndex
    omega
  -- the table exists, or a frame is free
  have hcare' : a.paging.entry a.paging.currentPd (pdIndex virt) % 2 = 1 ∨
      a.live = [a.paging.currentPd] ∧ a.paging.pmm.freeSet.Nonempty := by
    rcases hcare with hfind | ⟨hone, hfree⟩
    · rw [Paging.findPageTable_eq] at hfind
      exact Or.inl (by_contra fun hp => hfind (if_neg hp))
    · exact Or.inr ⟨hone, hs.tables.pmm.nonempty hfree⟩
  obtain ⟨s', own', hrun, hm⟩ := hs.tables.pagingMap hs.current hpd.2 phys flags
    (hcare'.imp_right And.right)
  rw [hrun] at h
  obtain rfl := Except.ok.inj h
  refine ⟨own', hm.inv, hs.nodup, by rw [hm.currentPd]; exact hs.current, ?_, ?_, hs.held_nodup,
    hs.held_kept hm.own_kept⟩
  · intro d hd d' hd' i hlo hhi
    rcases hcare' with hp | ⟨hone, -⟩
    · -- an existing entry keeps presence and frame
      have hsame : ∀ e ∈ a.live, s'.entry e i % 2 = a.paging.entry e i % 2 ∧
          s'.entry e i / 4096 = a.paging.entry e i / 4096 := by
        intro e he
        by_cases heq : e = a.paging.currentPd ∧ i = pdIndex virt
        · obtain ⟨rfl, rfl⟩ := heq
          rcases hm.kept hp with hk | ⟨-, hk⟩
          · rw [hk]
            exact ⟨rfl, rfl⟩
          · rw [hk]
            obtain ⟨-, hdiv, hmod, -⟩ := or_user_facts (a.paging.entry_lt
              a.paging.currentPd (pdIndex virt))
            exact ⟨hmod, hdiv⟩
        · rw [hm.entry_eq e he i (by omega) heq]
          exact ⟨rfl, rfl⟩
      obtain ⟨h1, h2⟩ := hsame d hd
      obtain ⟨h3, h4⟩ := hsame d' hd'
      obtain ⟨h5, h6⟩ := hs.agree d hd d' hd' i hlo hhi
      change s'.entry d i % 2 = s'.entry d' i % 2 ∧ s'.entry d i / 4096 = s'.entry d' i / 4096
      omega
    · rw [hone] at hd hd'
      rw [List.mem_singleton.mp hd, List.mem_singleton.mp hd']
      exact ⟨rfl, rfl⟩
  · intro d hd hne i hi
    rw [hm.entry_eq d hd i (by omega) (by omega)]
    exact hs.empty d hd hne i hi

section

omit [Disk D]

theorem Spaces.Inv.unmap (hs : a.Inv own) (hhi : virt < 0xFFC00000) :
    { a with paging := a.paging.pagingUnmap virt }.Inv own := by
  have hpd : pdIndex virt < 1023 := by
    unfold pdIndex
    omega
  obtain ⟨hinv, hentry⟩ := hs.tables.pagingUnmap hs.current hpd
  refine ⟨hinv, hs.nodup, ?_, fun d hd d' hd' i hlo hhi => ?_, fun d hd hne i hi => ?_,
    hs.held_nodup, hs.held_own⟩
  · rw [Paging.pagingUnmap_currentPd]
    exact hs.current
  · rw [hentry d hd i (by omega), hentry d' hd' i (by omega)]
    exact hs.agree d hd d' hd' i hlo hhi
  · rw [hentry d hd i (by omega)]
    exact hs.empty d hd hne i hi

theorem Spaces.Inv.switch (hs : a.Inv own) (hpd : pd ∈ a.live) :
    { a with paging := a.paging.pagingSwitchDirectory pd }.Inv own := by
  rw [Paging.pagingSwitchDirectory_eq]
  exact ⟨hs.tables.withCurrent pd, hs.nodup, hpd, hs.agree, hs.empty, hs.held_nodup, hs.held_own⟩

/-- A directory other than the boot directory has nothing below its user half. -/
theorem Spaces.Inv.destroy (hs : a.Inv own) (hpd : pd ∈ a.live) (hboot : pd ≠ a.boot) :
    ∃ own', { a with
      paging := a.paging.pagingDestroyDirectory pd
      live := if pd = a.paging.currentPd then a.live else a.live.erase pd }.Inv own' := by
  by_cases hcur : pd = a.paging.currentPd
  · rw [if_pos hcur, Paging.pagingDestroyDirectory, if_pos hcur]
    exact ⟨own, hs⟩
  rw [if_neg hcur, Paging.pagingDestroyDirectory_of_empty hcur (hs.empty pd hpd hboot)]
  obtain ⟨own', hinv, hkept⟩ := hs.tables.destroyEmpty hs.nodup hpd
  have hmem : ∀ d ∈ a.live.erase pd, d ∈ a.live := fun d hd => mem_of_mem_erase hd
  refine ⟨own', hinv, hs.nodup.erase pd, (mem_erase_of_ne (Ne.symm hcur)).mpr hs.current,
    fun d hd d' hd' => hs.agree d (hmem d hd) d' (hmem d' hd'), fun d hd => hs.empty d (hmem d hd),
    hs.held_nodup, fun addr haddr => ?_⟩
  obtain ⟨h1, h2⟩ := hs.held_own addr haddr
  refine ⟨h1, (hkept _ ?_).trans h2⟩
  intro heq
  rw [heq, hs.tables.dir_own pd hpd] at h2
  cases h2

theorem Spaces.Inv.take (hs : a.Inv own) (h : (pmmAllocFrame a.paging.pmm).2 ≠ 0) : ∃ own', { a with
      paging := { a.paging with pmm := (pmmAllocFrame a.paging.pmm).1 }
      held := (pmmAllocFrame a.paging.pmm).2 :: a.held }.Inv own' := by
  have hne : a.paging.pmm.freeSet.Nonempty := by
    rw [Finset.nonempty_iff_ne_empty]
    intro he
    rw [pmmAllocFrame_of_empty hs.tables.pmm he] at h
    exact h rfl
  obtain ⟨f, hfree, haddr, hinv⟩ := hs.tables.pmmAlloc hne
  have hkept : ∀ g, own g ≠ .free → Function.update own f .other g = own g := by
    intro g hg
    refine update_of_ne ?_ _ _
    rintro rfl
    exact hg hfree
  rw [haddr]
  refine ⟨_, hinv, hs.nodup, hs.current, hs.agree, hs.empty,
    List.nodup_cons.mpr ⟨fun hmem => ?_, hs.held_nodup⟩, fun addr hmem => ?_⟩
  · have := (hs.held_own _ hmem).2
    rw [frame_div, hfree] at this
    cases this
  · rcases List.mem_cons.mp hmem with rfl | hmem
    · rw [frame_div, update_self]
      exact ⟨Nat.mul_mod_left f 4096, rfl⟩
    · exact hs.held_kept hkept addr hmem

theorem Spaces.Inv.give (hs : a.Inv own) {addr : ℕ} (h : addr ∈ a.held) : ∃ own', { a with
      paging := { a.paging with pmm := pmmFreeFrame a.paging.pmm addr }
      held := a.held.erase addr }.Inv own' := by
  obtain ⟨haligned, hown⟩ := hs.held_own addr h
  obtain ⟨own', hinv, hkept, -⟩ := hs.tables.pmmFree (by rw [hown]; trivial)
  refine ⟨own', hinv, hs.nodup, hs.current, hs.agree, hs.empty, hs.held_nodup.erase addr,
    fun addr' hmem => ?_⟩
  have hne : addr' ≠ addr := fun heq => hs.held_nodup.not_mem_erase (heq ▸ hmem)
  obtain ⟨h1, h2⟩ := hs.held_own addr' (mem_of_mem_erase hmem)
  exact ⟨h1, (hkept _ (by omega)).trans h2⟩

end

/-! ## Runs -/

/-- The boot directory alone. -/
theorem Spaces.Inv.start {fuel kernelEnd : ℕ} {mbInfo : Option MultibootInfo} {pmm : Pmm}
    {mem : Mem} {disk : D} {syms : Paging.LinkerSymbols}
    (hpmm : pmmInit fuel kernelEnd mbInfo = some pmm) (hsyms : LinkerSymbols.Placed syms)
    (h : (Paging.boot pmm mem disk).pagingInit syms = .ok s) :
    ∃ own, (⟨s, s.currentPd, [s.currentPd], []⟩ : Spaces D).Inv own := by
  obtain ⟨own, hinv⟩ := (Paging.pagingInit_started (pmmInit_inv hpmm) rfl hsyms h).inv
  refine ⟨own, hinv, nodup_singleton _, mem_singleton_self _, fun d hd d' hd' _ _ _ => ?_,
    fun d hd hne => absurd (List.mem_singleton.mp hd) hne, nodup_nil,
    fun _ hmem => absurd hmem not_mem_nil⟩
  rw [List.mem_singleton.mp hd, List.mem_singleton.mp hd']
  exact ⟨rfl, rfl⟩

theorem Spaces.Inv.step {op : SpaceOp} (hs : a.Inv own) (hcare : a.Careful op)
    (h : SpaceStep a op b) : ∃ own', b.Inv own' := by
  cases h with
  | create h => exact hs.create hcare h
  | switch hpd => exact ⟨own, hs.switch hpd⟩
  | map hlo hhi h => exact hs.map hlo hhi hcare h
  | unmap _ hhi => exact ⟨own, hs.unmap hhi⟩
  | destroy hpd => exact hs.destroy hpd hcare
  | take h => exact hs.take h
  | give h => exact hs.give h

theorem SpaceRun.inv (h : SpaceRun Spaces.Careful a) : ∃ own, a.Inv own := by
  induction h with
  | start hpmm hsyms h => exact Spaces.Inv.start hpmm hsyms h
  | step _ hcare hstep ih =>
    obtain ⟨own, hs⟩ := ih
    exact hs.step hcare hstep

omit [Disk D] in
theorem Spaces.Inv.kernelShared (hs : a.Inv own) : a.KernelShared := by
  intro d hd d' hd' virt hlo hhi
  have hbase := kernelVirtBase_eq
  have hpd : 768 ≤ pdIndex virt ∧ pdIndex virt < 1023 := by
    unfold pdIndex
    omega
  obtain ⟨hmod, hdiv⟩ := hs.agree d hd d' hd' (pdIndex virt) hpd.1 hpd.2
  have hpte : a.paging.pte d (pdIndex virt) (ptIndex virt) =
      a.paging.pte d' (pdIndex virt) (ptIndex virt) := by
    unfold Paging.pte
    rw [hmod, hdiv]
  rw [Paging.pagingSwitchDirectory_eq, Paging.pagingSwitchDirectory_eq,
    Paging.pagingVirtToPhys_eq, Paging.pagingVirtToPhys_eq]
  change (if a.paging.pte d (pdIndex virt) (ptIndex virt) % 2 = 1 then
      a.paging.pte d (pdIndex virt) (ptIndex virt) / 4096 * 4096 + virt % 4096 else 0) =
    if a.paging.pte d' (pdIndex virt) (ptIndex virt) % 2 = 1 then
      a.paging.pte d' (pdIndex virt) (ptIndex virt) / 4096 * 4096 + virt % 4096 else 0
  rw [hpte]

/-- **The kernel half is shared** in every run whose calls are careful: `paging_virt_to_phys` gives
the same answer in all live directories. -/
theorem kernel_half_shared (h : SpaceRun Spaces.Careful a) : a.KernelShared := by
  obtain ⟨own, hs⟩ := h.inv
  exact hs.kernelShared

/-- The careful order: first the kernel table, then the second directory. -/
theorem kernel_half_shared_two :
    ∃ (a : Spaces DiskImage) (pd : ℕ), SpaceRun Spaces.Careful a ∧ a.live = [pd, a.boot] ∧
      (a.paging.pagingSwitchDirectory pd).pagingVirtToPhys 0xC1000000 =
        (a.paging.pagingSwitchDirectory a.boot).pagingVirtToPhys 0xC1000000 := by
  obtain ⟨pmm, s, hpmm, hrun, hstart, hleft⟩ :=
    Paging.exists_small_start (D := DiskImage) (fun _ => 0) (fun _ _ _ => 0)
  obtain ⟨own, hinv⟩ := hstart.inv
  have hne : s.pmm.freeSet.Nonempty := Finset.card_pos.mp (by omega)
  have hrun0 : SpaceRun Spaces.Careful (⟨s, s.currentPd, [s.currentPd], []⟩ : Spaces DiskImage) :=
    .start hpmm Paging.smallImage_placed hrun
  obtain ⟨s1, own1, hmap, hm⟩ := hinv.pagingMap (mem_singleton_self _)
    (by decide : pdIndex 0xC1000000 < 1023) 0x200000 3 (Or.inr hne)
  have hleft1 : 22 ≤ s1.pmm.freeSet.card := by
    by_cases hp : s.entry s.currentPd (pdIndex 0xC1000000) % 2 = 1
    · rw [hm.pmm_kept hp]
      omega
    · obtain ⟨f, hf, hfree⟩ := hm.pmm_taken hp
      rw [hfree, Finset.card_erase_of_mem hf]
      omega
  have hfree1 : s1.pmm.freeFrames ≠ 0 := by
    rw [hm.inv.pmm.count]
    omega
  have hfree : s.pmm.freeFrames ≠ 0 := by
    rw [hinv.pmm.count]
    omega
  have hrun1 := hrun0.step (show Spaces.Careful _ (.map 0xC1000000 0x200000 3) from
    Or.inr ⟨rfl, hfree⟩) (.map (by decide) (by decide) hmap)
  obtain ⟨s2, f, hcreate, -, -⟩ := hm.inv.pagingCreateDirectory
    (by rw [hm.currentPd]; exact mem_singleton_self _) (hm.inv.pmm.nonempty hfree1)
  have hrun2 := hrun1.step (show Spaces.Careful _ .create from hfree1) (.create hcreate)
  exact ⟨_, f * 4096, hrun2, rfl, kernel_half_shared hrun2 _ mem_cons_self _
    (mem_cons_of_mem _ (mem_singleton_self _)) _ (by decide) (by decide)⟩

/-- On the small machine, a directory is created and then the first page of the heap window
mapped. -/
theorem kernel_half_diverges :
    ∃ (a : Spaces DiskImage) (pd : ℕ), SpaceRun (fun _ _ => True) a ∧ a.live = [pd, a.boot] ∧
      (a.paging.pagingSwitchDirectory a.boot).pagingVirtToPhys 0xC1000000 = 0x200000 ∧
      (a.paging.pagingSwitchDirectory pd).pagingVirtToPhys 0xC1000000 = 0 ∧ ¬ a.KernelShared := by
  obtain ⟨pmm, s, hpmm, hrun, hstart, hleft⟩ :=
    Paging.exists_small_start (D := DiskImage) (fun _ => 0) (fun _ _ _ => 0)
  obtain ⟨own, hinv⟩ := hstart.inv
  have hmem := mem_singleton_self s.currentPd
  obtain ⟨s1, f, hcreate, hf, hc⟩ := hinv.pagingCreateDirectory hmem (Finset.card_pos.mp (by omega))
  have hcur1 : s1.currentPd ∈ f * 4096 :: [s.currentPd] := by
    rw [hc.currentPd]
    exact mem_cons_of_mem _ hmem
  have hne1 : s1.pmm.freeSet.Nonempty := by
    rw [← Finset.card_pos, hc.taken, Finset.card_erase_of_mem hf]
    omega
  obtain ⟨s2, own2, hmap, hm⟩ := hc.inv.pagingMap hcur1
    (by decide : pdIndex 0xC1000000 < 1023) 0x200000 3 (Or.inr hne1)
  have hrun2 : SpaceRun (fun _ _ => True)
      (⟨s2, s.currentPd, [f * 4096, s.currentPd], []⟩ : Spaces DiskImage) :=
    ((SpaceRun.start hpmm Paging.smallImage_placed hrun).step trivial
      (SpaceStep.create hcreate)).step trivial (SpaceStep.map (by decide) (by decide) hmap)
  -- the entry is absent in both directories until the mapping is made
  have habsent : s.entry s.currentPd 772 % 2 ≠ 1 := fun hp =>
    absurd (hstart.tables 772 (by decide) (by decide) hp) (by decide)
  have hnew : s2.entry (f * 4096) 772 % 2 ≠ 1 := by
    rw [hm.entry_eq _ mem_cons_self 772 (by decide), hc.kernel 772 (by decide) (by decide)]
    · exact habsent
    · rw [hc.currentPd]
      exact fun h => (hinv.free_apart hf hmem).1 h.1.symm
  have hboot : ({ s2 with currentPd := s.currentPd } : Paging DiskImage).pagingVirtToPhys
      0xC1000000 = 0x200000 := by
    rw [Paging.pagingVirtToPhys_eq]
    have hpte : s2.pte s.currentPd 772 0 = pageEntry 0x200000 3 := hc.currentPd ▸
      hm.pte_current hcur1
    change (if s2.pte s.currentPd 772 0 % 2 = 1 then s2.pte s.currentPd 772 0 / 4096 * 4096 + 0
      else 0) = _
    rw [hpte]
    decide
  have hpd : ({ s2 with currentPd := f * 4096 } : Paging DiskImage).pagingVirtToPhys
      0xC1000000 = 0 := by
    rw [Paging.pagingVirtToPhys_eq]
    change (if s2.pte (f * 4096) 772 0 % 2 = 1 then s2.pte (f * 4096) 772 0 / 4096 * 4096 + 0
      else 0) = _
    rw [Paging.pte_of_absent hnew]
    rfl
  refine ⟨_, f * 4096, hrun2, rfl, ?_, ?_, fun hshared => ?_⟩
  · rw [Paging.pagingSwitchDirectory_eq]
    exact hboot
  · rw [Paging.pagingSwitchDirectory_eq]
    exact hpd
  · have h := hshared (f * 4096) mem_cons_self s.currentPd
      (mem_cons_of_mem _ hmem) 0xC1000000 (by decide) (by decide)
    rw [Paging.pagingSwitchDirectory_eq, Paging.pagingSwitchDirectory_eq] at h
    exact absurd ((hpd.symm.trans h).trans hboot) (by decide)

end PenOS
