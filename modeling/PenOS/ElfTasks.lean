import PenOS.ElfMemory
import PenOS.TaskSpaces

/-!
# Programs that come and go

`elf_load` maps pages of the kernel heap into the directory of the process, and
`paging_destroy_directory` frees every frame mapped there.
-/

namespace PenOS

open List

variable {D : Type}

/-! ## What `sched_spawn_elf` can do -/

namespace Sched

variable [Disk D] {s s' : Sched D} {file : Option FileAnswer} {i : Slot}

/-- What `sched_spawn_elf` can do below the table. -/
inductive SpawnedElf (s : Sched D) (file : Option FileAnswer) : Sched D → Prop where
  | full : SpawnedElf s file s
  | noDirectory {s' : Sched D} {p : Paging D} (hsame : s.SameTable s')
      (hcreate : s.heap.paging.pagingCreateDirectory = .ok (p, 0))
      (heap : s'.heap = { s.heap with paging := p }) : SpawnedElf s file s'
  | noKernelStack {s' : Sched D} {p : Paging D} {newPd : ℕ} {h : Heap D} (hsame : s.SameTable s')
      (hcreate : s.heap.paging.pagingCreateDirectory = .ok (p, newPd)) (hpd : newPd ≠ 0)
      (hk : { s.heap with paging := p }.kmalloc stackSize = .ok (h, 0))
      (heap : s'.heap = { h with paging := h.paging.pagingDestroyDirectory newPd }) :
      SpawnedElf s file s'
  | notLoaded {s' : Sched D} {p : Paging D} {newPd kstack e : ℕ} {h h' h'' : Heap D}
      (hsame : s.SameTable s')
      (hcreate : s.heap.paging.pagingCreateDirectory = .ok (p, newPd)) (hpd : newPd ≠ 0)
      (hk : { s.heap with paging := p }.kmalloc stackSize = .ok (h, kstack)) (hkstack : kstack ≠ 0)
      (hload : elfLoad { h with paging := h.paging.pagingSwitchDirectory newPd } file =
        .ok (h', 0, e))
      (hfree : { h' with paging := h'.paging.pagingSwitchDirectory h.paging.currentPd }.kfree
        kstack = .ok h'')
      (heap : s'.heap = { h'' with paging := h''.paging.pagingDestroyDirectory newPd }) :
      SpawnedElf s file s'
  | started {s' : Sched D} {p q : Paging D} {newPd kstack r e : ℕ} {h h' : Heap D} {i : Slot}
      (hcreate : s.heap.paging.pagingCreateDirectory = .ok (p, newPd)) (hpd : newPd ≠ 0)
      (hk : { s.heap with paging := p }.kmalloc stackSize = .ok (h, kstack)) (hkstack : kstack ≠ 0)
      (hload : elfLoad { h with paging := h.paging.pagingSwitchDirectory newPd } file =
        .ok (h', r, e))
      (hmap : mapUserStack 4 0 h'.paging = .ok q)
      (hp : s.Placed s' { h' with paging := q.pagingSwitchDirectory h.paging.currentPd } i kstack
        newPd) : SpawnedElf s file s'

theorem schedSpawnElf_outcome {path : String} {r : ℤ}
    (h : s.schedSpawnElf path file = .ok (s', r)) :
    s.SpawnedElf file s' ∧ (s.SameTable s' ∨ r = int32 s.nextTaskId) := by
  have hsame : ∀ heap, s.SameTable { s with heap := heap } := fun _ => ⟨rfl, rfl, rfl, rfl, rfl⟩
  simp only [schedSpawnElf] at h
  rcases hslot : s.findFreeSlot with _ | slot <;> rw [hslot] at h
  · cases h
    exact ⟨.full, .inl (.refl s)⟩
  rcases hd : s.heap.paging.pagingCreateDirectory with e | ⟨p, newPd⟩ <;> rw [hd] at h
  · cases h
  dsimp only at h
  split_ifs at h with hpd
  · cases h
    exact ⟨.noDirectory (hsame _) (hpd ▸ hd) rfl, .inl (hsame _)⟩
  rcases hk : (s.withPaging p).heap.kmalloc stackSize with e | ⟨h1, kstack⟩ <;> rw [hk] at h
  · cases h
  dsimp only at h
  split_ifs at h with hk0
  · cases h
    exact ⟨.noKernelStack (hsame _) hd hpd (hk0 ▸ hk) rfl, .inl (hsame _)⟩
  rcases hl : elfLoad { h1 with paging := h1.paging.pagingSwitchDirectory newPd } file with
    e | ⟨h2, result, entryPoint⟩ <;> simp only [withPaging, hl] at h
  · cases h
  split_ifs at h with hresult
  · rcases hf : Heap.kfree { h2 with
        paging := h2.paging.pagingSwitchDirectory h1.paging.pagingGetKernelDirectory } kstack with
      e | h3 <;> rw [hf] at h
    · cases h
    cases h
    exact ⟨.notLoaded (hsame _) hd hpd hk hk0 (hresult ▸ hl) hf rfl, .inl (hsame _)⟩
  · simp only [startElf] at h
    rcases hm : mapUserStack 4 0 h2.paging with e | q <;> rw [hm] at h
    · cases h
    cases h
    exact ⟨.started hd hpd hk hk0 hl hm (.of_install hslot (hsame _) hk0 rfl ⟨_, rfl⟩), .inr rfl⟩

theorem schedSpawnElf_cases {path : String} {r : ℤ} (h : s.schedSpawnElf path file = .ok (s', r)) :
    s.SpawnedElf file s' := (schedSpawnElf_outcome h).1

theorem SpawnedElf.effect (h : s.SpawnedElf file s') : s.SpawnEffect s' := by
  cases h with
  | full => exact .inl (.refl s)
  | noDirectory hsame => exact .inl hsame
  | noKernelStack hsame => exact .inl hsame
  | notLoaded hsame => exact .inl hsame
  | started _ _ _ _ _ _ hp => exact .inr ⟨_, hp.free, hp.installed⟩

/-- A program has a directory. -/
theorem SpawnedElf.pd_ne_zero (h : s.SpawnedElf file s') (hi : s.Installed s' i) :
    (s'.tasks i).pageDirectoryPhys ≠ 0 := by
  cases h with
  | full => exact absurd hi (SameTable.refl s).not_installed
  | noDirectory hsame => exact absurd hi hsame.not_installed
  | noKernelStack hsame => exact absurd hi hsame.not_installed
  | notLoaded hsame => exact absurd hi hsame.not_installed
  | started _ hpd _ _ _ _ hp =>
    rw [hi.eq hp.installed, hp.pd_eq]
    exact hpd

end Sched

/-! ## One program more -/

/-- The frames that `sched_spawn_elf` takes at most. -/
def spawnFrames (file : Option FileAnswer) : ℕ := loadFrames file + 19

variable [Disk D]

theorem MemInv.loadIn {h h' : Heap D} {boot pd r e : ℕ} {live : List ℕ} {allocs : List (ℕ × ℕ)}
    {file : Option FileAnswer} (hm : MemInv h boot (pd :: live) allocs)
    (hfile : ∀ f ∈ file, f.Segmentless) (hcard : loadFrames file ≤ h.paging.pmm.freeSet.card)
    (hrun : PenOS.elfLoad { h with paging := h.paging.pagingSwitchDirectory pd } file =
      .ok (h', r, e)) :
    MemInv h' boot (pd :: live) allocs ∧ h'.paging.currentPd = pd ∧
      h.paging.pmm.freeSet.card ≤ h'.paging.pmm.freeSet.card + loadFrames file := by
  have hs := hm.switch (show pd ∈ pd :: live from mem_cons_self)
  rw [Paging.pagingSwitchDirectory_eq] at hs hrun
  obtain ⟨cs, hblocks⟩ := hs.blocks
  obtain ⟨own, hp⟩ := hs.pages
  have hsup : ∀ f ∈ file,
      Unevicted { h with paging := { h.paging with currentPd := pd } } f.size := by
    rintro f hf
    rw [hf, loadFrames] at hcard
    exact .inr (Paging.plenty_of_card hp.pmm (show f.size / 4096 + 2 + 4 ≤ _ by dsimp only; omega))
  obtain ⟨hm', hrest, hle, -⟩ :=
    hs.elfLoad hblocks.inv hfile hsup (List.Subset.refl _) hs.current hrun
  exact ⟨hm', hrest.currentPd, hle⟩

namespace Tasks.SpaceInv

variable {a : Tasks D} {s : Sched D} {boot : ℕ} {live : List ℕ} {allocs : List (ℕ × ℕ)}
  {home : Slot → ℕ} {file : Option FileAnswer}

/-- **`sched_spawn_elf`** of a file without segments, with frames at hand: whichever way it
ends. -/
theorem spawnElf (ha : a.SpaceInv boot live allocs)
    (hroom : spawnFrames file ≤ a.sched.heap.paging.pmm.freeFrames)
    (hfile : ∀ f ∈ file, f.Segmentless) (h : a.sched.SpawnedElf file s)
    (hhomes : Tasks.Homes ⟨s, home⟩ boot) :
    ∃ live' allocs', Tasks.SpaceInv ⟨s, home⟩ boot live' allocs' ∧
      a.Spares ⟨s, home⟩ allocs allocs' := by
  obtain ⟨own, hpages⟩ := ha.mem.pages
  rw [hpages.pmm.count, spawnFrames] at hroom
  have hplenty : a.sched.heap.paging.Plenty 1 := Paging.plenty_of_card hpages.pmm (by omega)
  -- the stack of the task is allocated while the old directory is loaded
  have hstack : ∀ {p : Paging D} {newPd kstack : ℕ} {h : Heap D},
      a.sched.heap.paging.pagingCreateDirectory = .ok (p, newPd) →
      { a.sched.heap with paging := p }.kmalloc stackSize = .ok (h, kstack) →
      newPd ∉ live ∧ newPd ≠ boot ∧ h.paging.currentPd ∈ live ∧
        MemInv h boot (newPd :: live)
          (if kstack = 0 then allocs else (kstack, stackSize) :: allocs) ∧
        loadFrames file + 12 ≤ h.paging.pmm.freeSet.card := by
    intro p newPd kstack h hcreate hk
    obtain ⟨hnew, hmem, -, hcur, hcard, -⟩ := ha.mem.create (n := 0) hplenty hcreate
    obtain ⟨own1, hpages1⟩ := hmem.pages
    have hthree : 3 + 4 ≤ p.pmm.freeSet.card := by omega
    obtain ⟨hmem1, hkept, hcard1, -⟩ :=
      hmem.kmalloc (by decide) (.inr (Paging.plenty_of_card hpages1.pmm hthree)) hk
    have hstay : h.paging.currentPd = a.sched.heap.paging.currentPd := hkept.currentPd.trans hcur
    have hsix : 2 * (stackSize / 4096 + 2) = 6 := rfl
    dsimp only at hcard1
    exact ⟨hnew, fun heq => hnew (heq ▸ ha.mem.boot_mem), hstay ▸ ha.mem.current, hmem1, by omega⟩
  cases h with
  | full => exact ⟨live, allocs, ha.sameTable (.refl _) hhomes ha.mem, .sameTable (.refl _)⟩
  | noDirectory _ hcreate =>
    -- a directory is never at address 0
    obtain ⟨-, hmem, -⟩ := ha.mem.create (n := 0) hplenty hcreate
    exact absurd rfl (hmem.dir_taken mem_cons_self).2
  | noKernelStack hsame hcreate hpd hk heap =>
    obtain ⟨hnew, hboot, hcur, hmem, -⟩ := hstack hcreate hk
    have hdestroyed := (hmem.destroy mem_cons_self hboot fun heq => hnew (heq ▸ hcur)).1
    rw [if_pos rfl, erase_cons_head] at hdestroyed
    exact ⟨live, allocs, ha.sameTable hsame hhomes (heap ▸ hdestroyed), .sameTable hsame⟩
  | notLoaded hsame hcreate hpd hk hkstack hload hfree heap =>
    obtain ⟨hnew, hboot, hcur, hmem, hcard⟩ := hstack hcreate hk
    rw [if_neg hkstack] at hmem
    obtain ⟨hmem1, -, -⟩ := hmem.loadIn hfile (by omega) hload
    have hback := hmem1.switch (mem_cons_of_mem _ hcur)
    obtain ⟨hmem2, hkept, -⟩ := hback.kfree mem_cons_self hfree
    rw [erase_cons_head] at hmem2
    have hstay := hkept.currentPd.trans (Paging.pagingSwitchDirectory_currentPd _ _)
    have hdestroyed :=
      (hmem2.destroy mem_cons_self hboot fun heq => hnew (by rw [heq, hstay]; exact hcur)).1
    rw [erase_cons_head] at hdestroyed
    exact ⟨live, allocs, ha.sameTable hsame hhomes (heap ▸ hdestroyed), .sameTable hsame⟩
  | started hcreate hpd hk hkstack hload hmap hp =>
    obtain ⟨hnew, hboot, hcur, hmem, hcard⟩ := hstack hcreate hk
    rw [if_neg hkstack] at hmem
    obtain ⟨hmem1, -, hcard1⟩ := hmem.loadIn hfile (by omega) hload
    have hmem2 := hmem1.mapUserStack (by omega) hmap
    have hback := hmem2.switch (mem_cons_of_mem _ hcur)
    have hallocs : ∀ v : ℕ × ℕ, ∀ u ∈ allocs, u ∈ v :: allocs :=
      fun v u hu => mem_cons_of_mem _ hu
    exact ⟨_, _, ha.placed hp hhomes hback mem_cons_self hmem.alloc_fresh (hallocs _)
      (fun _ => ⟨mem_cons_self, hnew⟩) (fun d hd => mem_cons_of_mem _ hd),
      .placed hp hmem.alloc_fresh (hallocs _)⟩

end Tasks.SpaceInv

/-! ## Runs -/

/-- A run of heap clients, programs and other tasks. The last argument is what the clients hold; `P`
says which files are started. -/
inductive ElfRun (P : Sched D → Option FileAnswer → Prop) (syms : TaskSymbols) (h₀ : Heap D) :
    Tasks D → List (ℕ × ℕ) → Prop where
  | start {h : Heap D} {clients : List (ℕ × ℕ)} (hr : HeapRun Unevicted h₀ clients h) :
      ElfRun P syms h₀ ⟨(Sched.boot h).schedInit, fun _ => h.paging.currentPd⟩ clients
  | task {a b : Tasks D} {clients : List (ℕ × ℕ)} (hr : ElfRun P syms h₀ a clients)
      (hstep : TaskStep (Supplied D h₀.paging.currentPd) syms h₀.paging.currentPd a b) :
      ElfRun P syms h₀ b clients
  | malloc {a : Tasks D} {clients : List (ℕ × ℕ)} {heap : Heap D} {want p : ℕ}
      (hr : ElfRun P syms h₀ a clients) (hwant : want ≤ heapSize)
      (hsup : Unevicted a.sched.heap want) (h : a.sched.heap.kmalloc want = .ok (heap, p)) :
      ElfRun P syms h₀ { a with sched := { a.sched with heap := heap } }
        (if p = 0 then clients else (p, want) :: clients)
  | free {a : Tasks D} {clients : List (ℕ × ℕ)} {heap : Heap D} {u : ℕ × ℕ}
      (hr : ElfRun P syms h₀ a clients) (hu : u ∈ clients)
      (h : a.sched.heap.kfree u.1 = .ok heap) :
      ElfRun P syms h₀ { a with sched := { a.sched with heap := heap } } (clients.erase u)
  | spawnElf {a : Tasks D} {clients : List (ℕ × ℕ)} {s : Sched D} {path : String}
      {file : Option FileAnswer} {r : ℤ} (hr : ElfRun P syms h₀ a clients) (hP : P a.sched file)
      (h : a.sched.schedSpawnElf path file = .ok (s, r)) :
      ElfRun P syms h₀ ⟨s, a.sched.settle s a.home fun i => (s.tasks i).pageDirectoryPhys⟩ clients

/-- The file has nothing to load, and there are frames for the process. -/
def SpawnsSegmentless (s : Sched D) (file : Option FileAnswer) : Prop :=
  (∀ f ∈ file, f.Segmentless) ∧ spawnFrames file ≤ s.heap.paging.pmm.freeFrames

/-- What the clients hold is allocated, and not the stack of a task. -/
structure ClientInv (a : Tasks D) (boot : ℕ) (live : List ℕ) (allocs clients : List (ℕ × ℕ)) :
    Prop where
  spaces : a.SpaceInv boot live allocs
  nodup : clients.Nodup
  held : ∀ u ∈ clients, u ∈ allocs ∧ a.NotStack u

variable {a b : Tasks D} {boot : ℕ} {live : List ℕ} {allocs clients : List (ℕ × ℕ)}
  {h₀ : Heap D} {syms : TaskSymbols}

omit [Disk D] in
theorem ClientInv.spared (hc : ClientInv a boot live allocs clients)
    (h : ∃ live' allocs', b.SpaceInv boot live' allocs' ∧ a.Spares b allocs allocs') :
    ∃ live' allocs', ClientInv b boot live' allocs' clients := by
  obtain ⟨live', allocs', hb, hspares⟩ := h
  exact ⟨live', allocs', hb, hc.nodup, fun u hu => hspares u (hc.held u hu).1 (hc.held u hu).2⟩

theorem ClientInv.malloc (hc : ClientInv a boot live allocs clients) {heap : Heap D}
    {want p : ℕ} (hwant : want ≤ heapSize) (hsup : Unevicted a.sched.heap want)
    (h : a.sched.heap.kmalloc want = .ok (heap, p)) :
    ∃ allocs', ClientInv { a with sched := { a.sched with heap := heap } } boot live allocs'
      (if p = 0 then clients else (p, want) :: clients) := by
  have ha := hc.spaces
  obtain ⟨hmem, -⟩ := ha.mem.kmalloc hwant hsup h
  split_ifs at hmem ⊢ with hp
  · exact ⟨allocs, ha.withHeap hmem ha.stack_mem, hc.nodup, hc.held⟩
  · have hfresh := hmem.alloc_fresh
    refine ⟨(p, want) :: allocs, ha.withHeap hmem fun j hj hu =>
      mem_cons_of_mem _ (ha.stack_mem j hj hu), List.nodup_cons.mpr ⟨fun hmem => ?_, hc.nodup⟩,
      fun u hu => ?_⟩
    · exact hfresh _ (hc.held _ hmem).1 rfl
    · rcases List.mem_cons.mp hu with rfl | hold
      · exact ⟨mem_cons_self, fun j hj hused =>
          hfresh _ (ha.stack_mem j (Fin.val_ne_zero_iff.mp hj) hused)⟩
      · exact ⟨mem_cons_of_mem _ (hc.held u hold).1, (hc.held u hold).2⟩

omit [Disk D] in
theorem ClientInv.free (hc : ClientInv a boot live allocs clients) {heap : Heap D}
    {u : ℕ × ℕ} (hu : u ∈ clients) (h : a.sched.heap.kfree u.1 = .ok heap) :
    ClientInv { a with sched := { a.sched with heap := heap } } boot live (allocs.erase u)
      (clients.erase u) := by
  have ha := hc.spaces
  obtain ⟨hmem, -⟩ := ha.mem.kfree (hc.held u hu).1 h
  refine ⟨ha.withHeap hmem fun j hj hused => ?_, hc.nodup.erase u, fun v hv => ?_⟩
  · exact (mem_erase_of_ne fun heq => (hc.held u hu).2 j (Fin.val_ne_zero_iff.mpr hj) hused
      (congrArg Prod.fst heq)).mpr (ha.stack_mem j hj hused)
  · obtain ⟨hne, hold⟩ := hc.nodup.mem_erase_iff.mp hv
    exact ⟨(mem_erase_of_ne hne).mpr (hc.held v hold).1, (hc.held v hold).2⟩

/-- Heap, tasks and clients along a run. -/
theorem ElfRun.clientInv (hboot : h₀.paging.BootSpace)
    (hrun : ElfRun SpawnsSegmentless syms h₀ a clients) :
    ∃ live allocs, ClientInv a h₀.paging.currentPd live allocs clients := by
  induction hrun with
  | start hr =>
    obtain ⟨hcur, hmem⟩ := hr.memInv hboot
    obtain ⟨cs, hs⟩ := hmem.blocks
    rw [← hcur] at hmem ⊢
    exact ⟨_, _, .start hmem, hs.live_nodup.of_map, fun u hu =>
      ⟨hu, fun i hi hused => absurd (Sched.eq_main_of_used hused) (Fin.val_ne_zero_iff.mp hi)⟩⟩
  | task _ hstep ih =>
    obtain ⟨live, allocs, hc⟩ := ih
    exact hc.spared (hc.spaces.step hstep)
  | malloc _ hwant hsup h ih =>
    obtain ⟨live, allocs, hc⟩ := ih
    exact ⟨live, hc.malloc hwant hsup h⟩
  | free _ hu h ih =>
    obtain ⟨live, allocs, hc⟩ := ih
    exact ⟨live, _, hc.free hu h⟩
  | spawnElf _ hP h ih =>
    obtain ⟨live, allocs, hc⟩ := ih
    have hcases := Sched.schedSpawnElf_cases h
    refine hc.spared (hc.spaces.spawnElf hP.2 hP.1 hcases ?_)
    exact hc.spaces.homes.spawn hc.spaces.table hcases.effect fun i hi =>
      (if_pos (hcases.pd_ne_zero hi)).symm

/-- The directories in use: the one loaded, the one of the boot thread and those of the
tasks. -/
def Sched.InUse (s : Sched D) (d : ℕ) : Prop :=
  d = s.heap.paging.currentPd ∨
    ∃ i, (s.tasks i).state ≠ .unused ∧ (s.tasks i).pageDirectoryPhys ≠ 0 ∧
      (s.tasks i).pageDirectoryPhys = d

/-- **Frames of the heap window stay allocated** in every run in which no file has anything to load
and programs are started with frames at hand. -/
theorem window_frames_taken (hboot : h₀.paging.BootSpace)
    (hrun : ElfRun SpawnsSegmentless syms h₀ a clients) {d virt : ℕ} (hd : a.sched.InUse d)
    (hlo : heapStart ≤ virt) (hhi : virt < heapEnd)
    (hp : a.sched.heap.paging.pte d (pdIndex virt) (ptIndex virt) % 2 = 1) :
    a.sched.heap.paging.pmm.Taken
      (a.sched.heap.paging.pte d (pdIndex virt) (ptIndex virt) / 4096) := by
  obtain ⟨live, allocs, hc⟩ := hrun.clientInv hboot
  have ha := hc.spaces
  have hmem : d ∈ live := by
    rcases hd with rfl | ⟨i, hu, h0, rfl⟩
    · exact ha.mem.current
    · exact ha.pd_mem i hu h0
  obtain ⟨own, hs⟩ := ha.mem.pages
  obtain ⟨hwin, -⟩ := Paging.inWindow_of_range d hlo hhi
  have hlast : pdIndex virt < 1023 := by
    simp only [Paging.InWindow] at hwin
    omega
  have hrole := hs.page_own d hmem _ hlast _ (Paging.ptIndex_lt virt) (.inr hwin) hp
  exact hs.taken (by rw [hrole]; exact pageRole_ne_other _ _ _ _)
    (by rw [hrole]; exact pageRole_ne_free _ _ _ _)

/-! ## A program with one page, and one with none -/

/-- A file that comes in one piece. -/
def FileAnswer.ofBytes (bytes : List UInt8) (hpos : 0 < bytes.length)
    (hle : bytes.length ≤ 10 * 1024 * 1024) : FileAnswer :=
  ⟨bytes.length, [bytes], hpos, hle, by simp⟩

/-- The header of an executable for the 386 with `phnum` program headers behind it. -/
def elfHeader (phnum : UInt8) : List UInt8 :=
  [0x7F, 69, 76, 70, 1, 1, 0, 0, 0, 0, 0, 0, 0, 0, 0, 0, 2, 0, 3, 0, 1, 0, 0, 0,
    0, 0, 0x40, 0, 52, 0, 0, 0, 0, 0, 0, 0, 0, 0, 0, 0, 52, 0, 32, 0, phnum, 0, 0, 0, 0, 0, 0, 0]

/-- A loadable segment of four zero bytes at 0x400800. -/
def zeroSegment : List UInt8 :=
  [1, 0, 0, 0, 0, 0, 0, 0, 0, 8, 0x40, 0, 0, 0, 0, 0, 0, 0, 0, 0, 4, 0, 0, 0, 6, 0, 0, 0, 0, 0x10,
    0, 0]

def onePageFile : FileAnswer :=
  ⟨84, [elfHeader 1 ++ zeroSegment], by decide, by decide, by decide⟩

def emptyFile : FileAnswer := ⟨52, [elfHeader 0], by decide, by decide, by decide⟩

theorem warmHeap_onePage : (warmHeap.bind fun h =>
      ((Sched.boot h).schedInit.schedSpawnElf "a" (some onePageFile)).toOption.bind fun s1 =>
        (s1.1.heap.kfree (s1.1.tasks 1).stack).toOption.bind fun h2 =>
          (s1.1.schedKill 1).toOption.map fun s2 =>
            ([decide ((s1.1.tasks 1).state = .unused), decide ((s2.1.tasks 1).state = .unused)],
              [s2.1.heap.paging.currentPd, s2.1.heap.heapMappedEnd,
                s2.1.heap.paging.pte 0x100000 (pdIndex (heapStart + 4096))
                  (ptIndex (heapStart + 4096)), (s1.1.tasks 1).pageDirectoryPhys,
                h2.paging.currentPd, h2.paging.pte 0x103000 1 0, h2.paging.pmm.baseUsableFrame,
                h2.paging.pmm.totalFrames], s2.2)) =
      some ([false, true], [0x100000, heapStart + 3 * 4096, 0x104003, 0x103000, 0x100000, 0x104007,
        0x100, 0x110], 0) := by
  decide +kernel

/-- A program of one page is started and killed: a frame the heap window still maps is free. -/
theorem window_frame_freed :
    ∃ (h₀ : Heap DiskImage) (a b : Tasks DiskImage) (clients : List (ℕ × ℕ)),
      h₀.paging.BootSpace ∧ ElfRun (fun _ _ => True) ⟨1, 2, 3⟩ h₀ a clients ∧
      a.sched.schedKill 1 = .ok (b.sched, 0) ∧ ElfRun (fun _ _ => True) ⟨1, 2, 3⟩ h₀ b clients ∧
      b.sched.heap.heapMappedEnd = heapStart + 3 * 4096 ∧
      b.sched.heap.paging.pte b.sched.heap.paging.currentPd (pdIndex (heapStart + 4096))
        (ptIndex (heapStart + 4096)) = 0x104003 ∧ 0x104 ∈ b.sched.heap.paging.pmm.freeSet := by
  have hrun := warmHeap_onePage
  simp only [Option.bind_eq_some_iff, Option.map_eq_some_iff] at hrun
  obtain ⟨h, hh, ⟨s1, r1⟩, hspawn, h2, hfree, ⟨s2, r2⟩, hkill, hvals⟩ := hrun
  simp only [Prod.mk.injEq, List.cons.injEq, and_true, decide_eq_false_iff_not,
    decide_eq_true_eq] at hvals
  obtain ⟨⟨hused, hdead⟩, ⟨hcur, hend, hpte, hpd, hcur2, hpage, hbase, htotal⟩, rfl⟩ := hvals
  obtain ⟨⟨h₀, allocs, hboot, hheap⟩, -⟩ := warmHeap_start hh
  have hstart : ElfRun (fun _ _ => True) ⟨1, 2, 3⟩ h₀ _ _ := .start hheap
  have hstarted := hstart.spawnElf trivial (ok_of_toOption hspawn)
  have hkilled := hstarted.task (.kill (ok_of_toOption hkill))
  refine ⟨h₀, _, _, _, hboot, hstarted, ok_of_toOption hkill, hkilled, hend, ?_, ?_⟩
  · rw [hcur]
    exact hpte
  -- the directory goes, and with it the frame of its only page below the stack
  have hinv := (Sched.inv_schedInit h).spawn
    (Sched.schedSpawnElf_cases (ok_of_toOption hspawn)).effect
  have hdrop : s2.heap = h2.dropDirectory 0x103000 := by
    obtain ⟨-, hdes⟩ := hinv.destroyed_of_kill (ok_of_toOption hkill) hused hdead
    obtain ⟨heap, hfree', hheap'⟩ := Sched.destroyTask_heap hused hdes
    obtain rfl := Except.ok.inj (hfree'.symm.trans (ok_of_toOption hfree))
    rw [hheap', hpd]
  have hmem : 0x104000 ∈ h2.paging.spaceFrames 0x103000 :=
    Paging.mem_spaceFrames.mpr
      (.inr (.inr ⟨1, by decide, 0, by decide, by rw [hpage], by rw [hpage]⟩))
  rw [hdrop, Heap.dropDirectory, if_pos ⟨by decide, by
    rw [Paging.pagingGetKernelDirectory, hcur2]; decide⟩]
  rw [Paging.pagingDestroyDirectory_eq (by rw [hcur2]; decide)]
  have hpos : 0 < h2.paging.pmm.baseUsableFrame := by omega
  have hmanaged := (Paging.mem_freeSet_foldl hpos _).2 0x104000 hmem
  rw [show 0x104000 / 4096 = 0x104 from rfl] at hmanaged
  dsimp only
  exact hmanaged (by omega) (by omega)

theorem bareHeap_empty : ((bareHeap 160).bind fun h => (h.kmalloc 8).toOption.bind fun h1 =>
      ((Sched.boot h1.1).schedInit.schedSpawnElf "a" (some emptyFile)).toOption.bind fun s1 =>
        (s1.1.schedKill 1).toOption.map fun s2 =>
          ((s1.2, s2.2, decide (spawnFrames (some emptyFile) ≤ h1.1.paging.pmm.freeFrames)),
            [s2.1.heap.paging.currentPd,
              s2.1.heap.paging.pte 0x100000 (pdIndex heapStart) (ptIndex heapStart)])) =
      some ((1, 0, true), [0x100000, 0x101003]) := by
  decide +kernel

/-- A program with nothing to load is started and killed: the page of the heap keeps its
frame. -/
theorem window_frames_taken_program :
    ∃ (h₀ : Heap DiskImage) (a b : Tasks DiskImage) (clients : List (ℕ × ℕ)),
      h₀.paging.BootSpace ∧ ElfRun SpawnsSegmentless ⟨1, 2, 3⟩ h₀ a clients ∧
      a.sched.schedKill 1 = .ok (b.sched, 0) ∧
      ElfRun SpawnsSegmentless ⟨1, 2, 3⟩ h₀ b clients ∧ b.sched.heap.paging.pmm.Taken 0x101 := by
  have hrun := bareHeap_empty
  simp only [Option.bind_eq_some_iff, Option.map_eq_some_iff] at hrun
  obtain ⟨h, hh, ⟨h1, p⟩, hk, ⟨s1, r1⟩, hspawn, ⟨s2, r2⟩, hkill, hvals⟩ := hrun
  simp only [Prod.mk.injEq, List.cons.injEq, and_true, decide_eq_true_eq] at hvals
  obtain ⟨⟨-, rfl, hroom⟩, hcur, hpte⟩ := hvals
  obtain ⟨⟨h₀, allocs, hboot, hheap⟩, hport⟩ := bareHeap_start hh (n := 39) (by decide +kernel)
  have hstart : ElfRun SpawnsSegmentless ⟨1, 2, 3⟩ h₀ _ _ :=
    .start (hheap.malloc (by decide) (.inr (.inl hport)) (ok_of_toOption hk))
  have hfile : ∀ f ∈ some emptyFile, f.Segmentless := by
    intro f hf
    cases hf
    decide +kernel
  have hstarted := hstart.spawnElf ⟨hfile, hroom⟩ (ok_of_toOption hspawn)
  have hkilled := hstarted.task (.kill (ok_of_toOption hkill))
  have hinuse : s2.InUse 0x100000 := .inl hcur.symm
  have hpresent : s2.heap.paging.pte 0x100000 (pdIndex heapStart) (ptIndex heapStart) % 2 = 1 := by
    rw [hpte]
  have htaken := window_frames_taken hboot hkilled hinuse le_rfl (by decide) hpresent
  rw [hpte] at htaken
  exact ⟨h₀, _, _, _, hboot, hstarted, ok_of_toOption hkill, hkilled, htaken⟩

end PenOS
