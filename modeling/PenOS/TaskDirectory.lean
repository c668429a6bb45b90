import PenOS.HeapSafe
import PenOS.PageMap
import PenOS.TaskRun

/-!
# The directory a task runs in

`sched_tick` loads the directory of the task it resumes if the task has one; a task of
`sched_spawn_named` has none and goes on in whatever directory is loaded.
-/

namespace PenOS

variable {D : Type}
variable {n p pd target : ℕ} {c : Conduct D} {d : Slot → ℕ}

/-! ## Calls that leave the loaded directory -/

namespace Paging

variable {s s' : Paging D}

theorem copyKernelHalf_currentPd (s : Paging D) (newPd : ℕ) :
    (s.copyKernelHalf newPd).currentPd = s.currentPd := by
  simp only [copyKernelHalf]
  induction List.range' 768 256 generalizing s with
  | nil => rfl
  | cons i is ih => exact ih _

theorem setRecursive_currentPd (s : Paging D) (pd : ℕ) :
    (s.setRecursive pd).currentPd = s.currentPd := rfl

theorem pagingDestroyDirectory_currentPd (s : Paging D) (pd : ℕ) :
    (s.pagingDestroyDirectory pd).currentPd = s.currentPd := by
  simp only [pagingDestroyDirectory]
  split_ifs <;> rfl

theorem pagingSwitchDirectory_currentPd (s : Paging D) (pd : ℕ) :
    (s.pagingSwitchDirectory pd).currentPd = pd := by
  simp only [pagingSwitchDirectory]
  split_ifs with h
  · exact h.symm
  · rfl

variable [Disk D]

theorem pagingSwapOut_currentPd (s : Paging D) (virt : ℕ) :
    (s.pagingSwapOut virt).1.currentPd = s.currentPd := by
  simp only [pagingSwapOut]
  rcases s.findPageTable (virt &&& 0xFFFFF000) with _ | table
  · rfl
  · dsimp only
    split_ifs
    · rfl
    · split <;> rfl

omit [Disk D] in
theorem advanceHand_currentPd (s : Paging D) : s.advanceHand.currentPd = s.currentPd := by
  simp only [advanceHand]
  split_ifs <;> rfl

theorem evictLoop_currentPd (n : ℕ) (s : Paging D) : (evictLoop n s).1.currentPd = s.currentPd := by
  induction n generalizing s with
  | zero => rfl
  | succ n ih =>
    simp only [evictLoop]
    split_ifs
    · exact (ih _).trans s.advanceHand_currentPd
    · exact (pagingSwapOut_currentPd _ _).trans s.advanceHand_currentPd
    · exact (ih _).trans ((pagingSwapOut_currentPd _ _).trans s.advanceHand_currentPd)
    · exact (ih _).trans s.advanceHand_currentPd
    · exact (ih _).trans s.advanceHand_currentPd

theorem allocFrameZero_currentPd {a : ℕ} (h : s.allocFrameZero = .ok (s', a)) :
    s'.currentPd = s.currentPd := by
  simp only [allocFrameZero] at h
  split_ifs at h <;> cases h
  · exact evictLoop_currentPd _ _
  · rfl

theorem pagingMap_currentPd {virt phys flags : ℕ} (h : s.pagingMap virt phys flags = .ok s') :
    s'.currentPd = s.currentPd := by
  simp only [pagingMap] at h
  rcases ht : s.getPageTable virt flags with e | ⟨s1, table⟩ <;> rw [ht] at h
  · cases h
  cases h
  change s1.currentPd = s.currentPd
  simp only [getPageTable] at ht
  split_ifs at ht
  · rcases ha : s.allocFrameZero with e | ⟨s2, a⟩ <;> rw [ha] at ht
    · cases ht
    cases ht
    have halloc := allocFrameZero_currentPd ha
    exact halloc
  all_goals
    cases ht
    rfl

theorem pagingCreateDirectory_currentPd (h : s.pagingCreateDirectory = .ok (s', pd)) :
    s'.currentPd = s.currentPd := by
  simp only [pagingCreateDirectory] at h
  rcases ha : s.allocFrameZero with e | ⟨s1, a⟩ <;> rw [ha] at h
  · cases h
  obtain ⟨rfl, -⟩ := ok_pair h
  rw [setRecursive_currentPd, copyKernelHalf_currentPd, allocFrameZero_currentPd ha]

end Paging

namespace Heap

variable {h h' : Heap D}

theorem trimTail_currentPd (hrun : trimTail n h = .ok h') :
    h'.paging.currentPd = h.paging.currentPd := by
  induction n generalizing h with
  | zero => cases hrun
  | succ n ih =>
    simp only [trimTail] at hrun
    rcases ht : heapTail h.window h.heapHead with e | tail <;> rw [ht] at hrun
    · cases hrun
    dsimp only at hrun
    split_ifs at hrun
    · cases hrun
      rfl
    · cases hrun
      rfl
    · have hrest := ih hrun
      exact hrest
    · have hrest := ih hrun
      exact hrest

theorem unmapDown_currentPd (hrun : unmapDown target n h = .ok h') :
    h'.paging.currentPd = h.paging.currentPd := by
  induction n generalizing h with
  | zero => cases hrun
  | succ n ih =>
    simp only [unmapDown] at hrun
    split_ifs at hrun
    · have hrest := ih hrun
      exact hrest.trans (Paging.pagingUnmap_currentPd _ _)
    · have hrest := ih hrun
      exact hrest.trans (Paging.pagingUnmap_currentPd _ _)
    · cases hrun
      rfl

/-- **`kfree`** stays in the loaded directory. -/
theorem kfree_currentPd (hrun : h.kfree p = .ok h') : h'.paging.currentPd = h.paging.currentPd := by
  simp only [kfree] at hrun
  split_ifs at hrun
  · cases hrun
    rfl
  · cases hrun
    rfl
  · simp only [heapTrim] at hrun
    split at hrun
    · cases hrun
    · rename_i h1 ht
      have htail := trimTail_currentPd ht
      exact (unmapDown_currentPd hrun).trans htail

theorem dropDirectory_currentPd (h : Heap D) (pd : ℕ) :
    (h.dropDirectory pd).paging.currentPd = h.paging.currentPd := by
  simp only [dropDirectory]
  split_ifs
  · exact Paging.pagingDestroyDirectory_currentPd _ _
  · rfl

variable [Disk D]

theorem ensureSpace_currentPd (hrun : ensureSpace target n h = .ok h') :
    h'.paging.currentPd = h.paging.currentPd := by
  induction n generalizing h with
  | zero => cases hrun
  | succ n ih =>
    simp only [ensureSpace] at hrun
    split_ifs at hrun
    · rcases hm : h.mapNewPage h.heapMappedEnd with e | h1 <;> rw [hm] at hrun
      · cases hrun
      have hrest := ih hrun
      refine hrest.trans ?_
      simp only [mapNewPage] at hm
      split_ifs at hm
      rcases hp : { h.paging with pmm := (pmmAllocFrame h.paging.pmm).1 }.pagingMap h.heapMappedEnd
        (pmmAllocFrame h.paging.pmm).2 (pageRw ||| pagePresent) with e | p <;> rw [hp] at hm
      · cases hm
      cases hm
      have hmap := Paging.pagingMap_currentPd hp
      exact hmap
    · cases hrun
      rfl

/-- **`kmalloc`** stays in the loaded directory. -/
theorem kmalloc_currentPd {want : ℕ} (hrun : h.kmalloc want = .ok (h', p)) :
    h'.paging.currentPd = h.paging.currentPd := by
  simp only [kmalloc] at hrun
  split_ifs at hrun
  · cases hrun
    rfl
  rcases hf : findFit h.window (alignUp want 4) heapFuel h.heapHead with e | block <;>
    rw [hf] at hrun
  · cases hrun
  dsimp only at hrun
  split_ifs at hrun
  · cases hrun
    rfl
  rcases hr : h.requestBlock (alignUp want 4) with e | ⟨h1, block1⟩ <;> rw [hr] at hrun
  · cases hrun
  -- a new block: the window may have grown
  have hblock : h1.paging.currentPd = h.paging.currentPd := by
    simp only [requestBlock] at hr
    split_ifs at hr
    · cases hr
      rfl
    rcases he : h.ensureSpace _ heapFuel with e | h2 <;> rw [he] at hr
    · cases hr
    cases hr
    have hspace := ensureSpace_currentPd he
    exact hspace
  dsimp only at hrun
  split_ifs at hrun
  · cases hrun
    exact hblock
  · simp only [appendBlock] at hrun
    split_ifs at hrun
    · cases hrun
      exact hblock
    · rcases hl : lastFrom h1.window heapFuel h1.heapHead with e | tail <;> rw [hl] at hrun
      · cases hrun
      cases hrun
      exact hblock

end Heap

namespace Sched

variable {s s' : Sched D} {i : Slot}

theorem destroyTask_currentPd (hu : (s.tasks i).state ≠ .unused) (h : s.destroyTask i = .ok s') :
    s'.heap.paging.currentPd = s.heap.paging.currentPd := by
  obtain ⟨heap, hfree, hheap⟩ := destroyTask_heap hu h
  rw [hheap, Heap.dropDirectory_currentPd, Heap.kfree_currentPd hfree]

theorem Placed.currentPd {h : Heap D} {stack : ℕ} (hp : s.Placed s' h i stack pd) :
    s'.heap.paging.currentPd = h.paging.currentPd := by
  obtain ⟨f, hheap⟩ := hp.heap_eq
  rw [hheap]

variable [Disk D]

theorem SpawnedTask.currentPd (h : s.SpawnedTask s') :
    s'.heap.paging.currentPd = s.heap.paging.currentPd := by
  cases h with
  | full => rfl
  | noStack _ hk => exact Heap.kmalloc_currentPd hk
  | started hk _ hp => rw [hp.currentPd, Heap.kmalloc_currentPd hk]

theorem SpawnedUser.currentPd {entry : ℕ} (h : s.SpawnedUser entry s') :
    s'.heap.paging.currentPd = s.heap.paging.currentPd := by
  cases h with
  | full => rfl
  | noDirectory _ hcreate heap =>
    rw [heap]
    exact Paging.pagingCreateDirectory_currentPd hcreate
  | noKernelStack _ hcreate _ hk heap =>
    rw [heap]
    dsimp only
    rw [Paging.pagingDestroyDirectory_currentPd, Heap.kmalloc_currentPd hk]
    exact Paging.pagingCreateDirectory_currentPd hcreate
  | noUserStack _ hcreate _ hk _ hu hfree heap =>
    rw [heap]
    dsimp only
    rw [Paging.pagingDestroyDirectory_currentPd, Heap.kfree_currentPd hfree,
      Heap.kmalloc_currentPd hu, Heap.kmalloc_currentPd hk]
    exact Paging.pagingCreateDirectory_currentPd hcreate
  | started hcreate _ hk _ hu _ _ hp =>
    -- the old directory is loaded again
    rw [hp.currentPd]
    dsimp only
    rw [Paging.pagingSwitchDirectory_currentPd, Heap.kmalloc_currentPd hu,
      Heap.kmalloc_currentPd hk]
    exact Paging.pagingCreateDirectory_currentPd hcreate

end Sched

/-! ## Tasks at home -/

/-- The directory loaded after a tick is that of the new task, if it has one. -/
theorem Sched.Inv.tick_currentPd {s s' : Sched D} {frame f : ℕ} (hs : s.Inv)
    (h : s.schedTick frame = .ok (s', f)) : s'.currentTask = s.currentTask ∧ s'.heap = s.heap ∨
    ∃ k, s'.currentTask = some k ∧ s'.heap.paging.currentPd =
      if (s'.tasks k).pageDirectoryPhys ≠ 0 then (s'.tasks k).pageDirectoryPhys
      else s.heap.paging.currentPd := by
  rcases hs.tick_cases h with ⟨-, -, -, rfl⟩ | ⟨s1, k, hret, -, hsw⟩
  · exact Or.inl ⟨rfl, rfl⟩
  obtain ⟨-, hself, -, hcur, -⟩ := Sched.switchTo_spec hsw
  have hheap : s1.heap.paging.currentPd = s.heap.paging.currentPd := by
    rcases hs.retireCurrent_heap hret with ⟨-, h1⟩ | ⟨-, s2, hd, h1⟩
    · rw [h1]
    · rw [h1, Sched.destroyTask_currentPd hs.current_used hd]
  refine Or.inr ⟨k, hcur, ?_⟩
  rw [Sched.switchTo_heap hsw, hself]
  dsimp only
  split_ifs
  · exact Paging.pagingSwitchDirectory_currentPd _ _
  · exact hheap

/-- The table knows the home of every task; the boot thread is at home in `boot`. -/
structure Tasks.Homes (a : Tasks D) (boot : ℕ) : Prop where
  main : (a.sched.tasks 0).pageDirectoryPhys = boot
  home : ∀ i, (a.sched.tasks i).state ≠ .unused →
    a.home i = if (a.sched.tasks i).pageDirectoryPhys ≠ 0 then
      (a.sched.tasks i).pageDirectoryPhys else boot

/-- The current task runs in the directory it is at home in. -/
def Tasks.AtHome (a : Tasks D) : Prop :=
  ∀ i, a.sched.currentTask = some i → a.sched.heap.paging.currentPd = a.home i

variable {a b : Tasks D} {boot : ℕ}

theorem Tasks.Homes.survivors (ha : a.Homes boot) {s : Sched D} (h : a.sched.Survivors s)
    (hmain : (s.tasks 0).state ≠ .unused) : { a with sched := s }.Homes boot where
  main := (h 0 hmain).2.2.trans ha.main
  home i hu := by
    obtain ⟨hu0, -, hpd⟩ := h i hu
    rw [hpd]
    exact ha.home i hu0

/-- A spawned task is at home where the table says. -/
theorem Tasks.Homes.spawn (ha : a.Homes boot) (hinv : a.sched.Inv) {s : Sched D}
    (h : a.sched.SpawnEffect s) (hd : ∀ i, a.sched.Installed s i → d i =
      if (s.tasks i).pageDirectoryPhys ≠ 0 then (s.tasks i).pageDirectoryPhys else boot) :
    Tasks.Homes ⟨s, a.sched.settle s a.home d⟩ boot := by
  rcases h with hsame | ⟨i, -, hi⟩
  · refine ⟨by rw [hsame.tasks]; exact ha.main, fun j hu => ?_⟩
    dsimp only at hu ⊢
    rw [hsame.tasks] at hu ⊢
    rw [Sched.settle, if_neg fun hc => hu hc.1]
    exact ha.home j hu
  · have hmain : (0 : Slot) ≠ i := fun h0 => hinv.main_used (h0 ▸ hi.was_unused)
    refine ⟨by rw [hi.other 0 hmain]; exact ha.main, fun j hu => ?_⟩
    dsimp only at hu ⊢
    by_cases hji : j = i
    · subst hji
      rw [Sched.settle, if_pos ⟨hi.was_unused, hu⟩]
      exact hd j hi
    · rw [hi.other j hji] at hu ⊢
      rw [Sched.settle, if_neg fun hc => hu hc.1]
      exact ha.home j hu

/-- Whoever is current after a spawn was so before, and has not moved. -/
theorem Tasks.AtHome.spawn (ha : a.AtHome) (hinv : a.sched.Inv) {s : Sched D}
    (h : a.sched.SpawnEffect s) (hpd : s.heap.paging.currentPd = a.sched.heap.paging.currentPd) :
    Tasks.AtHome ⟨s, a.sched.settle s a.home d⟩ := by
  have hcur : s.currentTask = a.sched.currentTask := by
    rcases h with hsame | ⟨i, -, hi⟩
    · exact hsame.currentTask
    · exact hi.currentTask
  intro i hi
  dsimp only at hi ⊢
  rw [hcur] at hi
  have hused : (a.sched.tasks i).state ≠ .unused := by
    rw [hinv.current] at hi
    cases hi
    exact hinv.current_used
  rw [hpd, Sched.settle, if_neg fun hc => hused hc.1]
  exact ha i hi

variable [Disk D] {syms : TaskSymbols} {h₀ : Heap D}

/-- Only the scheduler switches directories, and no tick finds another directory than `boot` loaded
while a task without a directory is in the table. -/
def Separate (D : Type) (boot : ℕ) : Conduct D where
  spawn _ := True
  tick s := s.heap.paging.currentPd = boot ∨
    ∀ i, (s.tasks i).state ≠ .unused → (s.tasks i).pageDirectoryPhys ≠ 0
  between s h := h.paging.currentPd = s.heap.paging.currentPd

/-- Whatever the ticks find. -/
def Unguarded (D : Type) : Conduct D where
  spawn _ := True
  tick _ := True
  between s h := h.paging.currentPd = s.heap.paging.currentPd

/-- One call keeps the homes. -/
theorem TaskStep.homes (h : TaskStep c syms boot a b) (hinv : a.sched.Inv)
    (ha : a.Homes boot) : b.Homes boot := by
  have hinv' := h.inv hinv
  cases h with
  | between heap _ => exact ⟨ha.main, ha.home⟩
  | spawnNamed _ hrun =>
    refine ha.spawn hinv (Sched.schedSpawnNamed_spec hrun) fun i hi => ?_
    rw [if_neg (not_not.mpr ((Sched.schedSpawnNamed_cases hrun).pd_eq_zero hi))]
  | spawnUser _ _ hrun =>
    refine ha.spawn hinv (Sched.schedSpawnUser_spec hrun) fun i hi => ?_
    rw [if_pos ((Sched.schedSpawnUser_cases hrun).pd_ne_zero hi)]
  | kill hrun => exact ha.survivors (hinv.survivors_kill hrun) hinv'.main_used
  | exit hrun => exact ha.survivors (hinv.survivors_kill hrun) hinv'.main_used
  | trampoline _ =>
    refine ha.survivors ?_ hinv'.main_used
    rw [Sched.taskTrampolineEnd, hinv.current]
    exact Sched.survivors_setTask hinv.current_used rfl rfl
  | tick _ hrun => exact ha.survivors (hinv.survivors_tick hrun) hinv'.main_used

theorem TaskRun.homes (h : TaskRun c syms h₀ a) : a.Homes h₀.paging.currentPd := by
  induction h with
  | refl =>
    refine ⟨rfl, fun i hu => ?_⟩
    by_cases hi : i = 0
    · subst hi
      change h₀.paging.currentPd =
        if h₀.paging.currentPd ≠ 0 then h₀.paging.currentPd else h₀.paging.currentPd
      rw [ite_self]
    · exact absurd (by simp [Sched.schedInit, hi, Task.zero]) hu
  | tail hrun hstep ih => exact hstep.homes (TaskRun.inv hrun) ih

/-- One call leaves the current task at home. -/
theorem TaskStep.atHome (h : TaskStep (Separate D boot) syms boot a b) (hinv : a.sched.Inv)
    (hhomes : a.Homes boot) (ha : a.AtHome) : b.AtHome := by
  have hhomes' := h.homes hinv hhomes
  have hinv' := h.inv hinv
  have hkill : ∀ {id : ℕ} {s : Sched D} {r : ℤ}, a.sched.schedKill id = .ok (s, r) →
      Tasks.AtHome { a with sched := s } := by
    intro id s r hrun i hi
    rcases Sched.schedKill_cases hinv hrun with rfl | ⟨-, rfl⟩ | ⟨j, hu, -, -, hd⟩
    · exact ha i hi
    · exact ha i hi
    · rw [Sched.destroyTask_currentPd hu hd]
      exact ha i ((Sched.destroyTask_spec hu hd).currentTask.symm.trans hi)
  cases h with
  | between heap hc => exact fun i hi => hc.trans (ha i hi)
  | spawnNamed _ hrun =>
    exact ha.spawn hinv (Sched.schedSpawnNamed_spec hrun)
      (Sched.schedSpawnNamed_cases hrun).currentPd
  | spawnUser _ _ hrun =>
    exact ha.spawn hinv (Sched.schedSpawnUser_spec hrun) (Sched.schedSpawnUser_cases hrun).currentPd
  | kill hrun => exact hkill hrun
  | exit hrun => exact hkill hrun
  | trampoline _ =>
    rw [Sched.taskTrampolineEnd, hinv.current]
    exact fun i hi => ha i hi
  | tick hc hrun =>
    rcases hinv.tick_currentPd hrun with ⟨hcur, hheap⟩ | ⟨k, hcur, hpd⟩
    · intro i hi
      rw [hheap]
      exact ha i (hcur.symm.trans hi)
    · intro i hi
      obtain rfl := Option.some.inj (hcur.symm.trans hi)
      have hused := hinv'.current_used
      rw [hinv'.current] at hi
      cases hi
      rw [hpd, hhomes'.home _ hused]
      dsimp only
      split_ifs with h0
      · rfl
      · -- a task without a directory: `boot` was loaded
        obtain ⟨hu, -, hold⟩ := hinv.survivors_tick hrun _ hused
        exact hc.resolve_right fun hall => hall _ hu (hold ▸ not_not.mp h0)

/-- **Each task runs in its own address space**, or in that of `sched_init`, in every run in which
no tick finds a process directory loaded and a task without one in the table. -/
theorem current_task_at_home (h : TaskRun (Separate D h₀.paging.currentPd) syms h₀ a) :
    a.AtHome ∧ a.home 0 = h₀.paging.currentPd ∧ ∀ i, (a.sched.tasks i).state ≠ .unused → a.home i =
        if (a.sched.tasks i).pageDirectoryPhys ≠ 0 then (a.sched.tasks i).pageDirectoryPhys
        else h₀.paging.currentPd := by
  have hinv := TaskRun.inv h
  have hhomes := TaskRun.homes h
  refine ⟨?_, ?_, hhomes.home⟩
  · induction h with
    | refl => exact fun i hi => rfl
    | tail hrun hstep ih =>
      have hinv := TaskRun.inv hrun
      have hhomes := TaskRun.homes hrun
      exact hstep.atHome hinv hhomes (ih hinv hhomes)
  · rw [hhomes.home 0 hinv.main_used, hhomes.main]
    exact ite_self _

/-! ## A kernel task behind a user task -/

theorem warmHeap_two_ticks : (warmHeap.bind fun h =>
      ((Sched.boot h).schedInit.schedSpawnUser 0x1000 "init").toOption.bind fun s1 =>
        (s1.1.schedSpawnNamed ⟨1, 2, 3⟩ (some "counter")).toOption.bind fun s2 =>
          (s2.1.schedTick 500).toOption.bind fun s3 => (s3.1.schedTick 600).toOption.map fun s4 =>
            ((s3.1.currentTask, s4.1.currentTask), [h.paging.currentPd, s2.1.heap.paging.currentPd,
              s3.1.heap.paging.currentPd, s4.1.heap.paging.currentPd,
              (s4.1.tasks 1).pageDirectoryPhys, (s4.1.tasks 2).pageDirectoryPhys])) =
      some ((some 1, some 2), [0x100000, 0x100000, 0x103000, 0x103000, 0x103000, 0]) := by
  decide +kernel

/-- The first tick resumes the user task, the second one the kernel task: it runs in the
directory of the user task. -/
theorem kernel_task_not_at_home :
    ∃ (h₀ : Heap DiskImage) (a : Tasks DiskImage), TaskRun (Unguarded DiskImage) ⟨1, 2, 3⟩ h₀ a ∧
      a.sched.currentTask = some 2 ∧ (a.sched.tasks 2).pageDirectoryPhys = 0 ∧
      a.home 2 = h₀.paging.currentPd ∧ h₀.paging.currentPd = 0x100000 ∧
      (a.sched.tasks 1).pageDirectoryPhys = 0x103000 ∧
      a.sched.heap.paging.currentPd = 0x103000 ∧ ¬ a.AtHome := by
  have hrun := warmHeap_two_ticks
  simp only [Option.bind_eq_some_iff, Option.map_eq_some_iff] at hrun
  obtain ⟨h, -, ⟨s1, r1⟩, h1, ⟨s2, r2⟩, h2, ⟨s3, f3⟩, h3, ⟨s4, f4⟩, h4, hvals⟩ := hrun
  simp only [Prod.mk.injEq, List.cons.injEq, and_true] at hvals
  obtain ⟨⟨-, hcur⟩, hboot, -, -, hloaded, huser, hkernel⟩ := hvals
  obtain ⟨home, hreach⟩ : ∃ home, TaskRun (Unguarded DiskImage) ⟨1, 2, 3⟩ h ⟨s4, home⟩ :=
    ⟨_, (((Relation.ReflTransGen.refl.tail (.spawnUser trivial (by decide)
      (ok_of_toOption h1))).tail (.spawnNamed trivial (ok_of_toOption h2))).tail
      (.tick trivial (ok_of_toOption h3))).tail (.tick trivial (ok_of_toOption h4))⟩
  have hinv := hreach.inv
  have hidx : s4.currentIndex = 2 := Option.some.inj (hinv.current.symm.trans hcur)
  have hhome : home 2 = h.paging.currentPd :=
    (hreach.homes.home 2 (hidx ▸ hinv.current_used)).trans (if_neg (not_not.mpr hkernel))
  refine ⟨h, _, hreach, hcur, hkernel, hhome, hboot, huser, hloaded, fun ha => ?_⟩
  exact absurd (hloaded.symm.trans ((ha 2 hcur).trans (hhome.trans hboot))) (by decide)

/-- The tick that resumes the user task meets the condition. -/
theorem current_task_at_home_user : ∃ (h₀ : Heap DiskImage) (a : Tasks DiskImage),
      TaskRun (Separate DiskImage h₀.paging.currentPd) ⟨1, 2, 3⟩ h₀ a ∧
      a.sched.currentTask = some 1 ∧ a.AtHome ∧
      a.sched.heap.paging.currentPd ≠ h₀.paging.currentPd := by
  have hrun := warmHeap_two_ticks
  simp only [Option.bind_eq_some_iff, Option.map_eq_some_iff] at hrun
  obtain ⟨h, -, ⟨s1, r1⟩, h1, ⟨s2, r2⟩, h2, ⟨s3, f3⟩, h3, ⟨s4, f4⟩, -, hvals⟩ := hrun
  simp only [Prod.mk.injEq, List.cons.injEq, and_true] at hvals
  obtain ⟨⟨hcur, -⟩, hboot, hstay, hloaded, -⟩ := hvals
  obtain ⟨home, hreach⟩ : ∃ home, TaskRun (Separate DiskImage h.paging.currentPd) ⟨1, 2, 3⟩ h
      ⟨s3, home⟩ :=
    ⟨_, ((Relation.ReflTransGen.refl.tail (.spawnUser trivial (by decide)
      (ok_of_toOption h1))).tail (.spawnNamed trivial (ok_of_toOption h2))).tail
      (.tick (Or.inl (hstay.trans hboot.symm)) (ok_of_toOption h3))⟩
  refine ⟨h, _, hreach, hcur, (current_task_at_home hreach).1, ?_⟩
  rw [hloaded, hboot]
  decide

end PenOS
