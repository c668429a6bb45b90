import PenOS.SchedRun

/-!
# The memory below the scheduler

Which heap and directory calls each call of the scheduler makes, in which order, and with what
it leaves the heap. `TaskRun` keeps track of the directory each task is meant to run in.
-/

namespace PenOS

variable {D : Type}
variable {entry f frame id : ℕ} {next : Slot} {name : String}

/-- The end of `destroy_task`, below the table: a directory other than the loaded one goes. -/
def Heap.dropDirectory (h : Heap D) (pd : ℕ) : Heap D :=
  if pd ≠ 0 ∧ pd ≠ h.paging.pagingGetKernelDirectory then
    { h with paging := h.paging.pagingDestroyDirectory pd }
  else h

namespace Sched

variable {s s' : Sched D} {i : Slot}

/-! ## Destroying and switching -/

/-- **`destroy_task`**: the stack is freed, then the directory is dropped. -/
theorem destroyTask_heap (hu : (s.tasks i).state ≠ .unused) (h : s.destroyTask i = .ok s') :
    ∃ heap, s.heap.kfree (s.tasks i).stack = .ok heap ∧
      s'.heap = heap.dropDirectory (s.tasks i).pageDirectoryPhys := by
  simp only [destroyTask, if_neg hu] at h
  have hstack : ∀ s1, s.releaseStack i = .ok s1 → s.heap.kfree (s.tasks i).stack = .ok s1.heap ∧
      (s1.tasks i).pageDirectoryPhys = (s.tasks i).pageDirectoryPhys := by
    intro s1 h1
    simp only [releaseStack] at h1
    split_ifs at h1 with h0
    · rcases hk : s.heap.kfree (s.tasks i).stack with e | heap <;> rw [hk] at h1
      · cases h1
      · cases h1
        exact ⟨rfl, by rw [setTask_tasks_self]⟩
    · cases h1
      rw [not_not.mp h0]
      exact ⟨rfl, rfl⟩
  rcases hr : s.releaseStack i with e | s1 <;> rw [hr] at h
  · cases h
  cases h
  obtain ⟨hfree, hpd⟩ := hstack s1 hr
  refine ⟨s1.heap, hfree, ?_⟩
  simp only [retireSlot, releaseDirectory, Heap.dropDirectory, hpd]
  split_ifs <;> rfl

/-- The first half of `sched_tick`, below the table: a task that has exited is destroyed. -/
theorem Inv.retireCurrent_heap {s1 : Sched D} (hs : s.Inv)
    (h : s.retireCurrent s.currentIndex frame = .ok s1) :
    (s.tasks s.currentIndex).state = .running ∧ s1.heap = s.heap ∨
    (s.tasks s.currentIndex).state = .zombie ∧
      ∃ s2, s.destroyTask s.currentIndex = .ok s2 ∧ s1.heap = s2.heap := by
  rcases hs.current_state with hrun | hz
  · rw [hs.retireCurrent_of_running hrun] at h
    cases h
    exact Or.inl ⟨hrun, rfl⟩
  · rw [hs.retireCurrent_of_zombie hz] at h
    obtain ⟨s2, hd, rfl⟩ := map_ok h
    exact Or.inr ⟨hz, s2, hd, rfl⟩

theorem switchTo_heap {s1 s2 : Sched D} (h : s1.switchTo next frame = (s2, f)) :
    s2.heap = if (s1.tasks next).pageDirectoryPhys ≠ 0 then { s1.heap with
        paging := s1.heap.paging.pagingSwitchDirectory (s1.tasks next).pageDirectoryPhys }
    else s1.heap := by
  simp only [switchTo, setState, setTask_tasks_self] at h
  split_ifs at h ⊢ <;> obtain ⟨rfl, -⟩ := Prod.mk.inj h <;> rfl

/-- The entries in use afterwards were in use before, with the same stack and directory. -/
def Survivors (s s' : Sched D) : Prop :=
  ∀ j, (s'.tasks j).state ≠ .unused → (s.tasks j).state ≠ .unused ∧
    (s'.tasks j).stack = (s.tasks j).stack ∧
    (s'.tasks j).pageDirectoryPhys = (s.tasks j).pageDirectoryPhys

theorem Survivors.of_tasks (h : s'.tasks = s.tasks) : s.Survivors s' := fun j hu => by
  rw [h] at hu ⊢
  exact ⟨hu, rfl, rfl⟩

theorem Destroyed.survivors (h : s.Destroyed s' i) : s.Survivors s' := fun j hu => by
  have hj : j ≠ i := by
    rintro rfl
    exact hu h.unused
  rw [h.other j hj] at hu ⊢
  exact ⟨hu, rfl, rfl⟩

theorem survivors_setTask {t : Task} (hu : (s.tasks i).state ≠ .unused)
    (hstack : t.stack = (s.tasks i).stack)
    (hpd : t.pageDirectoryPhys = (s.tasks i).pageDirectoryPhys) : s.Survivors (s.setTask i t) := by
  intro j hj
  by_cases hji : j = i
  · subst hji
    rw [setTask_tasks_self]
    exact ⟨hu, hstack, hpd⟩
  · rw [setTask_tasks_of_ne _ _ hji] at hj ⊢
    exact ⟨hj, rfl, rfl⟩

theorem Inv.survivors_kill {r : ℤ} (hs : s.Inv) (h : s.schedKill id = .ok (s', r)) :
    s.Survivors s' := by
  rcases schedKill_cases hs h with rfl | ⟨-, rfl⟩ | ⟨i, hu, -, -, hd⟩
  · exact .of_tasks rfl
  · exact survivors_setTask hs.current_used rfl rfl
  · exact (destroyTask_spec hu hd).survivors

/-- An entry that `sched_kill` makes unused has been destroyed. -/
theorem Inv.destroyed_of_kill {r : ℤ} (hs : s.Inv) (h : s.schedKill id = .ok (s', r))
    (hu : (s.tasks i).state ≠ .unused) (hdead : (s'.tasks i).state = .unused) :
    i ≠ 0 ∧ s.destroyTask i = .ok s' := by
  rcases schedKill_cases hs h with rfl | ⟨-, rfl⟩ | ⟨k, hku, hk, -, hd⟩
  · exact absurd hdead hu
  · by_cases hi : i = s.currentIndex
    · subst hi
      rw [setState, setTask_tasks_self] at hdead
      cases hdead
    · rw [setState, setTask_tasks_of_ne _ _ hi] at hdead
      exact absurd hdead hu
  · obtain rfl : i = k := by
      by_contra hne
      rw [(destroyTask_spec hku hd).other i hne] at hdead
      exact hu hdead
    exact ⟨hk, hd⟩

theorem Inv.survivors_paused {s1 : Sched D} (hs : s.Inv) (hp : s.Paused s1 frame) :
    s.Survivors s1 := by
  intro j hu
  by_cases hj : j = s.currentIndex
  · subst hj
    rcases hs.current_state with hrun | hz
    · rw [hp.saved hrun]
      exact ⟨hs.current_used, rfl, rfl⟩
    · exact absurd (hp.gone hz) hu
  · rw [hp.other j hj] at hu ⊢
    exact ⟨hu, rfl, rfl⟩

theorem survivors_switchTo {s1 s2 : Sched D}
    (h : s1.switchTo next frame = (s2, f)) (hu : (s1.tasks next).state ≠ .unused) :
    s1.Survivors s2 := by
  obtain ⟨hother, hself, -⟩ := switchTo_spec h
  intro j hj
  by_cases hjn : j = next
  · subst hjn
    rw [hself]
    exact ⟨hu, rfl, rfl⟩
  · rw [hother j hjn] at hj ⊢
    exact ⟨hj, rfl, rfl⟩

theorem Survivors.trans {s1 : Sched D} (h : s.Survivors s1) (h' : s1.Survivors s') :
    s.Survivors s' := fun j hu => by
  obtain ⟨hu1, h1, h2⟩ := h' j hu
  obtain ⟨hu0, h3, h4⟩ := h j hu1
  exact ⟨hu0, h1.trans h3, h2.trans h4⟩

theorem Inv.survivors_tick (hs : s.Inv) (h : s.schedTick frame = .ok (s', f)) : s.Survivors s' := by
  rcases hs.tick_cases h with ⟨-, -, -, rfl⟩ | ⟨s1, k, hret, hk, hsw⟩
  · exact survivors_setTask hs.main_used rfl rfl
  · have hrest := survivors_switchTo hsw (by rw [hk]; decide)
    exact (hs.survivors_paused (hs.retireCurrent hret)).trans hrest

/-! ## Spawning -/

variable [Disk D]

omit [Disk D] in
/-- One entry at most is filled. -/
theorem Installed.eq {j : Slot} (hi : s.Installed s' i) (hj : s.Installed s' j) : i = j := by
  by_contra hne
  have hstate := hi.state
  rw [hj.other i hne, hi.was_unused] at hstate
  cases hstate

omit [Disk D] in
theorem SameTable.not_installed (h : s.SameTable s') : ¬ s.Installed s' i := fun hi => by
  have hstate := hi.state
  rw [h.tasks, hi.was_unused] at hstate
  cases hstate

/-- A kernel task has no directory. -/
theorem SpawnedTask.pd_eq_zero (h : s.SpawnedTask s') (hi : s.Installed s' i) :
    (s'.tasks i).pageDirectoryPhys = 0 := by
  cases h with
  | full => exact absurd hi (SameTable.refl s).not_installed
  | noStack hsame _ => exact absurd hi hsame.not_installed
  | started _ _ hp => rw [hi.eq hp.installed, hp.pd_eq]

/-- A user task has a directory. -/
theorem SpawnedUser.pd_ne_zero (h : s.SpawnedUser entry s') (hi : s.Installed s' i) :
    (s'.tasks i).pageDirectoryPhys ≠ 0 := by
  cases h with
  | full => exact absurd hi (SameTable.refl s).not_installed
  | noDirectory hsame => exact absurd hi hsame.not_installed
  | noKernelStack hsame => exact absurd hi hsame.not_installed
  | noUserStack hsame => exact absurd hi hsame.not_installed
  | started _ hpd _ _ _ _ _ hp =>
    rw [hi.eq hp.installed, hp.pd_eq]
    exact hpd

end Sched

/-! ## Runs with directories -/

/-- A scheduler with the directory each task is meant to run in. -/
structure Tasks (D : Type) where
  sched : Sched D
  home : Slot → ℕ

/-- When tasks are spawned and the timer ticks, and what the rest of the kernel does to the
heap between two calls. -/
structure Conduct (D : Type) where
  spawn : Sched D → Prop
  tick : Sched D → Prop
  between : Sched D → Heap D → Prop

/-- The tasks put into an unused entry get the directory `d`. -/
def Sched.settle (s s' : Sched D) (home d : Slot → ℕ) : Slot → ℕ := fun i =>
  if (s.tasks i).state = .unused ∧ (s'.tasks i).state ≠ .unused then d i else home i

variable [Disk D]

/-- One call of the scheduler. A task of `sched_spawn_named` is at home in the directory `boot`, a
user task in its own. -/
inductive TaskStep (c : Conduct D) (syms : TaskSymbols) (boot : ℕ) : Tasks D → Tasks D → Prop where
  | between {a : Tasks D} (heap : Heap D) (hc : c.between a.sched heap) :
      TaskStep c syms boot a { a with sched := { a.sched with heap := heap } }
  | spawnNamed {a : Tasks D} {s : Sched D} {name : Option String} {r : ℤ} (hc : c.spawn a.sched)
      (h : a.sched.schedSpawnNamed syms name = .ok (s, r)) :
      TaskStep c syms boot a ⟨s, a.sched.settle s a.home fun _ => boot⟩
  | spawnUser {a : Tasks D} {s : Sched D} {entry : ℕ} {name : String} {r : ℤ} (hc : c.spawn a.sched)
      (hentry : entry < 4294967296) (h : a.sched.schedSpawnUser entry name = .ok (s, r)) :
      TaskStep c syms boot a
        ⟨s, a.sched.settle s a.home fun i => (s.tasks i).pageDirectoryPhys⟩
  | kill {a : Tasks D} {s : Sched D} {id : ℕ} {r : ℤ} (h : a.sched.schedKill id = .ok (s, r)) :
      TaskStep c syms boot a { a with sched := s }
  | exit {a : Tasks D} {s : Sched D} {r : ℤ} (h : a.sched.sysExit = .ok (s, r)) :
      TaskStep c syms boot a { a with sched := s }
  /-- the function of a spawned task returned -/
  | trampoline {a : Tasks D} (hcur : a.sched.currentTask ≠ some 0) :
      TaskStep c syms boot a { a with sched := a.sched.taskTrampolineEnd }
  | tick {a : Tasks D} {s : Sched D} {frame f : ℕ} (hc : c.tick a.sched)
      (h : a.sched.schedTick frame = .ok (s, f)) : TaskStep c syms boot a { a with sched := s }

/-- The states reached from `sched_init` on the heap `h₀`, in the directory loaded there. -/
def TaskRun (c : Conduct D) (syms : TaskSymbols) (h₀ : Heap D) : Tasks D → Prop :=
  Relation.ReflTransGen (TaskStep c syms h₀.paging.currentPd)
    ⟨(Sched.boot h₀).schedInit, fun _ => h₀.paging.currentPd⟩

variable {c : Conduct D} {syms : TaskSymbols} {h₀ : Heap D} {a b : Tasks D} {boot : ℕ}

/-- One call keeps the table in order. -/
theorem TaskStep.inv (h : TaskStep c syms boot a b) (hs : a.sched.Inv) : b.sched.Inv := by
  cases h with
  | between heap _ => exact hs.sameTable ⟨rfl, rfl, rfl, rfl, rfl⟩
  | spawnNamed _ h => exact hs.spawn (Sched.schedSpawnNamed_spec h)
  | spawnUser _ _ h => exact hs.spawn (Sched.schedSpawnUser_spec h)
  | kill h => exact hs.kill h
  | exit h => exact hs.kill h
  | trampoline hcur =>
    rw [hs.current] at hcur
    rw [Sched.taskTrampolineEnd, hs.current]
    exact hs.exit fun h0 => hcur (congrArg some h0)
  | tick _ h => exact hs.tick h

theorem TaskRun.inv (h : TaskRun c syms h₀ a) : a.sched.Inv := by
  induction h with
  | refl => exact Sched.inv_schedInit h₀
  | tail _ hstep ih => exact hstep.inv ih

end PenOS
