import PenOS.TaskStacks

/-!
# What the end of a task frees

`destroy_task` frees the stack of a task and nothing else from the heap: the tick after an exit
frees the stack it runs on, and other blocks of a task are left behind.
-/

namespace PenOS

variable {D : Type} [Disk D] {syms : TaskSymbols} {s s' : Sched D} {i : Slot}

/-! ## The stack a tick runs on -/

omit [Disk D] in
/-- The stack of the current task is a live block of `h` if it was one before, and still mapped. -/
def Sched.StackKept (s : Sched D) (h : Heap D) : Prop :=
  ∀ i, s.currentTask = some i → ∀ k, ((s.tasks i).stack, k) ∈ s.heap.liveBlocks →
    ((s.tasks i).stack, k) ∈ h.liveBlocks ∧ (s.tasks i).stack + k ≤ h.heapMappedEnd

/-- **The stack below a tick**: in every state a tick leaves the stack of the task it interrupted
alone if and only if the task has not exited. -/
theorem tick_keeps_stack_iff {frame f : ℕ} (hrun : KernelRun syms s)
    (htick : s.schedTick frame = .ok (s', f)) :
    s.StackKept s'.heap ↔ ∀ i, s.currentTask = some i → (s.tasks i).state ≠ .zombie := by
  have hs := hrun.stackInv
  obtain ⟨hsound, ⟨hrunning, hlive⟩ | ⟨hz, -, k, hmem, hlive⟩⟩ := hs.tick_live htick
  · refine iff_of_true (fun i hi k hmem => ?_) fun i hi => ?_
    · rw [← hlive] at hmem
      exact ⟨hmem, (hsound.live_mapped hmem).2.1⟩
    · obtain rfl := Option.some.inj (hs.table.current.symm.trans hi)
      rw [hrunning]
      decide
  · refine iff_of_false (fun hkept => ?_) fun hall => hall _ hs.table.current hz
    have hgone := (hkept _ hs.table.current k hmem).1
    rw [hlive] at hgone
    exact (hs.sound.live_nodup.mem_erase_iff.mp hgone).1 rfl

theorem smallHeap_own_stack : (smallHeap.bind fun h =>
      ((Sched.boot h).schedInit.schedSpawnNamed ⟨1, 2, 3⟩ (some "counter")).toOption.bind fun s1 =>
        (s1.1.schedTick 500).toOption.bind fun s2 =>
          (s2.1.schedTick 0xC1000FC4).toOption.bind fun t => s2.1.sysExit.toOption.bind fun s3 =>
            (s3.1.schedTick 0xC1000FC4).toOption.map fun s4 =>
              ([decide (s2.1.currentTask = some 1), decide ((s2.1.tasks 1).state = .running),
                  decide (t.1.currentTask = some 0), decide (s3.1.currentTask = some 1)],
                (s3.1.tasks 1).stack, s3.1.heap.liveBlocks, s4.1.heap.liveBlocks)) =
      some ([true, true, true, true], 0xC1000010, [(0xC1000010, 4096)], []) := by
  decide +kernel

/-- A task has exited. The timer interrupts it on its stack, and the tick frees that stack. -/
theorem exited_task_frees_own_stack : ∃ (s s' : Sched DiskImage) (f : ℕ), KernelRun ⟨1, 2, 3⟩ s ∧
      s.schedTick 0xC1000FC4 = .ok (s', f) ∧ s.currentTask = some 1 ∧
      (s.tasks 1).stack = 0xC1000010 ∧ s.heap.liveBlocks = [(0xC1000010, 4096)] ∧
      s'.heap.liveBlocks = [] ∧ ¬ s.StackKept s'.heap := by
  have hrun := smallHeap_own_stack
  simp only [Option.bind_eq_some_iff, Option.map_eq_some_iff] at hrun
  obtain ⟨h, hh, ⟨s1, r1⟩, h1, ⟨s2, f2⟩, h2, _, -, ⟨s3, r3⟩, h3, ⟨s4, f4⟩, h4, hvals⟩ := hrun
  simp only [Prod.mk.injEq, List.cons.injEq, and_true, decide_eq_true_eq] at hvals
  obtain ⟨⟨-, -, -, hcur⟩, hstack, hlive, hgone⟩ := hvals
  have hreach : KernelRun ⟨1, 2, 3⟩ s3 := (((KernelRun.start (smallHeap_reach hh)).step
    (.spawnNamed (ok_of_toOption h1))).step (.tick (ok_of_toOption h2))).step
    (.exit (ok_of_toOption h3))
  refine ⟨s3, s4, f4, hreach, ok_of_toOption h4, hcur, hstack, hlive, hgone, fun hkept => ?_⟩
  have hmem := (hkept 1 hcur 4096 (by rw [hstack, hlive]; exact List.mem_cons_self)).1
  rw [hgone] at hmem
  exact List.not_mem_nil hmem

/-- A running task keeps its stack. -/
theorem tick_keeps_stack_iff_running : ∃ (s s' : Sched DiskImage) (f : ℕ), KernelRun ⟨1, 2, 3⟩ s ∧
      s.schedTick 0xC1000FC4 = .ok (s', f) ∧ s.currentTask = some 1 ∧ s'.currentTask = some 0 ∧
      s.StackKept s'.heap := by
  have hrun := smallHeap_own_stack
  simp only [Option.bind_eq_some_iff, Option.map_eq_some_iff] at hrun
  obtain ⟨h, hh, ⟨s1, r1⟩, h1, ⟨s2, f2⟩, h2, ⟨t, f3⟩, h3, _, -, _, -, hvals⟩ := hrun
  simp only [Prod.mk.injEq, List.cons.injEq, and_true, decide_eq_true_eq] at hvals
  obtain ⟨⟨hcur, hstate, hnext, -⟩, -⟩ := hvals
  have hreach : KernelRun ⟨1, 2, 3⟩ s2 := ((KernelRun.start (smallHeap_reach hh)).step
    (.spawnNamed (ok_of_toOption h1))).step (.tick (ok_of_toOption h2))
  refine ⟨s2, t, f3, hreach, ok_of_toOption h3, hcur, hnext,
    (tick_keeps_stack_iff hreach (ok_of_toOption h3)).mpr fun i hi => ?_⟩
  obtain rfl := Option.some.inj (hcur.symm.trans hi)
  rw [hstate]
  decide

/-! ## Spawning and killing -/

/-- The two calls that start a task without a file. -/
inductive SpawnCall : Type where
  | named (name : Option String)
  | user (entry : ℕ) (name : String)

/-- The call on a scheduler. -/
def Sched.spawn (s : Sched D) (syms : TaskSymbols) : SpawnCall → Except Halt (Sched D × ℤ)
  | .named name => s.schedSpawnNamed syms name
  | .user entry name => s.schedSpawnUser entry name

/-- A step that leaves the live blocks as they are. -/
def QuietStep (syms : TaskSymbols) (s s' : Sched D) : Prop :=
  KernelStep syms s s' ∧ s'.heap.liveBlocks = s.heap.liveBlocks

omit [Disk D] in
theorem Sched.Inv.tick_used {frame f : ℕ} (hs : s.Inv) (hrun : s.schedTick frame = .ok (s', f))
    (hu : (s.tasks i).state ≠ .unused)
    (hi : i = s.currentIndex → (s.tasks s.currentIndex).state = .running) :
    (s'.tasks i).state ≠ .unused := by
  rcases hs.tick_cases hrun with ⟨-, -, -, rfl⟩ | ⟨s1, k, hret, hk, hsw⟩
  · rw [← Sched.mem_used, Sched.used_setTask hs.main_used (by simp), Sched.mem_used]
    exact hu
  have hpaused := hs.retireCurrent hret
  obtain ⟨hother, hself, -⟩ := Sched.switchTo_spec hsw
  dsimp only at hother hself
  by_cases hik : i = k
  · rw [hik, hself]
    simp
  rw [hother i hik]
  by_cases hc : i = s.currentIndex
  · rw [hc, hpaused.saved (hi hc)]
    simp
  · rw [hpaused.other i hc]
    exact hu

theorem KernelStep.stays {k : ℕ} (h : KernelStep syms s s') (hs : s.StackInv) (hi : i ≠ 0)
    (hu : (s.tasks i).state ≠ .unused) (hmem : ((s.tasks i).stack, k) ∈ s'.heap.liveBlocks) :
    (s'.tasks i).state ≠ .unused ∧ (s'.tasks i).stack = (s.tasks i).stack := by
  have hplaced : s.SpawnEffect s' → (s'.tasks i).state ≠ .unused ∧
      (s'.tasks i).stack = (s.tasks i).stack := by
    rintro (hsame | ⟨j, -, hinst⟩)
    · rw [hsame.tasks]
      exact ⟨hu, rfl⟩
    · have hij : i ≠ j := fun heq => hu (heq ▸ hinst.was_unused)
      rw [hinst.other i hij]
      exact ⟨hu, rfl⟩
  have hmarked : ((s.setState s.currentIndex .zombie).tasks i).state ≠ .unused := by
    rw [← Sched.mem_used, Sched.setState, Sched.used_setTask hs.table.current_used (by simp),
      Sched.mem_used]
    exact hu
  have hkill : ∀ {id : ℕ} {r : ℤ}, s.schedKill id = .ok (s', r) → (s'.tasks i).state ≠ .unused ∧
      (s'.tasks i).stack = (s.tasks i).stack := by
    intro id r hrun
    have hused : (s'.tasks i).state ≠ .unused := fun hdead =>
      hs.stack_gone hi hu (hs.table.destroyed_of_kill hrun hu hdead).2 hmem
    exact ⟨hused, (hs.table.survivors_kill hrun i hused).2.1⟩
  cases h with
  | client _ => exact ⟨hu, rfl⟩
  | spawnNamed h => exact hplaced (Sched.schedSpawnNamed_spec h)
  | spawnUser h => exact hplaced (Sched.schedSpawnUser_spec h)
  | spawnElf _ h => exact hplaced (Sched.schedSpawnElf_cases h).effect
  | kill h => exact hkill h
  | exit h => exact hkill h
  | trampoline _ =>
    have hsurv : s.Survivors (s.setState s.currentIndex .zombie) :=
      Sched.survivors_setTask hs.table.current_used rfl rfl
    rw [Sched.taskTrampolineEnd, hs.table.current]
    exact ⟨hmarked, (hsurv i hmarked).2.1⟩
  | tick h =>
    have hused : (s'.tasks i).state ≠ .unused := by
      refine hs.table.tick_used h hu fun hc => ?_
      obtain ⟨-, ⟨hrunning, -⟩ | ⟨-, -, n, hn, hlive⟩⟩ := hs.tick_live h
      · exact hrunning
      · -- its stack would be gone
        rw [hlive, hc, hs.sound.live_nodup.mem_erase_iff] at hmem
        exact absurd (hs.sound.live_inj hmem.2 hn rfl) hmem.1
    exact ⟨hused, (hs.table.survivors_tick h i hused).2.1⟩

theorem stays_of_quiet {k : ℕ} (hquiet : Relation.ReflTransGen (QuietStep syms) s s')
    (hs : s.StackInv) (hi : i ≠ 0) (hu : (s.tasks i).state ≠ .unused)
    (hmem : ((s.tasks i).stack, k) ∈ s.heap.liveBlocks) :
    s'.StackInv ∧ s'.heap.liveBlocks = s.heap.liveBlocks ∧ (s'.tasks i).state ≠ .unused ∧
      (s'.tasks i).stack = (s.tasks i).stack := by
  induction hquiet with
  | refl => exact ⟨hs, rfl, hu, rfl⟩
  | tail _ hstep ih =>
    obtain ⟨hs1, hlive1, hu1, hstack1⟩ := ih
    obtain ⟨hstep, hlive⟩ := hstep
    have hlive2 := hlive.trans hlive1
    obtain ⟨hu2, hstack2⟩ := hstep.stays hs1 hi hu1 (k := k) (by rw [hlive2, hstack1]; exact hmem)
    exact ⟨hstep.stackInv hs1, hlive2, hu2, hstack2.trans hstack1⟩

omit [Disk D] in
theorem Sched.Inv.destroyed_of_killed {id : ℕ} (hs : s.Inv) (hfind : s.findTaskById id = some i)
    (hcur : s.currentTask ≠ some i) (hkill : s.schedKill id = .ok (s', 0)) :
    s.destroyTask i = .ok s' := by
  have hu := (Sched.findTaskById_spec hfind).1
  have hready := hs.others i (fun heq => hcur (heq ▸ hs.current)) hu
  have hnz : (s.tasks i).state ≠ .zombie := by
    rw [hready]
    decide
  rw [Sched.schedKill] at hkill
  split_ifs at hkill with h0
  · cases hkill
  rw [hfind] at hkill
  dsimp only at hkill
  rw [if_neg hcur, if_neg hnz] at hkill
  rcases hd : s.destroyTask i with e | s1 <;> rw [hd] at hkill
  · cases hkill
  cases hkill
  rfl

/-- **Spawning and killing**: a task that was started and is killed by another one, with the live
blocks untouched in between, leaves these as before if and only if `sched_spawn_named` started
it. -/
theorem spawn_kill_neutral_iff {s₁ s₂ s₃ : Sched D} {call : SpawnCall} {r : ℤ} {id : ℕ}
    (hrun : KernelRun syms s) (hspawn : s.spawn syms call = .ok (s₁, r)) (hnew : s.Installed s₁ i)
    (hquiet : Relation.ReflTransGen (QuietStep syms) s₁ s₂) (hfind : s₂.findTaskById id = some i)
    (hcur : s₂.currentTask ≠ some i) (hkill : s₂.schedKill id = .ok (s₃, 0)) :
    s₃.heap.liveBlocks = s.heap.liveBlocks ↔ ∃ name, call = .named name := by
  have hs := hrun.stackInv
  have hi : i ≠ 0 := fun h0 => hs.table.main_used (h0 ▸ hnew.was_unused)
  have hu : (s₁.tasks i).state ≠ .unused := by
    rw [hnew.state]
    decide
  -- what the kill takes out of the list
  have hend : s₁.StackInv → ∀ k, ((s₁.tasks i).stack, k) ∈ s₁.heap.liveBlocks →
      s₃.heap.liveBlocks = s₁.heap.liveBlocks.erase ((s₁.tasks i).stack, k) := by
    intro hs1 k hmem
    obtain ⟨hs2, hlive2, hu2, hstack2⟩ := stays_of_quiet hquiet hs1 hi hu hmem
    obtain ⟨-, n, hn, hlive3⟩ :=
      hs2.destroyTask hi hu2 (hs2.table.destroyed_of_killed hfind hcur hkill)
    rw [hstack2, hlive2] at hn hlive3
    rw [hlive3, hs1.sound.live_inj hn hmem rfl]
  cases call with
  | named name =>
    refine iff_of_true ?_ ⟨name, rfl⟩
    obtain ⟨hs1, -, htook⟩ := hs.spawnTask (Sched.schedSpawnNamed_cases hspawn)
    obtain ⟨k, htook⟩ := htook i hnew
    rw [hend hs1 k htook.mem, htook.erase hs1.sound]
  | user entry name =>
    refine iff_of_false (fun heq => ?_) (by simp)
    obtain ⟨hs1, -, htook⟩ := hs.spawnUser (Sched.schedSpawnUser_cases hspawn)
    obtain ⟨mid, k, ustack, n, hmid, htook, htook'⟩ := htook i hnew
    -- the user stack is still live, and was not before
    have hlive := hend hs1 k (htook'.subset _ htook.mem)
    have hne : (ustack, n) ≠ ((s₁.tasks i).stack, k) := fun h =>
      htook'.fresh hs1.sound htook.mem (congrArg Prod.fst h).symm
    have hleft : (ustack, n) ∈ s₃.heap.liveBlocks := by
      rw [hlive]
      exact (List.mem_erase_of_ne hne).mpr htook'.mem
    rw [heq] at hleft
    exact htook'.fresh hs1.sound (htook.subset _ hleft) rfl

theorem smallHeap_spawn_kill : (smallHeap.bind fun h =>
      ((Sched.boot h).schedInit.schedSpawnUser 0x1000 "init").toOption.bind fun s1 =>
        (s1.1.schedKill 1).toOption.bind fun s2 =>
          ((Sched.boot h).schedInit.schedSpawnNamed ⟨1, 2, 3⟩ (some "counter")).toOption.bind
            fun t1 => (t1.1.schedKill 1).toOption.map fun t2 =>
              ([decide (s2.2 = 0), decide (s1.1.findTaskById 1 = some 1),
                  decide (s1.1.currentTask = some 0), decide (t2.2 = 0),
                  decide (t1.1.findTaskById 1 = some 1), decide (t1.1.currentTask = some 0)],
                h.liveBlocks, s1.1.heap.liveBlocks, s2.1.heap.liveBlocks)) =
      some ([true, true, true, true, true, true],
        [], [(0xC1000010, 4096), (0xC1001020, 4096)], [(0xC1001020, 4096)]) := by
  decide +kernel

/-- A user task is started and killed at once: its user stack stays allocated. -/
theorem killed_user_task_leaks_stack :
    ∃ (s s₁ s₂ : Sched DiskImage) (r : ℤ), KernelRun ⟨1, 2, 3⟩ s ∧
      s.spawn ⟨1, 2, 3⟩ (.user 0x1000 "init") = .ok (s₁, r) ∧ s.Installed s₁ 1 ∧
      s₁.findTaskById 1 = some 1 ∧ s₁.currentTask = some 0 ∧ s₁.schedKill 1 = .ok (s₂, 0) ∧
      s.heap.liveBlocks = [] ∧ s₁.heap.liveBlocks = [(0xC1000010, 4096), (0xC1001020, 4096)] ∧
      s₂.heap.liveBlocks = [(0xC1001020, 4096)] := by
  have hrun := smallHeap_spawn_kill
  simp only [Option.bind_eq_some_iff, Option.map_eq_some_iff] at hrun
  obtain ⟨h, hh, ⟨s₁, r1⟩, h1, ⟨s₂, r2⟩, h2, _, -, _, -, hvals⟩ := hrun
  simp only [Prod.mk.injEq, List.cons.injEq, and_true, decide_eq_true_eq] at hvals
  obtain ⟨⟨rfl, hfind, hcur, -⟩, hlive, hlive1, hlive2⟩ := hvals
  have hspawn := ok_of_toOption h1
  have hnew := (Sched.schedSpawnUser_spec hspawn).installed (i := 1) rfl
    (Sched.findTaskById_spec hfind).1
  exact ⟨_, s₁, s₂, r1, .start (smallHeap_reach hh), hspawn, hnew, hfind, hcur, ok_of_toOption h2,
    hlive, hlive1, hlive2⟩

/-- A kernel task is started and killed at once. -/
theorem spawn_kill_neutral_iff_counter :
    ∃ (s s₁ s₂ : Sched DiskImage) (r : ℤ), KernelRun ⟨1, 2, 3⟩ s ∧
      s.spawn ⟨1, 2, 3⟩ (.named (some "counter")) = .ok (s₁, r) ∧ s.Installed s₁ 1 ∧
      s₁.schedKill 1 = .ok (s₂, 0) ∧ s₂.heap.liveBlocks = s.heap.liveBlocks := by
  have hrun := smallHeap_spawn_kill
  simp only [Option.bind_eq_some_iff, Option.map_eq_some_iff] at hrun
  obtain ⟨h, hh, _, -, _, -, ⟨t1, r1⟩, h1, ⟨t2, r2⟩, h2, hvals⟩ := hrun
  simp only [Prod.mk.injEq, List.cons.injEq, and_true, decide_eq_true_eq] at hvals
  obtain ⟨⟨-, -, -, rfl, hfind, hcur⟩, -⟩ := hvals
  have hreach : KernelRun ⟨1, 2, 3⟩ (Sched.boot h).schedInit := .start (smallHeap_reach hh)
  have hspawn : (Sched.boot h).schedInit.spawn ⟨1, 2, 3⟩ (.named (some "counter")) = .ok (t1, r1) :=
    ok_of_toOption h1
  have hnew := (Sched.schedSpawnNamed_spec (ok_of_toOption h1)).installed (i := 1) rfl
    (Sched.findTaskById_spec hfind).1
  have hother : t1.currentTask ≠ some 1 := by
    rw [hcur]
    decide
  exact ⟨_, t1, t2, r1, hreach, hspawn, hnew, ok_of_toOption h2,
    (spawn_kill_neutral_iff hreach hspawn hnew .refl hfind hother (ok_of_toOption h2)).mpr ⟨_, rfl⟩⟩

end PenOS
