import PenOS.Interrupts
import PenOS.SchedInv

/-!
# Runs of the scheduler

A run goes on from `sched_init` with spawns, kills, exits and ticks in any order, and records spawns
and interrupted tasks as events. From these one can say which frame a task has to be resumed with
(`ownFrame`).
-/

namespace PenOS

variable {f frame n : ℕ} {i : Slot}

/-- What a run leaves behind in its history. -/
inductive SchedEvent : Type where
  /-- a task was put in a slot, its first frame built at `frame` -/
  | spawned (task : Slot) (frame : ℕ) : SchedEvent
  /-- `sched_tick(frame)` was called while the entry of the current task was in `state` -/
  | ticked (task : Slot) (state : TaskState) (frame : ℕ) : SchedEvent
  deriving DecidableEq

/-- The frame that belongs to the task in slot `i`: the one passed to the last tick that interrupted
it, or its first one. -/
def ownFrame : List SchedEvent → Slot → Option ℕ
  | [], _ => none
  | .spawned t f :: hist, i => if t = i then some f else ownFrame hist i
  | .ticked t st f :: hist, i => if t = i ∧ st = .running then some f else ownFrame hist i

/-- The number of tasks spawned. -/
def spawnCount : List SchedEvent → ℕ
  | [] => 0
  | .spawned _ _ :: hist => spawnCount hist + 1
  | .ticked _ _ _ :: hist => spawnCount hist

/-- No tick was given a null frame: the stubs pass the address of the frame they pushed. -/
def FramesGiven (hist : List SchedEvent) : Prop :=
  ∀ t st f, .ticked t st f ∈ hist → f ≠ 0

/-- Every spawn builds its frame at the end of a stack. -/
def FramesBuilt (hist : List SchedEvent) : Prop :=
  ∀ t f, .spawned t f ∈ hist → f ≠ 0

theorem ownFrame_ne_zero {hist : List SchedEvent} (hg : FramesGiven hist)
    (hb : FramesBuilt hist) (h : ownFrame hist i = some f) : f ≠ 0 := by
  induction hist with
  | nil => cases h
  | cons e hist ih =>
    have ih := ih (fun t st f hm => hg t st f (List.mem_cons_of_mem _ hm))
      (fun t f hm => hb t f (List.mem_cons_of_mem _ hm))
    cases e with
    | spawned t g =>
      rw [ownFrame] at h
      split at h
      · exact Option.some.inj h ▸ hb t g List.mem_cons_self
      · exact ih h
    | ticked t st g =>
      rw [ownFrame] at h
      split at h
      · exact Option.some.inj h ▸ hg t st g List.mem_cons_self
      · exact ih h

namespace Sched

variable {D : Type} {s s' : Sched D}

/-- The event of a call that may have spawned a task: its slot, if it is now in use. -/
def spawnEvents (s s' : Sched D) : List SchedEvent :=
  match s.findFreeSlot with
  | none => []
  | some i =>
    if (s'.tasks i).state = .unused then []
    else [.spawned i (initialFrame (s'.tasks i).stack)]

/-- The event of a tick. -/
def tickEvent (s : Sched D) (frame : ℕ) : SchedEvent :=
  .ticked s.currentIndex (s.tasks s.currentIndex).state frame

end Sched

/-- The states reached from `sched_init`, with the history; heap and page tables may change in
between. -/
inductive SchedReach {D : Type} [Disk D] (syms : TaskSymbols) :
    List SchedEvent → Sched D → Prop where
  | init (heap : Heap D) : SchedReach syms [] (Sched.boot heap).schedInit
  | between {hist : List SchedEvent} {s : Sched D} (heap : Heap D) (h : SchedReach syms hist s) :
      SchedReach syms hist { s with heap := heap }
  | spawnNamed {hist : List SchedEvent} {s s' : Sched D} {name : Option String} {r : ℤ}
      (h : SchedReach syms hist s) (hs : s.schedSpawnNamed syms name = .ok (s', r)) :
      SchedReach syms (s.spawnEvents s' ++ hist) s'
  | spawnUser {hist : List SchedEvent} {s s' : Sched D} {entry : ℕ} {name : String} {r : ℤ}
      (h : SchedReach syms hist s) (hs : s.schedSpawnUser entry name = .ok (s', r)) :
      SchedReach syms (s.spawnEvents s' ++ hist) s'
  | kill {hist : List SchedEvent} {s s' : Sched D} {id : ℕ} {r : ℤ}
      (h : SchedReach syms hist s) (hs : s.schedKill id = .ok (s', r)) : SchedReach syms hist s'
  | exit {hist : List SchedEvent} {s s' : Sched D} {r : ℤ}
      (h : SchedReach syms hist s) (hs : s.sysExit = .ok (s', r)) : SchedReach syms hist s'
  /-- the function of a spawned task returned; the boot thread is not started by the
  trampoline -/
  | trampoline {hist : List SchedEvent} {s : Sched D} (h : SchedReach syms hist s)
      (hs : s.currentTask ≠ some 0) : SchedReach syms hist s.taskTrampolineEnd
  | tick {hist : List SchedEvent} {s s' : Sched D} {frame f : ℕ} (h : SchedReach syms hist s)
      (hs : s.schedTick frame = .ok (s', f)) : SchedReach syms (s.tickEvent frame :: hist) s'

namespace Sched

variable {D : Type} {s s' : Sched D} {hist : List SchedEvent}

/-! ## Identifiers -/

/-- After `n` spawns the next identifier is `n + 1` and those in use are distinct. -/
structure IdsOk (s : Sched D) (n : ℕ) : Prop where
  next : s.nextTaskId = n + 1
  range : ∀ i, i ≠ 0 → (s.tasks i).state ≠ .unused → 1 ≤ (s.tasks i).id ∧ (s.tasks i).id ≤ n
  distinct : ∀ i j, i ≠ j → (s.tasks i).state ≠ .unused → (s.tasks j).state ≠ .unused →
    (s.tasks i).id ≠ (s.tasks j).id

/-- Entries may only be given up. -/
structure Shrunk (s s' : Sched D) : Prop where
  next : s'.nextTaskId = s.nextTaskId
  entry : ∀ i, (s'.tasks i).state ≠ .unused →
    (s.tasks i).state ≠ .unused ∧ (s'.tasks i).id = (s.tasks i).id

theorem IdsOk.shrunk (hs : s.IdsOk n) (h : s.Shrunk s') : s'.IdsOk n where
  next := h.next.trans hs.next
  range i hi hu := by
    obtain ⟨hu', hid⟩ := h.entry i hu
    rw [hid]
    exact hs.range i hi hu'
  distinct i j hij hui huj := by
    obtain ⟨hui', hidi⟩ := h.entry i hui
    obtain ⟨huj', hidj⟩ := h.entry j huj
    rw [hidi, hidj]
    exact hs.distinct i j hij hui' huj'

/-- A new task takes the next identifier. -/
theorem IdsOk.install (hs : s.IdsOk n) (hinv : s.Inv) (h : s.Installed s' i)
    (hn : n + 1 < 4294967295) : s'.IdsOk (n + 1) := by
  have hid : (s'.tasks i).id = n + 1 := h.id.trans hs.next
  -- all other identifiers are at most `n`
  have hother : ∀ j, j ≠ i → (s'.tasks j).state ≠ .unused →
      (s.tasks j).state ≠ .unused ∧ (s'.tasks j).id = (s.tasks j).id ∧ (s.tasks j).id ≤ n := by
    intro j hj hu
    rw [h.other j hj] at hu ⊢
    refine ⟨hu, rfl, ?_⟩
    by_cases h0 : j = 0
    · subst h0
      rw [hinv.main_id]
      exact Nat.zero_le n
    · exact (hs.range j h0 hu).2
  refine ⟨?_, fun j hj hu => ?_, fun j k hjk huj huk => ?_⟩
  · rw [h.nextTaskId, hs.next]
    exact u32_of_lt (by omega)
  · by_cases hji : j = i
    · subst hji
      omega
    · obtain ⟨hu', hidj, -⟩ := hother j hji hu
      have := hs.range j hj hu'
      omega
  · by_cases hji : j = i
    · subst hji
      obtain ⟨-, hidk, hle⟩ := hother k hjk.symm huk
      omega
    · obtain ⟨huj', hidj, hle⟩ := hother j hji huj
      by_cases hki : k = i
      · subst hki
        omega
      · obtain ⟨huk', hidk, -⟩ := hother k hki huk
        rw [hidj, hidk]
        exact hs.distinct j k hjk huj' huk'

theorem Shrunk.of_destroyed (h : s.Destroyed s' i) : s.Shrunk s' where
  next := h.nextTaskId
  entry j hu := by
    have hj : j ≠ i := by
      rintro rfl
      exact hu h.unused
    rw [h.other j hj] at hu ⊢
    exact ⟨hu, rfl⟩

/-! ## What a tick does to frames -/

/-- The frame the entry `i` has once the current task is saved. -/
def savedFrame (s : Sched D) (frame : ℕ) (i : Slot) : ℕ :=
  if i = s.currentIndex then frame else (s.tasks i).frame

/-- The effect of a tick on the table, seen from outside. -/
structure Ticked (s s' : Sched D) (frame f : ℕ) : Prop where
  shrunk : s.Shrunk s'
  alive : (s.tasks s.currentIndex).state ≠ .running → (s'.tasks s.currentIndex).state = .unused
  running : (s'.tasks s'.currentIndex).state = .running
  saved : ∀ i, i ≠ s'.currentIndex → (s'.tasks i).state ≠ .unused →
    (s'.tasks i).frame = s.savedFrame frame i
  resumed : f = if s.savedFrame frame s'.currentIndex = 0 then frame
    else s.savedFrame frame s'.currentIndex

/-- In the paused table every used entry has its saved frame. -/
theorem Paused.entry {s1 : Sched D} (hs : s.Inv) (hp : s.Paused s1 frame) (i : Slot)
    (hu : (s1.tasks i).state ≠ .unused) :
    (s.tasks i).state ≠ .unused ∧ (s1.tasks i).id = (s.tasks i).id ∧
    (s1.tasks i).frame = s.savedFrame frame i := by
  unfold savedFrame
  by_cases hi : i = s.currentIndex
  · subst hi
    rw [if_pos rfl]
    rcases hs.current_state with hrun | hz
    · rw [hp.saved hrun]
      exact ⟨hs.current_used, rfl, rfl⟩
    · exact absurd (hp.gone hz) hu
  · rw [if_neg hi, hp.other i hi]
    rw [hp.other i hi] at hu
    exact ⟨hu, rfl, rfl⟩

theorem Inv.ticked (hs : s.Inv) (h : s.schedTick frame = .ok (s', f)) : s.Ticked s' frame f := by
  rcases hs.tick_cases h with ⟨hcur, hrun, rfl, rfl⟩ | ⟨s1, k, hret, hk, hsw⟩
  · -- the boot thread goes on
    have hother : ∀ i, i ≠ 0 → (s.setTask 0 { s.tasks 0 with
        frame := f, state := .running }).tasks i = s.tasks i :=
      fun i hi => setTask_tasks_of_ne _ _ hi
    refine ⟨⟨rfl, fun i hu => ?_⟩, fun hnr => ?_, ?_, fun i hi _ => ?_, ?_⟩
    · by_cases hi : i = 0
      · subst hi
        rw [setTask_tasks_self]
        exact ⟨hs.main_used, rfl⟩
      · rw [hother i hi] at hu ⊢
        exact ⟨hu, rfl⟩
    · exact absurd (hcur ▸ hrun) hnr
    · change ((s.setTask 0 _).tasks s.currentIndex).state = _
      rw [hcur, setTask_tasks_self]
    · change i ≠ s.currentIndex at hi
      rw [hother i (hcur ▸ hi), savedFrame, if_neg hi]
    · change f = if s.savedFrame f s.currentIndex = 0 then f else s.savedFrame f s.currentIndex
      rw [savedFrame, if_pos rfl, ite_self]
  · have hp := hs.retireCurrent hret
    obtain ⟨hother, hself, hf, -, hci, hnext, -⟩ := switchTo_spec hsw
    dsimp only at hother hself hf hci hnext
    have hku : (s1.tasks k).state ≠ .unused := by
      rw [hk]
      decide
    refine ⟨⟨hnext.trans hp.nextTaskId, fun i hu => ?_⟩, fun hnr => ?_, ?_, fun i hi hu => ?_, ?_⟩
    · by_cases hi : i = k
      · subst hi
        rw [hself]
        obtain ⟨h1, h2, -⟩ := hp.entry hs i hku
        exact ⟨h1, h2⟩
      · rw [hother i hi] at hu ⊢
        obtain ⟨h1, h2, -⟩ := hp.entry hs i hu
        exact ⟨h1, h2⟩
    · have hgone := hp.gone (hs.current_state.resolve_left hnr)
      have hne : s.currentIndex ≠ k := by
        rintro rfl
        exact hku hgone
      rw [hother _ hne]
      exact hgone
    · rw [hci, hself]
    · rw [hci] at hi
      rw [hother i hi] at hu ⊢
      exact (hp.entry hs i hu).2.2
    · rw [hci, ← (hp.entry hs k hku).2.2]
      exact hf

/-! ## The invariant of a run -/

/-- Table, identifiers and history agree. -/
structure RunInv (hist : List SchedEvent) (s : Sched D) : Prop where
  inv : s.Inv
  ids : spawnCount hist < 4294967295 → s.IdsOk (spawnCount hist)
  frames : ∀ i, i ≠ s.currentIndex → (s.tasks i).state ≠ .unused →
    ownFrame hist i = some (s.tasks i).frame
  built : FramesBuilt hist

theorem runInv_schedInit (heap : Heap D) : RunInv [] (boot heap).schedInit where
  inv := inv_schedInit heap
  ids _ := by
    have hunused : ∀ i : Slot, i ≠ 0 → ((boot heap).schedInit.tasks i).state = .unused := by
      intro i hi
      simp [schedInit, hi, Task.zero]
    refine ⟨rfl, fun i hi hu => absurd (hunused i hi) hu, fun i j hij hui huj => ?_⟩
    by_cases hi : i = 0
    · exact absurd (hunused j (hi ▸ hij.symm)) huj
    · exact absurd (hunused i hi) hui
  frames i hi hu := by
    change i ≠ 0 at hi
    exact absurd (by simp [schedInit, hi, Task.zero]) hu
  built _ _ hm := by cases hm

/-- Giving up entries, or changing the current one, needs no event. -/
theorem RunInv.shrunk (hr : RunInv hist s) (hinv : s'.Inv) (h : s.Shrunk s')
    (hcur : s'.currentIndex = s.currentIndex)
    (hframe : ∀ i, i ≠ s.currentIndex → (s'.tasks i).state ≠ .unused →
      (s'.tasks i).frame = (s.tasks i).frame) : RunInv hist s' where
  inv := hinv
  ids hn := (hr.ids hn).shrunk h
  frames i hi hu := by
    rw [hcur] at hi
    rw [hframe i hi hu]
    exact hr.frames i hi (h.entry i hu).1
  built := hr.built

theorem RunInv.exit (hr : RunInv hist s) (hmain : s.currentIndex ≠ 0) :
    RunInv hist (s.setState s.currentIndex .zombie) := by
  refine hr.shrunk (hr.inv.exit hmain) ⟨rfl, fun i hu => ?_⟩ rfl fun i hi _ => ?_
  · by_cases hi : i = s.currentIndex
    · subst hi
      rw [setState, setTask_tasks_self]
      exact ⟨hr.inv.current_used, rfl⟩
    · rw [setState, setTask_tasks_of_ne _ _ hi] at hu ⊢
      exact ⟨hu, rfl⟩
  · rw [setState, setTask_tasks_of_ne _ _ hi]

theorem RunInv.kill {id : ℕ} {r : ℤ} (hr : RunInv hist s) (h : s.schedKill id = .ok (s', r)) :
    RunInv hist s' := by
  rcases schedKill_cases hr.inv h with rfl | ⟨hmain, rfl⟩ | ⟨i, hu, hmain, hcur, hrun⟩
  · exact hr
  · exact hr.exit hmain
  · have hd := destroyTask_spec hu hrun
    refine hr.shrunk (hr.inv.destroy hd hu hmain hcur) (.of_destroyed hd) hd.currentIndex ?_
    intro j _ hju
    rw [hd.other j (by rintro rfl; exact hju hd.unused)]

theorem RunInv.spawn (hr : RunInv hist s) (h : s.SpawnEffect s') :
    RunInv (s.spawnEvents s' ++ hist) s' := by
  have hinv := hr.inv.spawn h
  rcases h with h | ⟨i, hfree, h⟩
  · -- nothing was spawned: the free slot is still free
    have hnone : s.spawnEvents s' = [] := by
      unfold spawnEvents
      rcases hf : s.findFreeSlot with _ | i
      · rfl
      · dsimp only
        rw [if_pos]
        rw [h.tasks]
        exact findFreeSlot_unused hf
    rw [hnone, List.nil_append]
    refine hr.shrunk hinv ⟨h.nextTaskId, fun i hu => ?_⟩ h.currentIndex fun i _ _ => by rw [h.tasks]
    rw [h.tasks] at hu ⊢
    exact ⟨hu, rfl⟩
  · have hone : s.spawnEvents s' = [.spawned i (initialFrame (s'.tasks i).stack)] := by
      unfold spawnEvents
      rw [hfree]
      dsimp only
      rw [if_neg]
      rw [h.state]
      decide
    rw [hone, List.singleton_append]
    refine ⟨hinv, fun hn => ?_, fun j hj hu => ?_, fun t f hm => ?_⟩
    · rw [spawnCount] at hn
      exact (hr.ids (by omega)).install hr.inv h hn
    · rw [ownFrame]
      by_cases hji : i = j
      · subst hji
        rw [if_pos rfl, h.frame]
      · rw [if_neg hji, h.other j (Ne.symm hji)]
        rw [h.other j (Ne.symm hji)] at hu
        exact hr.frames j (h.currentIndex ▸ hj) hu
    · rcases List.mem_cons.mp hm with heq | hm
      · cases heq
        exact initialFrame_ne_zero _
      · exact hr.built t f hm

theorem RunInv.own_savedFrame (hr : RunInv hist s)
    (h : s.schedTick frame = .ok (s', f)) (hu : (s'.tasks i).state ≠ .unused) :
    ownFrame (s.tickEvent frame :: hist) i = some (s.savedFrame frame i) := by
  have ht := hr.inv.ticked h
  rw [tickEvent, ownFrame, savedFrame]
  by_cases hi : i = s.currentIndex
  · subst hi
    have hrun : (s.tasks s.currentIndex).state = .running :=
      not_not.mp fun hnr => hu (ht.alive hnr)
    rw [if_pos ⟨rfl, hrun⟩, if_pos rfl]
  · rw [if_neg fun hc => hi hc.1.symm, if_neg hi]
    exact hr.frames i hi (ht.shrunk.entry i hu).1

theorem RunInv.tick (hr : RunInv hist s) (h : s.schedTick frame = .ok (s', f)) :
    RunInv (s.tickEvent frame :: hist) s' where
  inv := hr.inv.tick h
  ids hn := (hr.ids hn).shrunk (hr.inv.ticked h).shrunk
  frames i hi hu := by
    rw [hr.own_savedFrame h hu, (hr.inv.ticked h).saved i hi hu]
  built t f hm := by
    rcases List.mem_cons.mp hm with heq | hm
    · cases heq
    · exact hr.built t f hm

end Sched

section Runs

variable {D : Type} [Disk D] {syms : TaskSymbols} {hist : List SchedEvent} {s s' : Sched D}

/-- Every run keeps the invariant. -/
theorem SchedReach.runInv (h : SchedReach syms hist s) : s.RunInv hist := by
  induction h with
  | init heap => exact Sched.runInv_schedInit heap
  | between heap _ ih =>
    exact ih.shrunk (ih.inv.sameTable ⟨rfl, rfl, rfl, rfl, rfl⟩) ⟨rfl, fun _ hu => ⟨hu, rfl⟩⟩ rfl
      fun _ _ _ => rfl
  | spawnNamed _ hs ih => exact ih.spawn (Sched.schedSpawnNamed_spec hs)
  | spawnUser _ hs ih => exact ih.spawn (Sched.schedSpawnUser_spec hs)
  | kill _ hs ih => exact ih.kill hs
  | exit _ hs ih => exact ih.kill hs
  | trampoline _ hs ih =>
    rw [ih.inv.current] at hs
    rw [Sched.taskTrampolineEnd, ih.inv.current]
    exact ih.exit fun h0 => hs (congrArg some h0)
  | tick _ hs ih => exact ih.tick hs

/-- A task is spawned, and the boot thread is interrupted: the next tick resumes it. -/
theorem exists_two_ticks : ∃ s s' : Sched DiskImage,
    SchedReach ⟨1, 2, 3⟩ [.ticked 0 .running 500, .spawned 1 0xC1000FC4] s ∧
    s.schedTick 600 = .ok (s', 500) := by
  let mb : MultibootInfo := ⟨1024, 64, 0, fun _ => ⟨0, 0, 0, 0⟩⟩
  let start (s : Paging DiskImage) := (Sched.boot (Heap.boot s).heapInit).schedInit
  have hrun : ((pmmInit 1 0 (some mb)).bind fun p =>
      (Paging.boot p (fun _ => 0) (fun _ _ _ => 0) : Paging DiskImage).initDirectory.toOption.bind
        fun s => ((start s).schedSpawnNamed ⟨1, 2, 3⟩ (some "counter")).toOption.bind
          fun s1 => (s1.1.schedTick 500).toOption.bind
            fun s2 => (s2.1.schedTick 600).toOption.map
              fun s3 => (((start s).spawnEvents s1.1, s1.1.tickEvent 500), s3.2)) =
      some (([.spawned 1 0xC1000FC4], .ticked 0 .running 500), 500) := by
    decide +kernel
  simp only [Option.bind_eq_some_iff, Option.map_eq_some_iff] at hrun
  obtain ⟨p, -, s, -, ⟨s1, r⟩, h1, ⟨s2, f⟩, h2, ⟨s3, g⟩, h3, hrun⟩ := hrun
  obtain ⟨hev, rfl⟩ := Prod.mk.inj hrun
  obtain ⟨hspawn, htick⟩ := Prod.mk.inj hev
  dsimp only at hspawn htick h1 h2 h3
  have hr := ((SchedReach.init _).spawnNamed (ok_of_toOption h1)).tick (ok_of_toOption h2)
  rw [hspawn, htick] at hr
  exact ⟨s2, s3, hr, ok_of_toOption h3⟩

/-- **The task table.** In every run the counter of active tasks is right, the boot thread is alive,
the current task runs or has exited, and every other task is ready, with a frame and (but for the
boot thread) a stack. Identifiers are distinct until the counter wraps. `sched_tick` always finds a
next task. -/
theorem sched_table_invariant (h : SchedReach syms hist s) : s.activeTasks = s.used.card ∧
    (s.tasks 0).state ≠ .unused ∧ (s.tasks 0).state ≠ .zombie ∧ (s.tasks 0).stack = 0 ∧
    s.currentTask = some s.currentIndex ∧
    ((s.tasks s.currentIndex).state = .running ∨ (s.tasks s.currentIndex).state = .zombie) ∧
    (∀ i, i ≠ s.currentIndex → (s.tasks i).state ≠ .unused →
      (s.tasks i).state = .ready ∧ (i ≠ 0 → (s.tasks i).stack ≠ 0) ∧
      (FramesGiven hist → (s.tasks i).frame ≠ 0)) ∧ (spawnCount hist < 2 ^ 32 - 1 →
      ∀ i ∈ s.used, ∀ j ∈ s.used, (s.tasks i).id = (s.tasks j).id → i = j) ∧
    (s.activeTasks ≤ 1 → (s.tasks s.currentIndex).state ≠ .zombie) ∧
    ∀ frame s₁, s.retireCurrent s.currentIndex frame = .ok s₁ → s₁.pickNextTask.2 ≠ none := by
  have hr := h.runInv
  have hinv := hr.inv
  refine ⟨hinv.active, hinv.main_used, ?_, hinv.main_stack, hinv.current, hinv.current_state, ?_,
    ?_, ?_, ?_⟩
  · exact fun hz => hinv.zombie_ne_main hz rfl
  · intro i hi hu
    refine ⟨hinv.others i hi hu, fun h0 => hinv.stack_ne i h0 hu, fun hg => ?_⟩
    exact ownFrame_ne_zero hg hr.built (hr.frames i hi hu)
  · intro hn i hui j huj hid
    by_contra hij
    exact (hr.ids hn).distinct i j hij (Sched.mem_used.mp hui) (Sched.mem_used.mp huj) hid
  · intro hact hz
    rw [(hinv.single hact).2] at hz
    cases hz
  · intro frame s₁ hret
    obtain ⟨k, hk, -⟩ :=
      Sched.pickNextTask_of_ready (hinv.main_paused (hinv.retireCurrent hret)).1
    rw [hk]
    exact Option.some_ne_none k

theorem sched_table_invariant_two : ∃ s : Sched DiskImage,
    SchedReach ⟨1, 2, 3⟩ [.ticked 0 .running 500, .spawned 1 0xC1000FC4] s ∧
    s.activeTasks = s.used.card ∧ s.currentTask = some s.currentIndex := by
  obtain ⟨s, -, hr, -⟩ := exists_two_ticks
  obtain ⟨hact, -, -, -, hcur, -⟩ := sched_table_invariant hr
  exact ⟨s, hr, hact, hcur⟩

/-- **Context switches.** A task is resumed with the frame of the last tick that interrupted it, or
its first one; the timer interrupt returns exactly this frame and leaves no request behind. -/
theorem sched_tick_resumes_own_frame {frame f : ℕ} (hr : SchedReach syms hist s)
    (h : s.schedTick frame = .ok (s', f)) :
    ∃ t g, s'.currentTask = some t ∧ (s'.tasks t).state = .running ∧
      ownFrame (s.tickEvent frame :: hist) t = some g ∧ (g ≠ 0 → f = g) ∧
      (FramesGiven (s.tickEvent frame :: hist) → g ≠ 0) ∧
      ∀ (handlers : UInt8 → Option (Isr D)) (k : Machine D), k.sched = s → k.nextFrameOverride = 0 →
        Machine.isrDispatch (registerInterruptHandler handlers 32 Machine.timerCallback) 32 k
          frame = .ok ({ sched := s', nextFrameOverride := 0, ticks := u64 (k.ticks + 1) }, f) := by
  have hrun := hr.runInv
  have htick := hrun.inv.ticked h
  have hrun' := hrun.tick h
  have hown := hrun.own_savedFrame h hrun'.inv.current_used
  refine ⟨s'.currentIndex, _, hrun'.inv.current, htick.running, hown, fun hg => ?_, fun hg => ?_,
    ?_⟩
  · rw [htick.resumed, if_neg hg]
  · exact ownFrame_ne_zero hg hrun'.built hown
  · rintro handlers k rfl hk
    refine Machine.isrDispatch_timer (Function.update_self ..) hk h fun h0 => ?_
    -- a null frame is returned only for a null frame
    have hres := htick.resumed
    split_ifs at hres with hz
    · exact hres
    · exact absurd (hres.symm.trans h0) hz

theorem sched_tick_resumes_own_frame_two : ∃ s s' : Sched DiskImage,
    SchedReach ⟨1, 2, 3⟩ [.ticked 0 .running 500, .spawned 1 0xC1000FC4] s ∧
    s.schedTick 600 = .ok (s', 500) ∧ ∃ t g, s'.currentTask = some t ∧
      ownFrame (s.tickEvent 600 :: [.ticked 0 .running 500, .spawned 1 0xC1000FC4]) t = some g ∧
      (g ≠ 0 → 500 = g) := by
  obtain ⟨s, s', hr, htick⟩ := exists_two_ticks
  obtain ⟨t, g, hcur, -, hown, hres, -⟩ := sched_tick_resumes_own_frame hr htick
  exact ⟨s, s', hr, htick, t, g, hcur, hown, hres⟩

end Runs

end PenOS
