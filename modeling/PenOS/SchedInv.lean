import Mathlib.Data.Fintype.Card
import PenOS.Lib.Fold
import PenOS.Sched

/-!
# The task table

The operations of the scheduler are reduced to three changes of the table: destroying a used
entry (`Destroyed`), filling an unused one (`Installed`), leaving it alone (`SameTable`).
-/

namespace PenOS

open Finset Function

variable {entry f frame id : ℕ} {name : String} {t : Task}

namespace Sched

variable {D : Type} {s s' : Sched D} {i j : Slot}

/-- The entries in use. -/
def used (s : Sched D) : Finset Slot := Finset.univ.filter fun i => (s.tasks i).state ≠ .unused

theorem mem_used : i ∈ s.used ↔ (s.tasks i).state ≠ .unused := by simp [used]

theorem card_used_le (s : Sched D) : s.used.card ≤ 8 := by
  have := card_le_univ s.used
  simpa using this

/-! ## The table under the elementary updates -/

@[simp] theorem setTask_tasks_self (s : Sched D) (i : Slot) (t : Task) :
    (s.setTask i t).tasks i = t := update_self ..

theorem setTask_tasks_of_ne (s : Sched D) (t : Task) (h : j ≠ i) :
    (s.setTask i t).tasks j = s.tasks j := update_of_ne h ..

/-- Changing a used entry into a used one. -/
theorem used_setTask (hi : (s.tasks i).state ≠ .unused) (ht : t.state ≠ .unused) :
    (s.setTask i t).used = s.used := by
  ext j
  rw [mem_used, mem_used]
  by_cases hj : j = i
  · subst hj
    simp [hi, ht]
  · rw [setTask_tasks_of_ne _ _ hj]

/-- The scheduler's own statics are the same. -/
structure SameTable (s s' : Sched D) : Prop where
  tasks : s'.tasks = s.tasks
  currentTask : s'.currentTask = s.currentTask
  currentIndex : s'.currentIndex = s.currentIndex
  nextTaskId : s'.nextTaskId = s.nextTaskId
  activeTasks : s'.activeTasks = s.activeTasks

theorem SameTable.refl (s : Sched D) : s.SameTable s := ⟨rfl, rfl, rfl, rfl, rfl⟩

/-- The entry `i` was given up; nothing else in the table changed. -/
structure Destroyed (s s' : Sched D) (i : Slot) : Prop where
  other : ∀ j, j ≠ i → s'.tasks j = s.tasks j
  unused : (s'.tasks i).state = .unused
  currentTask : s'.currentTask = s.currentTask
  currentIndex : s'.currentIndex = s.currentIndex
  nextTaskId : s'.nextTaskId = s.nextTaskId
  activeTasks : s'.activeTasks = s.activeTasks - 1

theorem Destroyed.used_eq (h : s.Destroyed s' i) : s'.used = s.used.erase i := by
  ext j
  rw [mem_erase, mem_used, mem_used]
  by_cases hj : j = i
  · subst hj
    simp [h.unused]
  · rw [h.other j hj]
    simp [hj]

/-- `destroy_task` of a used entry. -/
theorem destroyTask_spec (hu : (s.tasks i).state ≠ .unused) (h : s.destroyTask i = .ok s') :
    s.Destroyed s' i := by
  unfold destroyTask at h
  rw [if_neg hu] at h
  -- the stack and the directory change one entry only
  have hstack : ∀ {s1}, s.releaseStack i = .ok s1 → (∀ j, j ≠ i → s1.tasks j = s.tasks j) ∧
      s1.currentTask = s.currentTask ∧ s1.currentIndex = s.currentIndex ∧
      s1.nextTaskId = s.nextTaskId ∧ s1.activeTasks = s.activeTasks := by
    intro s1 h1
    unfold releaseStack at h1
    split at h1
    · rcases hk : s.heap.kfree (s.tasks i).stack with e | heap
      · rw [hk] at h1
        cases h1
      · rw [hk] at h1
        cases h1
        exact ⟨fun j hj => setTask_tasks_of_ne _ _ hj, rfl, rfl, rfl, rfl⟩
    · cases h1
      exact ⟨fun _ _ => rfl, rfl, rfl, rfl, rfl⟩
  have hdir : ∀ s1 : Sched D, (∀ j, j ≠ i → (s1.releaseDirectory i).tasks j = s1.tasks j) ∧
      (s1.releaseDirectory i).currentTask = s1.currentTask ∧
      (s1.releaseDirectory i).currentIndex = s1.currentIndex ∧
      (s1.releaseDirectory i).nextTaskId = s1.nextTaskId ∧
      (s1.releaseDirectory i).activeTasks = s1.activeTasks := by
    intro s1
    unfold releaseDirectory
    dsimp only
    split
    · exact ⟨fun j hj => setTask_tasks_of_ne _ _ hj, rfl, rfl, rfl, rfl⟩
    · exact ⟨fun _ _ => rfl, rfl, rfl, rfl, rfl⟩
  rcases hr : s.releaseStack i with e | s1
  · rw [hr] at h
    cases h
  rw [hr] at h
  cases h
  obtain ⟨hs1, hs2, hs3, hs4, hs5⟩ := hstack hr
  obtain ⟨hd1, hd2, hd3, hd4, hd5⟩ := hdir s1
  refine ⟨fun j hj => ?_, ?_, hd2.trans hs2, hd3.trans hs3, hd4.trans hs4, ?_⟩
  · exact (setTask_tasks_of_ne _ _ hj).trans ((hd1 j hj).trans (hs1 j hj))
  · unfold retireSlot
    simp
  · change (if (s1.releaseDirectory i).activeTasks ≠ 0 then
      (s1.releaseDirectory i).activeTasks - 1 else 0) = _
    rw [hd5, hs5]
    split <;> omega

/-- Without zombies besides the current task there is nothing to reap. -/
theorem reapZombies_of_none
    (h : ∀ i, s.currentTask ≠ some i → (s.tasks i).state ≠ .zombie) : s.reapZombies = .ok s := by
  unfold reapZombies
  induction List.finRange 8 with
  | nil => rfl
  | cons i is ih =>
    rw [List.foldlM_cons]
    by_cases hc : s.currentTask = some i
    · rw [if_pos hc]
      exact ih
    · rw [if_neg hc, if_neg (h i hc)]
      exact ih

/-! ## Choosing the next task -/

theorem pickLoop_spec (n : ℕ) (s : Sched D) :
    (∃ k, pickLoop n s = ({ s with currentIndex := k }, some k) ∧ (s.tasks k).state = .ready) ∨
    ∀ d : ℕ, d < n → (s.tasks (s.currentIndex + 1 + Fin.ofNat 8 d)).state ≠ .ready := by
  induction n generalizing s with
  | zero => exact Or.inr fun d hd => absurd hd (Nat.not_lt_zero d)
  | succ n ih =>
    rw [pickLoop]
    dsimp only
    by_cases hr : (s.tasks (s.currentIndex + 1)).state = .ready
    · rw [if_pos hr]
      exact Or.inl ⟨_, rfl, hr⟩
    · rw [if_neg hr]
      rcases ih { s with currentIndex := s.currentIndex + 1 } with ⟨k, hk, hready⟩ | hnone
      · exact Or.inl ⟨k, hk, hready⟩
      · refine Or.inr fun d hd => ?_
        cases d with
        | zero => simpa using hr
        | succ d =>
          have := hnone d (by omega)
          rwa [show s.currentIndex + 1 + Fin.ofNat 8 (d + 1) =
            s.currentIndex + 1 + 1 + Fin.ofNat 8 d by
              ext
              simp only [Fin.ofNat, Fin.val_add]
              omega]

/-- Every entry is visited once in eight steps. -/
theorem exists_offset (idx i : Slot) : ∃ d : ℕ, d < 8 ∧ i = idx + 1 + Fin.ofNat 8 d := by
  revert idx i
  decide

/-- **`pick_next_task`** finds a ready entry if there is one. -/
theorem pickNextTask_of_ready (hi : (s.tasks i).state = .ready) :
    ∃ k, s.pickNextTask = ({ s with currentIndex := k }, some k) ∧ (s.tasks k).state = .ready := by
  rcases pickLoop_spec 8 s with h | h
  · exact h
  · obtain ⟨d, hd, heq⟩ := exists_offset s.currentIndex i
    exact absurd (heq ▸ hi) (h d hd)

/-! ## Filling an entry -/

/-- The end of a stack is aligned to 16 bytes. -/
theorem stackTop_mod (stack : ℕ) : stackTop stack % 16 = 0 ∧ stackTop stack < 4294967296 := by
  have hlt := u32_lt (stack + stackSize)
  have h : stackTop stack = u32 (stack + stackSize) / 16 * 16 :=
    and_not32_low (k := 4) hlt (by decide)
  omega

theorem initialFrame_ne_zero (stack : ℕ) : initialFrame stack ≠ 0 := by
  obtain ⟨hmod, hlt⟩ := stackTop_mod stack
  unfold initialFrame sub32 u32 frameSize
  omega

/-- The unused entry `i` was filled with a ready task on a stack of its own. -/
structure Installed (s s' : Sched D) (i : Slot) : Prop where
  was_unused : (s.tasks i).state = .unused
  other : ∀ j, j ≠ i → s'.tasks j = s.tasks j
  state : (s'.tasks i).state = .ready
  id : (s'.tasks i).id = s.nextTaskId
  stack : (s'.tasks i).stack ≠ 0
  frame : (s'.tasks i).frame = initialFrame (s'.tasks i).stack
  currentTask : s'.currentTask = s.currentTask
  currentIndex : s'.currentIndex = s.currentIndex
  nextTaskId : s'.nextTaskId = u32 (s.nextTaskId + 1)
  activeTasks : s'.activeTasks = u32 (s.activeTasks + 1)

theorem Installed.used_eq (h : s.Installed s' i) : s'.used = insert i s.used := by
  ext j
  rw [mem_insert, mem_used, mem_used]
  by_cases hj : j = i
  · subst hj
    simp [h.state]
  · rw [h.other j hj]
    simp [hj]

theorem findFreeSlot_unused (h : s.findFreeSlot = some i) : (s.tasks i).state = .unused := by
  have := List.find?_some h
  simpa using this

theorem installTask_spec (hi : (s.tasks i).state = .unused) (hstack : t.stack ≠ 0)
    (hframe : t.frame = initialFrame t.stack) : s.Installed (s.installTask i t) i where
  was_unused := hi
  other j hj := setTask_tasks_of_ne _ _ hj
  state := by simp [installTask]
  id := by simp [installTask]
  stack := by simpa [installTask] using hstack
  frame := by simpa [installTask] using hframe
  currentTask := rfl
  currentIndex := rfl
  nextTaskId := rfl
  activeTasks := rfl

/-- Changes below the scheduler do not matter. -/
theorem Installed.of_same {s1 : Sched D} (hsame : s.SameTable s1) (h : s1.Installed s' i) :
    s.Installed s' i where
  was_unused := hsame.tasks ▸ h.was_unused
  other j hj := (h.other j hj).trans (by rw [hsame.tasks])
  state := h.state
  id := h.id.trans hsame.nextTaskId
  stack := h.stack
  frame := h.frame
  currentTask := h.currentTask.trans hsame.currentTask
  currentIndex := h.currentIndex.trans hsame.currentIndex
  nextTaskId := hsame.nextTaskId ▸ h.nextTaskId
  activeTasks := hsame.activeTasks ▸ h.activeTasks

/-- The effect of a call that may spawn into the slot `find_free_slot` returns. -/
def SpawnEffect (s s' : Sched D) : Prop :=
  s.SameTable s' ∨ ∃ i, s.findFreeSlot = some i ∧ s.Installed s' i

/-- The entry that was filled. -/
theorem SpawnEffect.installed (h : s.SpawnEffect s') (hwas : (s.tasks i).state = .unused)
    (hu : (s'.tasks i).state ≠ .unused) : s.Installed s' i := by
  rcases h with hsame | ⟨j, -, hinst⟩
  · rw [hsame.tasks] at hu
    exact absurd hwas hu
  · by_cases hij : i = j
    · exact hij ▸ hinst
    · rw [hinst.other i hij] at hu
      exact absurd hwas hu

/-- A task was put on the stack `stack`, with the directory `pd`, above the heap `h`: its
first frame has been written. -/
structure Placed (s s' : Sched D) (h : Heap D) (i : Slot) (stack pd : ℕ) : Prop where
  free : s.findFreeSlot = some i
  installed : s.Installed s' i
  stack_eq : (s'.tasks i).stack = stack
  pd_eq : (s'.tasks i).pageDirectoryPhys = pd
  heap_eq : ∃ f, s'.heap = { h with window := writeFrame h.window (initialFrame stack) f }

/-- What `spawn_task` can do below the table. -/
inductive SpawnedTask [Disk D] (s : Sched D) : Sched D → Prop where
  | full : SpawnedTask s s
  | noStack {s' : Sched D} (hsame : s.SameTable s')
      (hk : s.heap.kmalloc stackSize = .ok (s'.heap, 0)) : SpawnedTask s s'
  | started {s' : Sched D} {h : Heap D} {i : Slot} {stack : ℕ}
      (hk : s.heap.kmalloc stackSize = .ok (h, stack)) (hstack : stack ≠ 0)
      (hp : s.Placed s' h i stack 0) :
      SpawnedTask s s'

/-- What `sched_spawn_user` can do below the table. -/
inductive SpawnedUser [Disk D] (s : Sched D) (entry : ℕ) : Sched D → Prop where
  | full : SpawnedUser s entry s
  | noDirectory {s' : Sched D} {p : Paging D} (hsame : s.SameTable s')
      (hcreate : s.heap.paging.pagingCreateDirectory = .ok (p, 0))
      (heap : s'.heap = { s.heap with paging := p }) : SpawnedUser s entry s'
  | noKernelStack {s' : Sched D} {p : Paging D} {newPd : ℕ} {h : Heap D} (hsame : s.SameTable s')
      (hcreate : s.heap.paging.pagingCreateDirectory = .ok (p, newPd)) (hpd : newPd ≠ 0)
      (hk : { s.heap with paging := p }.kmalloc stackSize = .ok (h, 0))
      (heap : s'.heap = { h with paging := h.paging.pagingDestroyDirectory newPd }) :
      SpawnedUser s entry s'
  | noUserStack {s' : Sched D} {p : Paging D} {newPd kstack : ℕ} {h h' h'' : Heap D}
      (hsame : s.SameTable s')
      (hcreate : s.heap.paging.pagingCreateDirectory = .ok (p, newPd)) (hpd : newPd ≠ 0)
      (hk : { s.heap with paging := p }.kmalloc stackSize = .ok (h, kstack)) (hkstack : kstack ≠ 0)
      (hu : h.kmalloc stackSize = .ok (h', 0)) (hfree : h'.kfree kstack = .ok h'')
      (heap : s'.heap = { h'' with paging := h''.paging.pagingDestroyDirectory newPd }) :
      SpawnedUser s entry s'
  | started {s' : Sched D} {p q : Paging D} {newPd kstack ustack : ℕ} {h h' : Heap D} {i : Slot}
      (hcreate : s.heap.paging.pagingCreateDirectory = .ok (p, newPd)) (hpd : newPd ≠ 0)
      (hk : { s.heap with paging := p }.kmalloc stackSize = .ok (h, kstack)) (hkstack : kstack ≠ 0)
      (hu : h.kmalloc stackSize = .ok (h', ustack)) (hustack : ustack ≠ 0)
      (hmap : mapUserPages (h'.paging.pagingSwitchDirectory newPd) ustack entry = .ok q)
      (hp : s.Placed s' { h' with paging := q.pagingSwitchDirectory h'.paging.currentPd } i kstack
        newPd) : SpawnedUser s entry s'

variable [Disk D] {syms : TaskSymbols} {r : ℤ}

omit [Disk D] in
theorem Placed.of_install {s₁ : Sched D} {h : Heap D} (hslot : s.findFreeSlot = some i)
    (hsame : s.SameTable s₁) (hstack : t.stack ≠ 0) (hframe : t.frame = initialFrame t.stack)
    (heap : ∃ f, s₁.heap = { h with window := writeFrame h.window (initialFrame t.stack) f }) :
    s.Placed (s₁.installTask i t) h i t.stack t.pageDirectoryPhys := by
  have hfree : (s₁.tasks i).state = .unused := hsame.tasks ▸ findFreeSlot_unused hslot
  exact ⟨hslot, .of_same hsame (installTask_spec hfree hstack hframe), by simp [installTask],
    by simp [installTask], heap⟩

theorem spawnTask_cases (h : s.spawnTask syms entry name = .ok (s', r)) : s.SpawnedTask s' := by
  simp only [spawnTask] at h
  rcases hslot : s.findFreeSlot with _ | slot <;> rw [hslot] at h
  · cases h
    exact .full
  dsimp only at h
  rcases hk : s.heap.kmalloc stackSize with e | ⟨heap, stack⟩ <;> rw [hk] at h
  · cases h
  dsimp only at h
  split_ifs at h with h0 <;> cases h
  · exact .noStack ⟨rfl, rfl, rfl, rfl, rfl⟩ (h0 ▸ hk)
  · exact .started hk h0 (.of_install hslot ⟨rfl, rfl, rfl, rfl, rfl⟩ h0 rfl ⟨_, rfl⟩)

theorem schedSpawnNamed_cases {name : Option String}
    (h : s.schedSpawnNamed syms name = .ok (s', r)) : s.SpawnedTask s' := by
  simp only [schedSpawnNamed] at h
  split_ifs at h
  · exact spawnTask_cases h
  · exact spawnTask_cases h
  · cases h
    exact .full

theorem schedSpawnUser_outcome (h : s.schedSpawnUser entry name = .ok (s', r)) :
    s.SpawnedUser entry s' ∧ (s.SameTable s' ∨ r = int32 s.nextTaskId) := by
  have hsame : ∀ heap, s.SameTable { s with heap := heap } := fun _ => ⟨rfl, rfl, rfl, rfl, rfl⟩
  simp only [schedSpawnUser] at h
  rcases hslot : s.findFreeSlot with _ | slot <;> rw [hslot] at h
  · cases h
    exact ⟨.full, .inl (.refl s)⟩
  dsimp only at h
  rcases hd : s.heap.paging.pagingCreateDirectory with e | ⟨p, newPd⟩ <;> rw [hd] at h
  · cases h
  dsimp only at h
  split_ifs at h with hpd
  · cases h
    exact ⟨.noDirectory (hsame _) (hpd ▸ hd) rfl, .inl (hsame _)⟩
  rcases hk : (s.withPaging p).heap.kmalloc stackSize with e | ⟨h1, kstack⟩ <;> rw [hk] at h
  · cases h
  dsimp only at h
  split_ifs at h with hk0
  · cases h
    exact ⟨.noKernelStack (hsame _) hd hpd (hk0 ▸ hk) rfl, .inl (hsame _)⟩
  rcases hu : h1.kmalloc stackSize with e | ⟨h2, ustack⟩ <;> rw [hu] at h
  · cases h
  dsimp only at h
  split_ifs at h with hu0
  · rcases hf : h2.kfree kstack with e | h3 <;> rw [hf] at h
    · cases h
    cases h
    exact ⟨.noUserStack (hsame _) hd hpd hk hk0 (hu0 ▸ hu) hf rfl, .inl (hsame _)⟩
  · simp only [startUser] at h
    rcases hm : mapUserPages (h2.paging.pagingSwitchDirectory newPd) ustack entry with e | q <;>
      rw [hm] at h
    · cases h
    cases h
    exact ⟨.started hd hpd hk hk0 hu hu0 hm
      (.of_install hslot (hsame _) hk0 rfl ⟨_, rfl⟩), .inr rfl⟩

theorem schedSpawnUser_cases (h : s.schedSpawnUser entry name = .ok (s', r)) :
    s.SpawnedUser entry s' := (schedSpawnUser_outcome h).1

theorem schedSpawnNamed_spec {name : Option String}
    (h : s.schedSpawnNamed syms name = .ok (s', r)) : s.SpawnEffect s' := by
  cases schedSpawnNamed_cases h with
  | full => exact .inl (.refl s)
  | noStack hsame => exact .inl hsame
  | started _ _ hp => exact .inr ⟨_, hp.free, hp.installed⟩

theorem schedSpawnUser_spec (h : s.schedSpawnUser entry name = .ok (s', r)) : s.SpawnEffect s' := by
  cases schedSpawnUser_cases h with
  | full => exact .inl (.refl s)
  | noDirectory hsame => exact .inl hsame
  | noKernelStack hsame => exact .inl hsame
  | noUserStack hsame => exact .inl hsame
  | started _ _ _ _ _ _ _ hp => exact .inr ⟨_, hp.free, hp.installed⟩

/-! ## The invariant -/

section

omit [Disk D]

/-- The table between two operations of the scheduler. -/
structure Inv (s : Sched D) : Prop where
  active : s.activeTasks = s.used.card
  main_state : (s.tasks 0).state = .ready ∨ (s.tasks 0).state = .running
  main_id : (s.tasks 0).id = 0
  main_stack : (s.tasks 0).stack = 0
  current : s.currentTask = some s.currentIndex
  current_state : (s.tasks s.currentIndex).state = .running ∨
    (s.tasks s.currentIndex).state = .zombie
  others : ∀ i, i ≠ s.currentIndex → (s.tasks i).state ≠ .unused → (s.tasks i).state = .ready
  stack_ne : ∀ i, i ≠ 0 → (s.tasks i).state ≠ .unused → (s.tasks i).stack ≠ 0

/-- The boot thread never exits. -/
theorem Inv.zombie_ne_main (hs : s.Inv) (hz : (s.tasks i).state = .zombie) : i ≠ 0 := by
  rintro rfl
  rcases hs.main_state with h | h <;> rw [h] at hz <;> cases hz

theorem Inv.main_used (hs : s.Inv) : (s.tasks 0).state ≠ .unused := by
  rcases hs.main_state with h | h <;> rw [h] <;> decide

theorem Inv.current_used (hs : s.Inv) : (s.tasks s.currentIndex).state ≠ .unused := by
  rcases hs.current_state with h | h <;> rw [h] <;> decide

theorem inv_schedInit (heap : Heap D) : (boot heap).schedInit.Inv where
  active := rfl
  main_state := Or.inr rfl
  main_id := rfl
  main_stack := rfl
  current := rfl
  current_state := Or.inl rfl
  others i hi hu := absurd (by
    change i ≠ 0 at hi
    simp [schedInit, hi, Task.zero]) hu
  stack_ne i hi hu := absurd (by simp [schedInit, hi, Task.zero]) hu

theorem Inv.sameTable (hs : s.Inv) (h : s.SameTable s') : s'.Inv := by
  obtain ⟨h1, h2, h3, -, h5⟩ := h
  have hused : s'.used = s.used := by simp [used, h1]
  exact ⟨by rw [h5, hused, hs.active], h1 ▸ hs.main_state, h1 ▸ hs.main_id, h1 ▸ hs.main_stack,
    by rw [h2, h3, hs.current], by rw [h1, h3]; exact hs.current_state,
    by rw [h1, h3]; exact hs.others, by rw [h1]; exact hs.stack_ne⟩

/-- Filling an unused entry keeps the invariant. -/
theorem Inv.install (hs : s.Inv) (h : s.Installed s' i) : s'.Inv := by
  have hmain : (0 : Slot) ≠ i := fun h0 => hs.main_used (h0 ▸ h.was_unused)
  have hcur : s.currentIndex ≠ i := fun hc => hs.current_used (hc ▸ h.was_unused)
  have hcard := s.card_used_le
  refine ⟨?_, ?_, ?_, ?_, ?_, ?_, ?_, ?_⟩
  · have hnot : i ∉ s.used := fun hm => mem_used.mp hm h.was_unused
    rw [h.activeTasks, h.used_eq, card_insert_of_notMem hnot, hs.active]
    exact u32_of_lt (by omega)
  · rw [h.other 0 hmain]
    exact hs.main_state
  · rw [h.other 0 hmain]
    exact hs.main_id
  · rw [h.other 0 hmain]
    exact hs.main_stack
  · rw [h.currentTask, h.currentIndex]
    exact hs.current
  · rw [h.currentIndex, h.other _ hcur]
    exact hs.current_state
  · intro j hj hu
    rw [h.currentIndex] at hj
    by_cases hji : j = i
    · subst hji
      exact h.state
    · rw [h.other j hji] at hu ⊢
      exact hs.others j hj hu
  · intro j hj hu
    by_cases hji : j = i
    · subst hji
      exact h.stack
    · rw [h.other j hji] at hu ⊢
      exact hs.stack_ne j hj hu

theorem Inv.spawn (hs : s.Inv) (h : s.SpawnEffect s') : s'.Inv := by
  rcases h with h | ⟨i, -, h⟩
  · exact hs.sameTable h
  · exact hs.install h

/-- Destroying another task than the current one keeps the invariant. -/
theorem Inv.destroy (hs : s.Inv) (h : s.Destroyed s' i) (hu : (s.tasks i).state ≠ .unused)
    (hmain : i ≠ 0) (hcur : i ≠ s.currentIndex) : s'.Inv := by
  refine ⟨?_, ?_, ?_, ?_, ?_, ?_, ?_, ?_⟩
  · rw [h.activeTasks, h.used_eq, card_erase_of_mem (mem_used.mpr hu), hs.active]
  · rw [h.other 0 hmain.symm]
    exact hs.main_state
  · rw [h.other 0 hmain.symm]
    exact hs.main_id
  · rw [h.other 0 hmain.symm]
    exact hs.main_stack
  · rw [h.currentTask, h.currentIndex]
    exact hs.current
  · rw [h.currentIndex, h.other _ hcur.symm]
    exact hs.current_state
  · intro j hj hju
    rw [h.currentIndex] at hj
    have hji : j ≠ i := by
      rintro rfl
      exact hju h.unused
    rw [h.other j hji] at hju ⊢
    exact hs.others j hj hju
  · intro j hj hju
    have hji : j ≠ i := by
      rintro rfl
      exact hju h.unused
    rw [h.other j hji] at hju ⊢
    exact hs.stack_ne j hj hju

theorem Inv.setCurrent (hs : s.Inv) (hid : t.id = (s.tasks s.currentIndex).id)
    (hstack : t.stack = (s.tasks s.currentIndex).stack)
    (hst : t.state = .running ∨ t.state = .zombie ∧ s.currentIndex ≠ 0) :
    (s.setTask s.currentIndex t).Inv := by
  have hu : t.state ≠ .unused := by
    rcases hst with h | ⟨h, -⟩ <;> rw [h] <;> decide
  refine ⟨?_, ?_, ?_, ?_, hs.current, ?_, ?_, ?_⟩
  · rw [used_setTask hs.current_used hu]
    exact hs.active
  · by_cases h0 : (0 : Slot) = s.currentIndex
    · rcases hst with h | ⟨-, h⟩
      · rw [← h0, setTask_tasks_self]
        exact Or.inr h
      · exact absurd h0.symm h
    · rw [setTask_tasks_of_ne _ _ h0]
      exact hs.main_state
  · by_cases h0 : (0 : Slot) = s.currentIndex
    · rw [← h0, setTask_tasks_self, hid, ← h0]
      exact hs.main_id
    · rw [setTask_tasks_of_ne _ _ h0]
      exact hs.main_id
  · by_cases h0 : (0 : Slot) = s.currentIndex
    · rw [← h0, setTask_tasks_self, hstack, ← h0]
      exact hs.main_stack
    · rw [setTask_tasks_of_ne _ _ h0]
      exact hs.main_stack
  · change ((s.setTask s.currentIndex t).tasks s.currentIndex).state = _ ∨
      ((s.setTask s.currentIndex t).tasks s.currentIndex).state = _
    rw [setTask_tasks_self]
    exact hst.imp_right And.left
  · intro j hj hju
    change j ≠ s.currentIndex at hj
    rw [setTask_tasks_of_ne _ _ hj] at hju ⊢
    exact hs.others j hj hju
  · intro j hj hju
    by_cases hji : j = s.currentIndex
    · subst hji
      rw [setTask_tasks_self, hstack]
      exact hs.stack_ne _ hj hs.current_used
    · rw [setTask_tasks_of_ne _ _ hji] at hju ⊢
      exact hs.stack_ne j hj hju

/-- The current task, if spawned, may exit. -/
theorem Inv.exit (hs : s.Inv) (hmain : s.currentIndex ≠ 0) :
    (s.setState s.currentIndex .zombie).Inv :=
  hs.setCurrent rfl rfl (Or.inr ⟨rfl, hmain⟩)

theorem findTaskById_spec (h : s.findTaskById id = some i) :
    (s.tasks i).state ≠ .unused ∧ (s.tasks i).id = id := by
  have := List.find?_some h
  simpa using this

theorem schedKill_cases (hs : s.Inv) (h : s.schedKill id = .ok (s', r)) :
    s' = s ∨ (s.currentIndex ≠ 0 ∧ s' = s.setState s.currentIndex .zombie) ∨
    ∃ i, (s.tasks i).state ≠ .unused ∧ i ≠ 0 ∧ i ≠ s.currentIndex ∧ s.destroyTask i = .ok s' := by
  unfold schedKill at h
  split at h
  · cases h
    exact Or.inl rfl
  rename_i hid
  rcases hf : s.findTaskById id with _ | i
  · rw [hf] at h
    cases h
    exact Or.inl rfl
  rw [hf] at h
  dsimp only at h
  obtain ⟨hu, hidi⟩ := findTaskById_spec hf
  have hmain : i ≠ 0 := by
    rintro rfl
    exact hid (hidi.symm.trans hs.main_id)
  rw [hs.current] at h
  split_ifs at h with hc hz
  · cases hc
    cases h
    exact Or.inr (Or.inl ⟨hmain, rfl⟩)
  · cases h
    exact Or.inl rfl
  · rcases hd : s.destroyTask i with e | s1
    · rw [hd] at h
      cases h
    · rw [hd] at h
      cases h
      exact Or.inr (Or.inr ⟨i, hu, hmain, fun heq => hc (congrArg some heq.symm), hd⟩)

theorem Inv.kill (hs : s.Inv) (h : s.schedKill id = .ok (s', r)) : s'.Inv := by
  rcases schedKill_cases hs h with rfl | ⟨hmain, rfl⟩ | ⟨i, hu, hmain, hcur, hd⟩
  · exact hs
  · exact hs.exit hmain
  · exact hs.destroy (destroyTask_spec hu hd) hu hmain hcur

end

/-! ## The timer tick -/

omit [Disk D]

/-- The table between the two halves of `sched_tick`: no task is current. -/
structure Paused (s s₁ : Sched D) (frame : ℕ) : Prop where
  active : s₁.activeTasks = s₁.used.card
  ready : ∀ i, (s₁.tasks i).state ≠ .unused → (s₁.tasks i).state = .ready
  nextTaskId : s₁.nextTaskId = s.nextTaskId
  other : ∀ i, i ≠ s.currentIndex → s₁.tasks i = s.tasks i
  saved : (s.tasks s.currentIndex).state = .running → s₁.tasks s.currentIndex =
    { s.tasks s.currentIndex with frame := frame, state := .ready }
  gone : (s.tasks s.currentIndex).state = .zombie →
    (s₁.tasks s.currentIndex).state = .unused

theorem Inv.no_zombie (hs : s.Inv) (h : ∀ i, i ≠ s.currentIndex → s'.tasks i = s.tasks i)
    (hcur : (s'.tasks s.currentIndex).state ≠ .zombie) (i : Slot) :
    (s'.tasks i).state ≠ .zombie := by
  by_cases hi : i = s.currentIndex
  · exact hi ▸ hcur
  · intro hz
    rw [h i hi] at hz
    have := hs.others i hi (by rw [hz]; decide)
    rw [hz] at this
    cases this

/-- The first half of `sched_tick` saves a running task. -/
theorem Inv.retireCurrent_of_running (hs : s.Inv)
    (hrun : (s.tasks s.currentIndex).state = .running) (frame : ℕ) :
    s.retireCurrent s.currentIndex frame = .ok (s.setTask s.currentIndex
      { s.tasks s.currentIndex with frame := frame, state := .ready }) := by
  have hnz : ((s.setTask s.currentIndex { s.tasks s.currentIndex with
      frame := frame, state := .ready }).tasks s.currentIndex).state ≠ .zombie := by simp
  rw [Sched.retireCurrent, if_pos hrun]
  dsimp only
  rw [if_neg hnz]
  exact reapZombies_of_none fun i _ =>
    hs.no_zombie (fun j hj => setTask_tasks_of_ne _ _ hj) hnz i

theorem Inv.retireCurrent_of_zombie (hs : s.Inv)
    (hz : (s.tasks s.currentIndex).state = .zombie) (frame : ℕ) :
    s.retireCurrent s.currentIndex frame =
      (s.destroyTask s.currentIndex).map fun s2 => { s2 with currentTask := none } := by
  have hnr : (s.tasks s.currentIndex).state ≠ .running := by
    rw [hz]
    decide
  rw [Sched.retireCurrent, if_neg hnr, if_pos hz]
  rcases hd : s.destroyTask s.currentIndex with e | s2
  · rfl
  · have hdes := destroyTask_spec hs.current_used hd
    exact reapZombies_of_none (s := { s2 with currentTask := none }) fun i _ =>
      hs.no_zombie hdes.other (by rw [hdes.unused]; decide) i

/-- The first half of `sched_tick`. -/
theorem Inv.retireCurrent {s1 : Sched D} (hs : s.Inv)
    (h : s.retireCurrent s.currentIndex frame = .ok s1) : s.Paused s1 frame := by
  rcases hs.current_state with hrun | hz
  · -- the interrupted task is saved
    rw [hs.retireCurrent_of_running hrun] at h
    generalize hsave : s.setTask s.currentIndex
      { s.tasks s.currentIndex with frame := frame, state := .ready } = s2 at h
    obtain rfl := Except.ok.inj h
    have hself : s2.tasks s.currentIndex =
        { s.tasks s.currentIndex with frame := frame, state := .ready } :=
      hsave ▸ setTask_tasks_self ..
    have hother : ∀ i, i ≠ s.currentIndex → s2.tasks i = s.tasks i :=
      fun i hi => hsave ▸ setTask_tasks_of_ne _ _ hi
    have hused : s2.used = s.used := hsave ▸ used_setTask hs.current_used (by simp)
    refine ⟨?_, fun i hu => ?_, ?_, hother, fun _ => hself, fun hz => ?_⟩
    · rw [hused, ← hs.active, ← hsave]
      rfl
    · by_cases hi : i = s.currentIndex
      · subst hi
        rw [hself]
      · rw [hother i hi] at hu ⊢
        exact hs.others i hi hu
    · rw [← hsave]
      rfl
    · rw [hrun] at hz
      cases hz
  · -- the interrupted task has exited
    rw [hs.retireCurrent_of_zombie hz] at h
    obtain ⟨s2, hd, rfl⟩ := map_ok h
    have hdes := destroyTask_spec hs.current_used hd
    refine ⟨?_, fun i hu => ?_, hdes.nextTaskId, hdes.other, fun hr => ?_, fun _ => hdes.unused⟩
    · change s2.activeTasks = s2.used.card
      rw [hdes.activeTasks, hdes.used_eq,
        card_erase_of_mem (mem_used.mpr hs.current_used), hs.active]
    · by_cases hi : i = s.currentIndex
      · subst hi
        exact absurd hdes.unused hu
      · change (s2.tasks i).state ≠ .unused at hu
        change (s2.tasks i).state = .ready
        rw [hdes.other i hi] at hu ⊢
        exact hs.others i hi hu
    · rw [hz] at hr
      cases hr

theorem Inv.main_paused {s1 : Sched D} (hs : s.Inv) (h : s.Paused s1 frame) :
    (s1.tasks 0).state = .ready ∧ (s1.tasks 0).id = 0 ∧ (s1.tasks 0).stack = 0 := by
  by_cases h0 : (0 : Slot) = s.currentIndex
  · have hrun : (s.tasks s.currentIndex).state = .running := by
      rcases hs.current_state with h | h
      · exact h
      · exact absurd h0.symm (hs.zombie_ne_main h)
    have hsaved := h.saved hrun
    rw [← h0] at hsaved
    rw [hsaved]
    exact ⟨rfl, hs.main_id, hs.main_stack⟩
  · rw [h.other 0 h0]
    exact ⟨hs.others 0 h0 hs.main_used, hs.main_id, hs.main_stack⟩

theorem switchTo_spec {s1 s2 : Sched D} {next : Slot} (h : s1.switchTo next frame = (s2, f)) :
    (∀ i, i ≠ next → s2.tasks i = s1.tasks i) ∧
    s2.tasks next = { s1.tasks next with state := .running, frame := f } ∧
    (f = if (s1.tasks next).frame = 0 then frame else (s1.tasks next).frame) ∧
    s2.currentTask = some next ∧ s2.currentIndex = s1.currentIndex ∧
    s2.nextTaskId = s1.nextTaskId ∧ s2.activeTasks = s1.activeTasks := by
  unfold switchTo at h
  dsimp only at h
  generalize hrun : ({ s1 with currentTask := some next }.setState next .running) = s3 at h
  have hother : ∀ i, i ≠ next → s3.tasks i = s1.tasks i :=
    fun i hi => hrun ▸ setTask_tasks_of_ne _ _ hi
  have hself : s3.tasks next = { s1.tasks next with state := .running } :=
    hrun ▸ setTask_tasks_self ..
  have hrest : s3.currentTask = some next ∧ s3.currentIndex = s1.currentIndex ∧
      s3.nextTaskId = s1.nextTaskId ∧ s3.activeTasks = s1.activeTasks := by
    rw [← hrun]
    exact ⟨rfl, rfl, rfl, rfl⟩
  -- the stack field and the directory are below the table
  generalize hdir : (if (s3.tasks next).pageDirectoryPhys ≠ 0 then _ else _ : Sched D) = s4 at h
  have hsame : s3.SameTable s4 := by
    rw [← hdir]
    split <;> exact ⟨rfl, rfl, rfl, rfl, rfl⟩
  have hframe : (s4.tasks next).frame = (s1.tasks next).frame := by
    rw [hsame.tasks, hself]
  rw [hframe] at h
  obtain ⟨h1, h2, h3, h4⟩ := hrest
  rw [← hsame.currentTask] at h1
  rw [← hsame.currentIndex] at h2
  rw [← hsame.nextTaskId] at h3
  rw [← hsame.activeTasks] at h4
  split_ifs at h with hz
  · cases h
    refine ⟨fun i hi => ?_, ?_, (if_pos hz).symm, h1, h2, h3, h4⟩
    · rw [setTask_tasks_of_ne _ _ hi, hsame.tasks, hother i hi]
    · rw [setTask_tasks_self, hsame.tasks, hself]
  · cases h
    refine ⟨fun i hi => ?_, ?_, (if_neg hz).symm, h1, h2, h3, h4⟩
    · rw [hsame.tasks, hother i hi]
    · rw [hsame.tasks, hself]

/-- A single used entry is the boot thread's. -/
theorem Inv.single (hs : s.Inv) (h : s.activeTasks ≤ 1) :
    s.currentIndex = 0 ∧ (s.tasks s.currentIndex).state = .running := by
  rw [hs.active] at h
  have hcur : s.currentIndex = 0 := Finset.card_le_one.mp h _ (mem_used.mpr hs.current_used) _
    (mem_used.mpr hs.main_used)
  refine ⟨hcur, ?_⟩
  rcases hs.current_state with h | h
  · exact h
  · exact absurd hcur (hs.zombie_ne_main h)

/-- The two paths of `sched_tick`, with what `pick_next_task` chose. -/
theorem Inv.tick_picks (hs : s.Inv) (h : s.schedTick frame = .ok (s', f)) :
    (s.activeTasks ≤ 1 ∧ s.currentIndex = 0 ∧ (s.tasks 0).state = .running ∧ f = frame ∧
      s' = s.setTask 0 { s.tasks 0 with frame := frame, state := .running }) ∨
    ∃ s1 k, s.retireCurrent s.currentIndex frame = .ok s1 ∧ (s1.tasks k).state = .ready ∧
      s1.pickNextTask = ({ s1 with currentIndex := k }, some k) ∧
      { s1 with currentIndex := k }.switchTo k frame = (s', f) := by
  unfold schedTick at h
  rw [hs.current] at h
  dsimp only at h
  by_cases hact : s.activeTasks ≤ 1
  · obtain ⟨hcur, hrun⟩ := hs.single hact
    rw [hcur] at hrun
    have hnz : (s.tasks 0).state ≠ .zombie := by
      rw [hrun]
      decide
    rw [if_pos hact, tickSingle, hcur, if_neg hnz] at h
    cases h
    exact Or.inl ⟨hact, hcur, hrun, rfl, rfl⟩
  · rw [if_neg hact] at h
    rcases hr : s.retireCurrent s.currentIndex frame with e | s1
    · rw [hr] at h
      cases h
    rw [hr] at h
    dsimp only at h
    have hp := hs.retireCurrent hr
    obtain ⟨k, hk, hready⟩ := pickNextTask_of_ready (hs.main_paused hp).1
    rw [hk] at h
    exact Or.inr ⟨s1, k, rfl, hready, hk, Except.ok.inj h⟩

/-- **What a tick does**: it saves the frame of the only task, or saves or destroys the current one
and switches. -/
theorem Inv.tick_cases (hs : s.Inv) (h : s.schedTick frame = .ok (s', f)) :
    (s.currentIndex = 0 ∧ (s.tasks 0).state = .running ∧ f = frame ∧
      s' = s.setTask 0 { s.tasks 0 with frame := frame, state := .running }) ∨
    ∃ s1 k, s.retireCurrent s.currentIndex frame = .ok s1 ∧ (s1.tasks k).state = .ready ∧
      { s1 with currentIndex := k }.switchTo k frame = (s', f) := by
  rcases hs.tick_picks h with ⟨-, hsingle⟩ | ⟨s1, k, hret, hk, -, hsw⟩
  · exact Or.inl hsingle
  · exact Or.inr ⟨s1, k, hret, hk, hsw⟩

/-- Switching from the paused table to a ready entry restores the invariant. -/
theorem Inv.resume {s1 : Sched D} {k : Slot} (hs : s.Inv) (hp : s.Paused s1 frame)
    (hk : (s1.tasks k).state = .ready)
    (h : { s1 with currentIndex := k }.switchTo k frame = (s', f)) : s'.Inv := by
  obtain ⟨hother, hself, -, hct, hci, -, hact⟩ := switchTo_spec h
  obtain ⟨hm1, hm2, hm3⟩ := hs.main_paused hp
  dsimp only at hother hself hci hact
  have hused : s'.used = s1.used := by
    ext j
    rw [mem_used, mem_used]
    by_cases hj : j = k
    · subst hj
      simp [hself, hk]
    · rw [hother j hj]
  have hstack : ∀ i, (s'.tasks i).stack = (s1.tasks i).stack := by
    intro i
    by_cases hi : i = k
    · subst hi
      rw [hself]
    · rw [hother i hi]
  refine ⟨?_, ?_, ?_, ?_, ?_, ?_, ?_, ?_⟩
  · rw [hact, hused, hp.active]
  · by_cases h0 : (0 : Slot) = k
    · subst h0
      exact Or.inr (congrArg Task.state hself)
    · rw [hother 0 h0]
      exact Or.inl hm1
  · by_cases h0 : (0 : Slot) = k
    · subst h0
      rw [hself]
      exact hm2
    · rw [hother 0 h0]
      exact hm2
  · rw [hstack]
    exact hm3
  · rw [hct, hci]
  · rw [hci, hself]
    exact Or.inl rfl
  · intro i hi hu
    rw [hci] at hi
    rw [hother i hi] at hu ⊢
    exact hp.ready i hu
  · intro i hi hu
    have hu1 : (s1.tasks i).state ≠ .unused := mem_used.mp (hused ▸ mem_used.mpr hu)
    rw [hstack]
    -- a used entry kept its stack when the current task was saved or destroyed
    by_cases hc : i = s.currentIndex
    · rcases hs.current_state with hrun | hz
      · subst hc
        rw [hp.saved hrun]
        exact hs.stack_ne _ hi hs.current_used
      · subst hc
        exact absurd (hp.gone hz) hu1
    · rw [hp.other i hc] at hu1 ⊢
      exact hs.stack_ne i hi hu1

theorem Inv.tick (hs : s.Inv) (h : s.schedTick frame = .ok (s', f)) : s'.Inv := by
  rcases hs.tick_cases h with ⟨hcur, hrun, -, rfl⟩ | ⟨s1, k, hret, hk, hsw⟩
  · rw [← hcur]
    exact hs.setCurrent rfl rfl (Or.inl rfl)
  · exact hs.resume (hs.retireCurrent hret) hk hsw

end Sched

end PenOS
