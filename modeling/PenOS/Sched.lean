import PenOS.Heap

/-!
# The scheduler (`src/sched/sched.c`)

A table of eight tasks, one of them current. `sched_tick` gets the frame of the interrupted task and
returns the one to resume. Slot 0 is the boot thread. Pointers to entries are slots, `current_task
== NULL` is `none`.
-/

namespace PenOS

/-- `task_state_t` -/
inductive TaskState : Type where
  /-- `TASK_UNUSED` -/
  | unused : TaskState
  /-- `TASK_READY` -/
  | ready : TaskState
  /-- `TASK_RUNNING` -/
  | running : TaskState
  /-- `TASK_SLEEPING` -/
  | sleeping : TaskState
  /-- `TASK_ZOMBIE` -/
  | zombie : TaskState
  deriving DecidableEq

/-- `task_entry_t` -/
structure Task where
  id : ℕ
  name : String
  state : TaskState
  frame : ℕ
  entry : ℕ
  stack : ℕ
  kernelStack : ℕ
  pageDirectoryPhys : ℕ

/-- A zeroed table entry. -/
def Task.zero : Task :=
  { id := 0, name := "", state := .unused, frame := 0, entry := 0, stack := 0, kernelStack := 0,
    pageDirectoryPhys := 0 }

/-- A table index, below `MAX_TASKS`. -/
abbrev Slot : Type := Fin 8

/-- The `n` slots behind `c`, in the order in which `pick_next_task` looks at them. -/
def behind : ℕ → Slot → List Slot
  | 0, _ => []
  | n + 1, c => (c + 1) :: behind n (c + 1)

/-- `STACK_SIZE` -/
abbrev stackSize : ℕ := 4096

/-- `sizeof(interrupt_frame_t)` -/
abbrev frameSize : ℕ := 76

/-- The words of an `interrupt_frame_t`, from `gs` to `ss`. -/
structure InterruptFrame where
  segments : ℕ
  ebp : ℕ
  esp : ℕ
  eip : ℕ
  cs : ℕ
  userEsp : ℕ
  ss : ℕ

/-- A frame: segment registers, `edi` to `eax`, interrupt number and error code, then what the
processor pushes. Registers not named are zero, and interrupts are enabled. -/
def InterruptFrame.words (f : InterruptFrame) : List ℕ :=
  [f.segments, f.segments, f.segments, f.segments, 0, 0, f.ebp, f.esp, 0, 0, 0, 0, 0, 0,
    f.eip, f.cs, 0x202, f.userEsp, f.ss]

/-- Store words one after the other. -/
def storeWords (m : RecMem) : ℕ → List ℕ → RecMem
  | _, [] => m
  | a, w :: ws => storeWords (m.store32 a w) (a + 4) ws

/-- Clear a frame and fill it in. -/
def writeFrame (m : RecMem) (frame : ℕ) (f : InterruptFrame) : RecMem :=
  storeWords (m.fill frame frameSize 0) frame f.words

/-- The end of a stack: `((uint32_t)stack + STACK_SIZE) & ~0xF`. -/
def stackTop (stack : ℕ) : ℕ := u32 (stack + stackSize) &&& not32 0xF

/-- The first frame of a task, at the end of its stack. -/
def initialFrame (stack : ℕ) : ℕ := sub32 (stackTop stack) frameSize

/-- The code addresses the scheduler stores. -/
structure TaskSymbols where
  taskTrampoline : ℕ
  taskSpinner : ℕ
  taskCounter : ℕ

/-- The statics of `sched.c`, the stack field of the TSS, and the heap below. -/
structure Sched (D : Type) where
  heap : Heap D
  tasks : Slot → Task
  currentTask : Option Slot
  nextTaskId : ℕ
  activeTasks : ℕ
  currentIndex : Slot
  tssEsp0 : ℕ

namespace Sched

variable {D : Type}

/-- The statics before `sched_init`. -/
def boot (heap : Heap D) : Sched D :=
  { heap := heap, tasks := fun _ => Task.zero, currentTask := none, nextTaskId := 1,
    activeTasks := 0, currentIndex := 0, tssEsp0 := 0 }

/-- Change the paging layer. -/
def withPaging (s : Sched D) (paging : Paging D) : Sched D :=
  { s with heap := { s.heap with paging := paging } }

/-- Change one table entry. -/
def setTask (s : Sched D) (i : Slot) (t : Task) : Sched D :=
  { s with tasks := Function.update s.tasks i t }

/-- Set the state of one table entry. -/
def setState (s : Sched D) (i : Slot) (st : TaskState) : Sched D :=
  s.setTask i { s.tasks i with state := st }

/-- `sched_init` -/
def schedInit (s : Sched D) : Sched D :=
  { s with
    tasks := fun i =>
      if i = 0 then
        { Task.zero with
          name := "main"
          state := .running
          pageDirectoryPhys := s.heap.paging.pagingGetKernelDirectory }
      else Task.zero
    currentTask := some 0
    activeTasks := 1
    currentIndex := 0 }

/-- `find_free_slot` -/
def findFreeSlot (s : Sched D) : Option Slot :=
  (List.finRange 8).find? fun i => (s.tasks i).state = .unused

/-- `find_task_by_id` -/
def findTaskById (s : Sched D) (id : ℕ) : Option Slot :=
  (List.finRange 8).find? fun i => (s.tasks i).state ≠ .unused ∧ (s.tasks i).id = id

/-- `sched_get_current_pid` -/
def schedGetCurrentPid (s : Sched D) : ℕ :=
  match s.currentTask with
  | some i => (s.tasks i).id
  | none => 0

/-! ## Destroying tasks -/

/-- The end of `destroy_task`: the entry becomes unused. -/
def retireSlot (s : Sched D) (i : Slot) : Sched D :=
  { s.setTask i { s.tasks i with name := "", state := .unused, entry := 0, frame := 0 } with
    activeTasks := if s.activeTasks ≠ 0 then s.activeTasks - 1 else 0 }

/-- The middle of `destroy_task`: free the address space unless it is the current one. -/
def releaseDirectory (s : Sched D) (i : Slot) : Sched D :=
  let pd := (s.tasks i).pageDirectoryPhys
  if pd ≠ 0 ∧ pd ≠ s.heap.paging.pagingGetKernelDirectory then
    (s.withPaging (s.heap.paging.pagingDestroyDirectory pd)).setTask i
      { s.tasks i with pageDirectoryPhys := 0 }
  else s

/-- The start of `destroy_task`: free the stack. -/
def releaseStack (s : Sched D) (i : Slot) : Except Halt (Sched D) :=
  if (s.tasks i).stack ≠ 0 then
    match s.heap.kfree (s.tasks i).stack with
    | .error e => .error e
    | .ok heap => .ok ({ s with heap := heap }.setTask i { s.tasks i with stack := 0 })
  else .ok s

/-- `destroy_task` -/
def destroyTask (s : Sched D) (i : Slot) : Except Halt (Sched D) :=
  if (s.tasks i).state = .unused then .ok s
  else
    match s.releaseStack i with
    | .error e => .error e
    | .ok s => .ok ((s.releaseDirectory i).retireSlot i)

/-- `reap_zombies` -/
def reapZombies (s : Sched D) : Except Halt (Sched D) :=
  (List.finRange 8).foldlM
    (fun s i =>
      if s.currentTask = some i then .ok s
      else if (s.tasks i).state = .zombie then s.destroyTask i
      else .ok s) s

/-- `sched_kill` -/
def schedKill (s : Sched D) (id : ℕ) : Except Halt (Sched D × ℤ) :=
  if id = 0 then .ok (s, -1)
  else
    match s.findTaskById id with
    | none => .ok (s, -1)
    | some i =>
      if s.currentTask = some i then .ok (s.setState i .zombie, 0)
      else if (s.tasks i).state = .zombie then .ok (s, 0)
      else
        match s.destroyTask i with
        | .error e => .error e
        | .ok s => .ok (s, 0)

/-- The effect of `sys_exit` on the table. -/
def sysExit (s : Sched D) : Except Halt (Sched D × ℤ) := s.schedKill s.schedGetCurrentPid

/-- The end of `task_trampoline`, when the task's function returns. -/
def taskTrampolineEnd (s : Sched D) : Sched D :=
  match s.currentTask with
  | some i => s.setState i .zombie
  | none => s

/-! ## Switching -/

/-- The loop of `pick_next_task` with `n` candidates left. -/
def pickLoop : ℕ → Sched D → Sched D × Option Slot
  | 0, s =>
    (s, match s.currentTask with
      | some i => if (s.tasks i).state = .ready then some i else none
      | none => none)
  | n + 1, s =>
    let s := { s with currentIndex := s.currentIndex + 1 }
    if (s.tasks s.currentIndex).state = .ready then (s, some s.currentIndex) else pickLoop n s

/-- `pick_next_task` -/
def pickNextTask (s : Sched D) : Sched D × Option Slot := pickLoop 8 s

/-- The part of `sched_tick` up to `pick_next_task`: save or destroy the current
task and reap the others. -/
def retireCurrent (s : Sched D) (cur : Slot) (frame : ℕ) : Except Halt (Sched D) :=
  let s :=
    if (s.tasks cur).state = .running then
      s.setTask cur { s.tasks cur with frame := frame, state := .ready }
    else s
  if (s.tasks cur).state = .zombie then
    match s.destroyTask cur with
    | .error e => .error e
    | .ok s => { s with currentTask := none }.reapZombies
  else s.reapZombies

/-- The part of `sched_tick` for `pick_next_task() == NULL`. -/
def noNextTask (s : Sched D) (frame : ℕ) : Sched D × ℕ :=
  let cur := s.currentTask.getD 0
  let s := { s with currentTask := some cur }
  let s := s.setState cur .running
  let s := if (s.tasks cur).frame = 0 then s.setTask cur { s.tasks cur with frame := frame } else s
  (s, frame)

/-- The end of `sched_tick`: make `next` current and resume its frame. -/
def switchTo (s : Sched D) (next : Slot) (frame : ℕ) : Sched D × ℕ :=
  let s := { s with currentTask := some next }.setState next .running
  let s := { s with tssEsp0 := (s.tasks next).kernelStack }
  let pd := (s.tasks next).pageDirectoryPhys
  let s := if pd ≠ 0 then s.withPaging (s.heap.paging.pagingSwitchDirectory pd) else s
  if (s.tasks next).frame = 0 then
    (s.setTask next { s.tasks next with frame := frame }, frame)
  else (s, (s.tasks next).frame)

/-- The fast path of `sched_tick`, with a single task. -/
def tickSingle (s : Sched D) (cur : Slot) (frame : ℕ) : Except Halt (Sched D × ℕ) :=
  if (s.tasks cur).state = .zombie then
    match s.destroyTask cur with
    | .error e => .error e
    | .ok s => .ok ({ s with currentTask := none }, frame)
  else .ok (s.setTask cur { s.tasks cur with frame := frame, state := .running }, frame)

/-- `sched_tick`: the frame to resume. -/
def schedTick (s : Sched D) (frame : ℕ) : Except Halt (Sched D × ℕ) :=
  match s.currentTask with
  | none => .ok (s, frame)
  | some cur =>
    if s.activeTasks ≤ 1 then s.tickSingle cur frame
    else
      match s.retireCurrent cur frame with
      | .error e => .error e
      | .ok s =>
        match s.pickNextTask with
        | (s, none) => .ok (s.noNextTask frame)
        | (s, some next) => .ok (s.switchTo next frame)

/-! ## Spawning -/

/-- `task->id = next_task_id++` and the fields every spawn sets; the entry is
cleared before. -/
def installTask (s : Sched D) (i : Slot) (t : Task) : Sched D :=
  { s.setTask i { t with id := s.nextTaskId, state := .ready } with
    nextTaskId := u32 (s.nextTaskId + 1)
    activeTasks := u32 (s.activeTasks + 1) }

variable [Disk D]

/-- `spawn_task` -/
def spawnTask (s : Sched D) (syms : TaskSymbols) (entry : ℕ) (name : String) :
    Except Halt (Sched D × ℤ) :=
  match s.findFreeSlot with
  | none => .ok (s, -1)
  | some slot =>
    match s.heap.kmalloc stackSize with
    | .error e => .error e
    | .ok (heap, stack) =>
      if stack = 0 then .ok ({ s with heap := heap }, -1)
      else
        let top := stackTop stack
        let frame := initialFrame stack
        let window := writeFrame heap.window frame
          { segments := 0x10, ebp := top, esp := top, eip := syms.taskTrampoline, cs := 0x08,
            userEsp := 0, ss := 0 }
        .ok ({ s with heap := { heap with window := window } }.installTask slot
          { Task.zero with
            name := (name.take 31).toString
            frame := frame
            entry := entry
            stack := stack
            kernelStack := top }, int32 s.nextTaskId)

/-- `sched_spawn_named`; a null name is `none`. -/
def schedSpawnNamed (s : Sched D) (syms : TaskSymbols) (name : Option String) :
    Except Halt (Sched D × ℤ) :=
  if name = some "spinner" then s.spawnTask syms syms.taskSpinner "spinner"
  else if name = some "counter" then s.spawnTask syms syms.taskCounter "counter"
  else .ok (s, -1)

/-- The remapping in `sched_spawn_user`: the pages of the user stack and the entry point become User
pages. -/
def mapUserPages (s : Paging D) (ustack entry : ℕ) : Except Halt (Paging D) :=
  let user := pagePresent ||| pageRw ||| pageUser
  let ustackPhys := s.pagingVirtToPhys ustack
  match if ustackPhys ≠ 0 then s.pagingMap ustack ustackPhys user else .ok s with
  | .error e => .error e
  | .ok s =>
    let entryPhys := s.pagingVirtToPhys entry
    if entryPhys ≠ 0 then
      s.pagingMap (entry &&& 0xFFFFF000) (entryPhys &&& 0xFFFFF000) user
    else .ok s

/-- `sched_spawn_user` after both stacks are allocated. -/
def startUser (s : Sched D) (slot : Slot) (newPd kstack ustack entry : ℕ) (name : String) :
    Except Halt (Sched D × ℤ) :=
  let oldPd := s.heap.paging.pagingGetKernelDirectory
  match mapUserPages (s.heap.paging.pagingSwitchDirectory newPd) ustack entry with
  | .error e => .error e
  | .ok paging =>
    let s := s.withPaging (paging.pagingSwitchDirectory oldPd)
    let frame := initialFrame kstack
    let window := writeFrame s.heap.window frame
      { segments := 0x23, ebp := stackTop ustack, esp := 0, eip := entry, cs := 0x1B,
        userEsp := stackTop ustack, ss := 0x23 }
    .ok ({ s with heap := { s.heap with window := window } }.installTask slot
      { Task.zero with
        name := (name.take 31).toString
        frame := frame
        entry := entry
        stack := kstack
        kernelStack := stackTop kstack
        pageDirectoryPhys := newPd }, int32 s.nextTaskId)

/-- `sched_spawn_user` -/
def schedSpawnUser (s : Sched D) (entry : ℕ) (name : String) : Except Halt (Sched D × ℤ) :=
  match s.findFreeSlot with
  | none => .ok (s, -1)
  | some slot =>
    match s.heap.paging.pagingCreateDirectory with
    | .error e => .error e
    | .ok (paging, newPd) =>
      let s := s.withPaging paging
      if newPd = 0 then .ok (s, -1)
      else
        match s.heap.kmalloc stackSize with
        | .error e => .error e
        | .ok (heap, kstack) =>
          let s := { s with heap := heap }
          if kstack = 0 then
            .ok (s.withPaging (s.heap.paging.pagingDestroyDirectory newPd), -1)
          else
            match s.heap.kmalloc stackSize with
            | .error e => .error e
            | .ok (heap, ustack) =>
              let s := { s with heap := heap }
              if ustack = 0 then
                match s.heap.kfree kstack with
                | .error e => .error e
                | .ok heap =>
                  let s := { s with heap := heap }
                  .ok (s.withPaging (s.heap.paging.pagingDestroyDirectory newPd), -1)
              else s.startUser slot newPd kstack ustack entry name

end Sched

end PenOS
