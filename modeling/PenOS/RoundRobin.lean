import PenOS.ElfTasks

/-!
# The order in which tasks run

`pick_next_task` stops at the first ready task behind the rotating index, and the current task comes
last. In terms of the slots behind the current one (`order`), a tick takes the head of the list and
puts it at the back.
-/

namespace PenOS

open List

variable {frame : ℕ} {seen : List (Option Slot)} {post pre rest : List Slot}

/-! ## The slots behind a slot -/

theorem nodup_behind (c : Slot) : (behind 8 c).Nodup := by
  revert c
  decide

theorem mem_behind (c i : Slot) : i ∈ behind 8 c := by
  revert c i
  decide

/-- A slot comes last behind itself. -/
theorem behind_self (c : Slot) : behind 8 c = behind 7 c ++ [c] ∧ c ∉ behind 7 c := by
  revert c
  decide

theorem behind_rotate (c : Slot) (d : Fin 8) :
    (behind 8 c)[d.val]?.map (behind 8) = some ((behind 8 c).rotate (d.val + 1)) := by
  revert c d
  decide

theorem behind_of_split {c k : Slot} (h : behind 8 c = pre ++ k :: post) :
    behind 8 k = post ++ (pre ++ [k]) := by
  have hlen : (pre ++ k :: post).length = 8 := by
    rw [← h]
    rfl
  rw [length_append, length_cons] at hlen
  have hrot := behind_rotate c ⟨pre.length, by omega⟩
  rw [h, List.getElem?_append_right le_rfl, Nat.sub_self, List.getElem?_cons_zero,
    Option.map_some] at hrot
  rw [Option.some.inj hrot, show pre ++ k :: post = (pre ++ [k]) ++ post by simp,
    show pre.length + 1 = (pre ++ [k]).length by simp]
  exact rotate_append_length_eq _ _

namespace Sched

variable {D : Type} {s s' s₁ : Sched D} {i k : Slot}

theorem pickLoop_first {n : ℕ}
    (hsplit : behind n s.currentIndex = pre ++ k :: post) (hk : (s.tasks k).state = .ready)
    (hpre : ∀ i ∈ pre, (s.tasks i).state ≠ .ready) :
    pickLoop n s = ({ s with currentIndex := k }, some k) := by
  induction n generalizing s pre with
  | zero => exact absurd hsplit (by simp [behind])
  | succ n ih =>
    rw [behind] at hsplit
    rw [pickLoop]
    dsimp only
    cases pre with
    | nil =>
      obtain ⟨hc, -⟩ := List.cons.inj hsplit
      rw [hc, if_pos hk]
    | cons i pre =>
      obtain ⟨hc, hrest⟩ := List.cons.inj hsplit
      rw [if_neg (by rw [hc]; exact hpre i mem_cons_self)]
      exact ih (s := { s with currentIndex := s.currentIndex + 1 }) hrest hk
        fun j hj => hpre j (mem_cons_of_mem i hj)

/-! ## The order of the tasks -/

/-- The tasks that go on: those in use that have not exited. -/
def alive (s : Sched D) : Finset Slot :=
  Finset.univ.filter fun i => (s.tasks i).state = .ready ∨ (s.tasks i).state = .running

theorem mem_alive : i ∈ s.alive ↔ (s.tasks i).state = .ready ∨ (s.tasks i).state = .running := by
  simp [alive]

/-- The tasks in the order of the slots behind the current one. -/
def order (s : Sched D) : List Slot := (behind 8 s.currentIndex).filter (· ∈ s.alive)

theorem nodup_order (s : Sched D) : s.order.Nodup := (nodup_behind _).filter _

theorem mem_order : i ∈ s.order ↔ i ∈ s.alive := by
  simp [order, mem_behind]

theorem length_order (s : Sched D) : s.order.length = s.alive.card := by
  rw [← toFinset_card_of_nodup s.nodup_order]
  congr 1
  ext i
  rw [mem_toFinset, mem_order]

/-- The current task comes last. -/
theorem getLast?_order (h : s.currentIndex ∈ s.alive) : s.order.getLast? = some s.currentIndex := by
  rw [order, (behind_self _).1, filter_append, filter_singleton, decide_eq_true h,
    cond_true, List.getLast?_concat]

theorem Inv.alive_eq_used (hs : s.Inv) (hrun : (s.tasks s.currentIndex).state = .running) :
    s.alive = s.used := by
  ext i
  rw [mem_alive, mem_used]
  constructor
  · rintro (h | h) <;> rw [h] <;> decide
  · intro hu
    by_cases hi : i = s.currentIndex
    · exact Or.inr (hi ▸ hrun)
    · exact Or.inl (hs.others i hi hu)

/-! ## One tick -/

theorem Inv.retired (hs : s.Inv) (h : s.retireCurrent s.currentIndex frame = .ok s₁) :
    s₁.currentIndex = s.currentIndex ∧ ∀ i, (s₁.tasks i).state = .ready ↔ i ∈ s.alive := by
  have hp := hs.retireCurrent h
  refine ⟨?_, fun i => ?_⟩
  · rcases hs.current_state with hrun | hz
    · rw [hs.retireCurrent_of_running hrun] at h
      cases h
      rfl
    · rw [hs.retireCurrent_of_zombie hz] at h
      obtain ⟨s2, hd, rfl⟩ := map_ok h
      exact (destroyTask_spec hs.current_used hd).currentIndex
  · rw [mem_alive]
    by_cases hi : i = s.currentIndex
    · subst hi
      rcases hs.current_state with hrun | hz
      · rw [hp.saved hrun]
        exact iff_of_true rfl (Or.inr hrun)
      · rw [hp.gone hz, hz]
        decide
    · rw [hp.other i hi]
      refine ⟨Or.inl, fun h => h.resolve_right fun hrun => ?_⟩
      have hready := hs.others i hi (by rw [hrun]; decide)
      rw [hrun] at hready
      cases hready

/-- **A tick** makes the first task of the order current, and puts it at the end. -/
theorem Inv.tick_order (hs : s.Inv) {f : ℕ}
    (h : s.schedTick frame = .ok (s', f)) (ho : s.order = k :: rest) :
    s'.currentTask = some k ∧ s'.alive = s.alive ∧ s'.order = rest ++ [k] := by
  obtain ⟨pre, post, hsplit, hpre, hk, hpost⟩ := List.filter_eq_cons_iff.mp ho
  rw [decide_eq_true_eq] at hk
  rcases hs.tick_picks h with ⟨hact, hcur, hrun, -, rfl⟩ | ⟨s₁, j, hret, hj, hpick, hsw⟩
  · -- the boot thread is alone
    have halive : s.alive = {0} := by
      rw [hs.alive_eq_used (hcur ▸ hrun)]
      refine Finset.eq_singleton_iff_unique_mem.mpr ⟨mem_used.mpr hs.main_used, fun j hj => ?_⟩
      rw [hs.active] at hact
      exact Finset.card_le_one.mp hact _ hj _ (mem_used.mpr hs.main_used)
    have halive' : (s.setTask 0 { s.tasks 0 with
        frame := frame, state := .running }).alive = s.alive := by
      ext j
      rw [mem_alive, mem_alive]
      by_cases hj : j = 0
      · subst hj
        rw [setTask_tasks_self]
        exact iff_of_true (Or.inr rfl) (Or.inr hrun)
      · rw [setTask_tasks_of_ne _ _ hj]
    have hk0 : k = 0 := by
      rw [halive] at hk
      exact Finset.mem_singleton.mp hk
    have hrest : rest = [] := by
      have hlen := s.length_order
      rw [ho, halive, Finset.card_singleton, length_cons] at hlen
      exact eq_nil_of_length_eq_zero (by omega)
    refine ⟨?_, halive', ?_⟩
    · rw [hk0, ← hcur]
      exact hs.current
    · rw [order, halive', hrest]
      exact ho.trans (by rw [hrest]; rfl)
  · -- the current task is ready or gone, and the first ready one is taken
    obtain ⟨hindex, hready⟩ := hs.retired hret
    have hfirst := pickLoop_first (s := s₁) (by rw [hindex]; exact hsplit) ((hready k).mpr hk)
      fun i hi hr => hpre i hi (decide_eq_true ((hready i).mp hr))
    obtain rfl : j = k := Option.some.inj (congrArg Prod.snd (hpick.symm.trans hfirst))
    obtain ⟨hother, hself, -, hct, hci, -⟩ := switchTo_spec hsw
    dsimp only at hother hself hci
    have halive : s'.alive = s.alive := by
      ext i
      by_cases hi : i = j
      · subst hi
        exact iff_of_true (mem_alive.mpr (Or.inr (congrArg Task.state hself))) hk
      · rw [← hready, mem_alive, hother i hi]
        refine ⟨fun h => h.resolve_right fun hrun => ?_, Or.inl⟩
        have hr := (hs.retireCurrent hret).ready i (by rw [hrun]; decide)
        rw [hrun] at hr
        cases hr
    have hnone : pre.filter (· ∈ s.alive) = [] := List.filter_eq_nil_iff.mpr hpre
    refine ⟨hct, halive, ?_⟩
    rw [order, hci, halive, behind_of_split hsplit, filter_append, filter_append, hpost,
      hnone, nil_append, filter_singleton, decide_eq_true hk, cond_true]

theorem Inv.exists_tick (hs : s.Inv) (frame : ℕ)
    (hd : (s.tasks s.currentIndex).state = .zombie → ∃ s2, s.destroyTask s.currentIndex = .ok s2) :
    ∃ s' f, s.schedTick frame = .ok (s', f) := by
  have hret : ∃ s₁, s.retireCurrent s.currentIndex frame = .ok s₁ := by
    rcases hs.current_state with hrun | hz
    · exact ⟨_, hs.retireCurrent_of_running hrun frame⟩
    · obtain ⟨s2, hd⟩ := hd hz
      exact ⟨_, (hs.retireCurrent_of_zombie hz frame).trans (congrArg _ hd)⟩
  obtain ⟨s₁, hret⟩ := hret
  obtain ⟨k, hk, -⟩ := pickNextTask_of_ready (hs.main_paused (hs.retireCurrent hret)).1
  rw [schedTick, hs.current]
  dsimp only
  by_cases hact : s.activeTasks ≤ 1
  · rw [if_pos hact, tickSingle, if_neg (by rw [(hs.single hact).2]; decide)]
    exact ⟨_, _, rfl⟩
  · rw [if_neg hact, hret]
    dsimp only
    rw [hk]
    exact ⟨_, _, rfl⟩

/-! ## Rounds -/

/-- Ticks, with the heap and the frame each of them finds: the state after them, and the task that
was current after each. -/
def ticks : List (Heap D × ℕ) → Sched D → Except Halt (Sched D × List (Option Slot))
  | [], s => .ok (s, [])
  | (heap, frame) :: ins, s =>
    match { s with heap := heap }.schedTick frame with
    | .error e => .error e
    | .ok (s, _) =>
      match ticks ins s with
      | .error e => .error e
      | .ok (s', seen) => .ok (s', s.currentTask :: seen)

theorem Inv.withHeap (hs : s.Inv) (heap : Heap D) : { s with heap := heap }.Inv :=
  hs.sameTable ⟨rfl, rfl, rfl, rfl, rfl⟩

/-- Ticks go through the order from its beginning. -/
theorem Inv.ticks_order (hs : s.Inv) {ins : List (Heap D × ℕ)}
    {vs : List Slot} (h : s.ticks ins = .ok (s', seen)) (ho : s.order = vs ++ rest)
    (hlen : ins.length = vs.length) :
    seen = vs.map some ∧ s'.currentTask = vs.getLast?.or s.currentTask := by
  induction ins generalizing s seen vs rest with
  | nil =>
    cases h
    obtain rfl := eq_nil_of_length_eq_zero hlen.symm
    exact ⟨rfl, rfl⟩
  | cons i ins ih =>
    obtain ⟨heap, frame⟩ := i
    cases vs with
    | nil => cases hlen
    | cons v vs =>
      rw [ticks] at h
      rcases ht : { s with heap := heap }.schedTick frame with e | ⟨s₁, f⟩ <;> rw [ht] at h
      · cases h
      dsimp only at h
      rcases hrest : ticks ins s₁ with e | ⟨s2, seen'⟩ <;> rw [hrest] at h
      · cases h
      cases h
      have hs0 := hs.withHeap heap
      obtain ⟨hcur, -, horder⟩ := hs0.tick_order ht (ho.trans (cons_append))
      rw [append_assoc] at horder
      obtain ⟨hseen, hlast⟩ := ih (hs0.tick ht) hrest horder (Nat.succ.inj hlen)
      refine ⟨by rw [hcur, hseen, map_cons], ?_⟩
      rw [hlast, hcur, List.getLast?_cons]
      cases vs.getLast? <;> rfl

/-- Ticks keep the tasks, and a task that runs. -/
theorem Inv.ticks_keep (hs : s.Inv) {ins : List (Heap D × ℕ)}
    (h : s.ticks ins = .ok (s', seen)) (hrun : (s.tasks s.currentIndex).state = .running) :
    s'.Inv ∧ (s'.tasks s'.currentIndex).state = .running := by
  induction ins generalizing s seen with
  | nil =>
    cases h
    exact ⟨hs, hrun⟩
  | cons i ins ih =>
    obtain ⟨heap, frame⟩ := i
    rw [ticks] at h
    rcases ht : { s with heap := heap }.schedTick frame with e | ⟨s₁, f⟩ <;> rw [ht] at h
    · cases h
    dsimp only at h
    rcases hrest : ticks ins s₁ with e | ⟨s2, seen'⟩ <;> rw [hrest] at h
    · cases h
    cases h
    have hs0 := hs.withHeap heap
    exact ih (hs0.tick ht) hrest (hs0.ticked ht).running

theorem Inv.exists_ticks (hs : s.Inv) (ins : List (Heap D × ℕ))
    (hfirst : ∀ i ∈ ins.head?, (s.tasks s.currentIndex).state = .zombie →
      ∃ s2, { s with heap := i.1 }.destroyTask s.currentIndex = .ok s2) :
    ∃ s' seen, s.ticks ins = .ok (s', seen) := by
  induction ins generalizing s with
  | nil => exact ⟨s, [], rfl⟩
  | cons i ins ih =>
    obtain ⟨heap, frame⟩ := i
    have hs0 := hs.withHeap heap
    obtain ⟨s₁, f, ht⟩ := hs0.exists_tick frame (hfirst (heap, frame) rfl)
    have hrunning := (hs0.ticked ht).running
    obtain ⟨s', seen, hrest⟩ := ih (hs0.tick ht) fun i _ hz => by
      rw [hrunning] at hz
      cases hz
    exact ⟨s', s₁.currentTask :: seen, by rw [ticks, ht]; dsimp only; rw [hrest]⟩

/-! ## The end of a task -/

/-- A task is killed or exits: `sched_kill`, `sys_exit`, or the function of the task returns. -/
inductive Ends (s : Sched D) : Sched D → Prop where
  | kill {s' : Sched D} {id : ℕ} {r : ℤ} (h : s.schedKill id = .ok (s', r)) : Ends s s'
  | exit {s' : Sched D} {r : ℤ} (h : s.sysExit = .ok (s', r)) : Ends s s'
  /-- the boot thread is not started by the trampoline -/
  | returned (h : s.currentTask ≠ some 0) : Ends s s.taskTrampolineEnd

/-- The current task has exited. -/
theorem alive_setState_zombie (i : Slot) : (s.setState i .zombie).alive = s.alive.erase i := by
  ext j
  rw [Finset.mem_erase, mem_alive, mem_alive, setState]
  by_cases hj : j = i
  · subst hj
    simp
  · rw [setTask_tasks_of_ne _ _ hj]
    simp [hj]

theorem Destroyed.alive_eq (h : s.Destroyed s' i) : s'.alive = s.alive.erase i := by
  ext j
  rw [Finset.mem_erase, mem_alive, mem_alive]
  by_cases hj : j = i
  · subst hj
    simp [h.unused]
  · rw [h.other j hj]
    simp [hj]

theorem Inv.kill_alive (hs : s.Inv) {id : ℕ} {r : ℤ} (h : s.schedKill id = .ok (s', r)) :
    s'.Inv ∧ s'.currentIndex = s.currentIndex ∧
      (s'.alive = s.alive ∨ ∃ i, s'.alive = s.alive.erase i) := by
  refine ⟨hs.kill h, ?_⟩
  rcases schedKill_cases hs h with rfl | ⟨-, rfl⟩ | ⟨i, hu, -, -, hd⟩
  · exact ⟨rfl, Or.inl rfl⟩
  · exact ⟨rfl, Or.inr ⟨_, alive_setState_zombie _⟩⟩
  · have hdes := destroyTask_spec hu hd
    exact ⟨hdes.currentIndex, Or.inr ⟨i, hdes.alive_eq⟩⟩

/-- **The end of a task** takes at most this task out of the round; the index stays. -/
theorem Inv.ends (hs : s.Inv) (h : s.Ends s') : s'.Inv ∧ s'.currentIndex = s.currentIndex ∧
      (s'.alive = s.alive ∨ ∃ i, s'.alive = s.alive.erase i) := by
  cases h with
  | kill h => exact hs.kill_alive h
  | exit h => exact hs.kill_alive h
  | returned h =>
    rw [hs.current] at h
    rw [taskTrampolineEnd, hs.current]
    exact ⟨hs.exit fun h0 => h (congrArg some h0), rfl, Or.inr ⟨_, alive_setState_zombie _⟩⟩

end Sched

/-! ## Every state of the scheduler -/

variable {D : Type} [Disk D] {syms : TaskSymbols} {s : Sched D}

/-- The states reached from `sched_init`; between the calls heap and page tables may change at
will. -/
inductive SchedState (syms : TaskSymbols) : Sched D → Prop where
  | init (heap : Heap D) : SchedState syms (Sched.boot heap).schedInit
  | between {s : Sched D} (heap : Heap D) (h : SchedState syms s) :
      SchedState syms { s with heap := heap }
  | spawnNamed {s s' : Sched D} {name : Option String} {r : ℤ} (h : SchedState syms s)
      (hs : s.schedSpawnNamed syms name = .ok (s', r)) : SchedState syms s'
  | spawnUser {s s' : Sched D} {entry : ℕ} {name : String} {r : ℤ} (h : SchedState syms s)
      (hs : s.schedSpawnUser entry name = .ok (s', r)) : SchedState syms s'
  | spawnElf {s s' : Sched D} {path : String} {file : Option FileAnswer} {r : ℤ}
      (h : SchedState syms s) (hs : s.schedSpawnElf path file = .ok (s', r)) : SchedState syms s'
  | ends {s s' : Sched D} (h : SchedState syms s) (hs : s.Ends s') : SchedState syms s'
  | tick {s s' : Sched D} {frame f : ℕ} (h : SchedState syms s)
      (hs : s.schedTick frame = .ok (s', f)) : SchedState syms s'

theorem SchedState.inv (h : SchedState syms s) : s.Inv := by
  induction h with
  | init heap => exact Sched.inv_schedInit heap
  | between heap _ ih => exact ih.withHeap heap
  | spawnNamed _ hs ih => exact ih.spawn (Sched.schedSpawnNamed_spec hs)
  | spawnUser _ hs ih => exact ih.spawn (Sched.schedSpawnUser_spec hs)
  | spawnElf _ hs ih => exact ih.spawn (Sched.schedSpawnElf_cases hs).effect
  | ends _ hs ih => exact (ih.ends hs).1
  | tick _ hs ih => exact ih.tick hs

/-- The runs without programs from files. -/
theorem SchedReach.schedState {hist : List SchedEvent} (h : SchedReach syms hist s) :
    SchedState syms s := by
  induction h with
  | init heap => exact .init heap
  | between heap _ ih => exact ih.between heap
  | spawnNamed _ hs ih => exact ih.spawnNamed hs
  | spawnUser _ hs ih => exact ih.spawnUser hs
  | kill _ hs ih => exact ih.ends (.kill hs)
  | exit _ hs ih => exact ih.ends (.exit hs)
  | trampoline _ hs ih => exact ih.ends (.returned hs)
  | tick _ hs ih => exact ih.tick hs

/-- **Round robin.** As many ticks as there are tasks make each of them current once, in the order
of the slots behind the current one. If a task is killed or exits in between, the others follow in
this order too. -/
theorem sched_tick_round_robin {cur : Slot} (hr : SchedState syms s)
    (hcur : s.currentTask = some cur) (hrun : (s.tasks cur).state = .running) :
    (∀ ins : List (Heap D × ℕ), ins.length = s.used.card → ∃ s',
      s.ticks ins = .ok (s', ((behind 8 cur).filter (· ∈ s.used)).map some) ∧
      s'.currentTask = some cur) ∧
    ∀ (ins : List (Heap D × ℕ)) (s₁ s₂ : Sched D) (seen : List (Option Slot)),
      s.ticks ins = .ok (s₁, seen) → s₁.Ends s₂ → ∃ c, s₁.currentTask = some c ∧
      (s₂.alive = s₁.used ∨ ∃ i, s₂.alive = s₁.used.erase i) ∧
      ∀ ins' : List (Heap D × ℕ), ins'.length = s₂.alive.card →
        (∀ s₃ seen', s₂.ticks ins' = .ok (s₃, seen') →
          seen' = ((behind 8 c).filter (· ∈ s₂.alive)).map some) ∧
        ((∀ i ∈ ins'.head?, (s₂.tasks c).state = .zombie →
          ∃ s', { s₂ with heap := i.1 }.destroyTask c = .ok s') →
          ∃ s₃ seen', s₂.ticks ins' = .ok (s₃, seen')) := by
  have hs := hr.inv
  obtain rfl : s.currentIndex = cur := Option.some.inj (hs.current.symm.trans hcur)
  have halive := hs.alive_eq_used hrun
  constructor
  · intro ins hlen
    obtain ⟨s', seen, hticks⟩ := hs.exists_ticks ins fun i _ hz => by
      rw [hrun] at hz
      cases hz
    have hround : s.order = s.order ++ [] := (append_nil _).symm
    obtain ⟨hseen, hlast⟩ := hs.ticks_order hticks hround
      (by rw [hlen, Sched.length_order, halive])
    refine ⟨s', ?_, ?_⟩
    · rw [hticks, hseen, Sched.order, halive]
    · rw [hlast, Sched.getLast?_order (Sched.mem_alive.mpr (Or.inr hrun)), Option.some_or]
  · intro ins s₁ s₂ seen hticks hends
    obtain ⟨hs1, hrun1⟩ := hs.ticks_keep hticks hrun
    obtain ⟨hs2, hindex, hremain⟩ := hs1.ends hends
    rw [hs1.alive_eq_used hrun1] at hremain
    refine ⟨s₁.currentIndex, hs1.current, hremain, fun ins' hlen => ⟨?_, fun hfirst => ?_⟩⟩
    · intro s₃ seen' hticks'
      have hround : s₂.order = s₂.order ++ [] := (append_nil _).symm
      obtain ⟨hseen, -⟩ := hs2.ticks_order hticks' hround (by rw [hlen, Sched.length_order])
      rw [hseen, Sched.order, hindex]
    · rw [← hindex] at hfirst
      exact hs2.exists_ticks ins' hfirst

/-- Two tasks take turns. -/
theorem sched_tick_round_robin_two : ∃ (s : Sched DiskImage) (cur : Slot),
    SchedState ⟨1, 2, 3⟩ s ∧ s.currentTask = some cur ∧
    ∀ ins : List (Heap DiskImage × ℕ), ins.length = s.used.card → ∃ s',
      s.ticks ins = .ok (s', ((behind 8 cur).filter (· ∈ s.used)).map some) ∧
      s'.currentTask = some cur := by
  obtain ⟨s, s', hr, htick⟩ := exists_two_ticks
  have hstate := hr.schedState.tick htick
  have hcur := hstate.inv.current
  have hrun := (hr.schedState.inv.ticked htick).running
  exact ⟨s', s'.currentIndex, hstate, hcur, (sched_tick_round_robin hstate hcur hrun).1⟩

end PenOS
