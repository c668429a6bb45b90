import PenOS.TaskDirectory
import PenOS.TaskMemory

/-!
# Address spaces of tasks

In every run of the scheduler with frames at hand each entry in use has a stack and, if it is a user
task's, a directory of its own. `destroy_task` gives back every address space but the one loaded at
that moment.
-/

namespace PenOS

open List

variable {D : Type}
variable {f frame id pd stack : ℕ} {r : ℤ}

/-! ## The invariant -/

/-- The task table on top of heap and directories. -/
structure Tasks.SpaceInv (a : Tasks D) (boot : ℕ) (live : List ℕ) (allocs : List (ℕ × ℕ)) :
    Prop where
  table : a.sched.Inv
  homes : a.Homes boot
  mem : MemInv a.sched.heap boot live allocs
  stack_mem : ∀ i, i ≠ 0 → (a.sched.tasks i).state ≠ .unused →
    ((a.sched.tasks i).stack, stackSize) ∈ allocs
  stack_inj : ∀ i j, i ≠ 0 → j ≠ 0 → (a.sched.tasks i).state ≠ .unused →
    (a.sched.tasks j).state ≠ .unused → (a.sched.tasks i).stack = (a.sched.tasks j).stack → i = j
  pd_mem : ∀ i, (a.sched.tasks i).state ≠ .unused → (a.sched.tasks i).pageDirectoryPhys ≠ 0 →
    (a.sched.tasks i).pageDirectoryPhys ∈ live
  pd_inj : ∀ i j, (a.sched.tasks i).state ≠ .unused → (a.sched.tasks j).state ≠ .unused →
    (a.sched.tasks i).pageDirectoryPhys ≠ 0 →
    (a.sched.tasks i).pageDirectoryPhys = (a.sched.tasks j).pageDirectoryPhys → i = j

/-- No task has the allocation as its stack. -/
def Tasks.NotStack (a : Tasks D) (u : ℕ × ℕ) : Prop :=
  ∀ i : Slot, i.val ≠ 0 → (a.sched.tasks i).state ≠ .unused → (a.sched.tasks i).stack ≠ u.1

/-- The allocations that are not stacks are there afterwards, and still not stacks. -/
def Tasks.Spares (a b : Tasks D) (allocs allocs' : List (ℕ × ℕ)) : Prop :=
  ∀ u ∈ allocs, a.NotStack u → u ∈ allocs' ∧ b.NotStack u

theorem Tasks.Spares.refl (a : Tasks D) (allocs : List (ℕ × ℕ)) : a.Spares a allocs allocs :=
  fun _ hu hn => ⟨hu, hn⟩

theorem Tasks.Spares.sameTable {a : Tasks D} {s : Sched D} {home : Slot → ℕ}
    {allocs : List (ℕ × ℕ)} (h : a.sched.SameTable s) : a.Spares ⟨s, home⟩ allocs allocs :=
  fun _ hu hn => ⟨hu, fun i hi hs => by
    dsimp only at hs ⊢
    rw [h.tasks] at hs ⊢
    exact hn i hi hs⟩

theorem Tasks.Spares.placed {a : Tasks D} {s : Sched D} {home : Slot → ℕ}
    {allocs allocs' : List (ℕ × ℕ)} {h : Heap D} {i : Slot}
    (hp : a.sched.Placed s h i stack pd) (hfresh : ∀ u ∈ allocs, u.1 ≠ stack)
    (hallocs : ∀ u ∈ allocs, u ∈ allocs') : a.Spares ⟨s, home⟩ allocs allocs' :=
  fun u hu hn => ⟨hallocs u hu, fun j hj hs => by
    dsimp only at hs ⊢
    by_cases hji : j = i
    · subst hji
      rw [hp.stack_eq]
      exact (hfresh u hu).symm
    · rw [hp.installed.other j hji] at hs ⊢
      exact hn j hj hs⟩

theorem Tasks.Spares.survivors {a : Tasks D} {s : Sched D} {home : Slot → ℕ}
    {allocs allocs' : List (ℕ × ℕ)} (h : a.sched.Survivors s)
    (hallocs : ∀ u ∈ allocs, a.NotStack u → u ∈ allocs') : a.Spares ⟨s, home⟩ allocs allocs' :=
  fun u hu hn => ⟨hallocs u hu hn, fun i hi hs => by
    obtain ⟨hused, hstack, -⟩ := h i hs
    dsimp only
    rw [hstack]
    exact hn i hi hused⟩

namespace Tasks.SpaceInv

variable {a : Tasks D} {s : Sched D} {boot : ℕ} {live live' : List ℕ}
  {allocs allocs' : List (ℕ × ℕ)} {i : Slot}

section

variable (ha : a.SpaceInv boot live allocs)

include ha

theorem pd_ne_boot (hi : i ≠ 0)
    (hu : (a.sched.tasks i).state ≠ .unused) : (a.sched.tasks i).pageDirectoryPhys ≠ boot := by
  intro heq
  have h0 : boot ≠ 0 := (ha.mem.dir_taken ha.mem.boot_mem).2
  exact hi (ha.pd_inj i 0 hu ha.table.main_used (heq ▸ h0) (heq.trans ha.homes.main.symm))

theorem survivors (h : a.sched.Survivors s) (hs : s.Inv) (hmem : MemInv s.heap boot live' allocs')
    (hstack : ∀ j, j ≠ 0 → (s.tasks j).state ≠ .unused →
      ((a.sched.tasks j).stack, stackSize) ∈ allocs')
    (hpd : ∀ j, (s.tasks j).state ≠ .unused → (a.sched.tasks j).pageDirectoryPhys ≠ 0 →
      (a.sched.tasks j).pageDirectoryPhys ∈ live') :
    { a with sched := s }.SpaceInv boot live' allocs' where
  table := hs
  homes := ha.homes.survivors h hs.main_used
  mem := hmem
  stack_mem j hj hu := by
    rw [(h j hu).2.1]
    exact hstack j hj hu
  stack_inj j k hj hk huj huk heq := by
    rw [(h j huj).2.1, (h k huk).2.1] at heq
    exact ha.stack_inj j k hj hk (h j huj).1 (h k huk).1 heq
  pd_mem j hu hne := by
    rw [(h j hu).2.2] at hne ⊢
    exact hpd j hu hne
  pd_inj j k huj huk hne heq := by
    rw [(h j huj).2.2] at hne
    rw [(h j huj).2.2, (h k huk).2.2] at heq
    exact ha.pd_inj j k (h j huj).1 (h k huk).1 hne heq

theorem withHeap {h : Heap D} (hmem : MemInv h boot live allocs')
    (hstack : ∀ j, j ≠ 0 → (a.sched.tasks j).state ≠ .unused →
      ((a.sched.tasks j).stack, stackSize) ∈ allocs') :
    { a with sched := { a.sched with heap := h } }.SpaceInv boot live allocs' :=
  ha.survivors (.of_tasks rfl) (ha.table.sameTable ⟨rfl, rfl, rfl, rfl, rfl⟩) hmem hstack
    fun j hu => ha.pd_mem j hu

/-! ## Destroying a task -/

/-- **`destroy_task`**: the others keep stacks and directories, and the address space is given back
if and only if it is not loaded. -/
theorem destroyTask (hu : (a.sched.tasks i).state ≠ .unused)
    (hi : i ≠ 0) (hrun : a.sched.destroyTask i = .ok s) :
    ∃ live' allocs', MemInv s.heap boot live' allocs' ∧
      (∀ j, j ≠ i → (a.sched.tasks j).state ≠ .unused →
        (j ≠ 0 → ((a.sched.tasks j).stack, stackSize) ∈ allocs') ∧
        ((a.sched.tasks j).pageDirectoryPhys ≠ 0 → (a.sched.tasks j).pageDirectoryPhys ∈ live')) ∧
      (∀ u ∈ allocs, a.NotStack u → u ∈ allocs') ∧ ((a.sched.tasks i).pageDirectoryPhys ≠ 0 →
        ((∀ x ∈ a.sched.heap.paging.spaceFrames (a.sched.tasks i).pageDirectoryPhys,
          x / 4096 ∈ s.heap.paging.pmm.freeSet) ↔
        a.sched.heap.paging.currentPd ≠ (a.sched.tasks i).pageDirectoryPhys)) := by
  obtain ⟨heap, hfree, hheap⟩ := Sched.destroyTask_heap hu hrun
  obtain ⟨hmem, hkept, -⟩ := ha.mem.kfree (ha.stack_mem i hi hu) hfree
  have hcur := hkept.currentPd
  have hstacks : ∀ j, j ≠ i → (a.sched.tasks j).state ≠ .unused → j ≠ 0 →
      ((a.sched.tasks j).stack, stackSize) ∈ allocs.erase ((a.sched.tasks i).stack, stackSize) := by
    intro j hj huj h0
    refine (mem_erase_of_ne fun heq => hj ?_).mpr (ha.stack_mem j h0 huj)
    exact ha.stack_inj j i h0 hi huj hu (Prod.mk.inj heq).1
  have hspared : ∀ u ∈ allocs, a.NotStack u →
      u ∈ allocs.erase ((a.sched.tasks i).stack, stackSize) := fun u hmem hn =>
    (mem_erase_of_ne fun heq =>
      hn i (Fin.val_ne_zero_iff.mpr hi) hu (congrArg Prod.fst heq).symm).mpr hmem
  rw [hheap, Heap.dropDirectory]
  split_ifs with hdrop
  · -- another directory is loaded: this one goes
    obtain ⟨h0, hne⟩ := hdrop
    have hpd := ha.pd_mem i hu h0
    obtain ⟨hmem', hspace⟩ := hmem.destroy hpd (ha.pd_ne_boot hi hu) hne
    refine ⟨_, _, hmem', fun j hj huj => ⟨hstacks j hj huj, fun hj0 => ?_⟩, hspared, fun _ => ?_⟩
    · exact (mem_erase_of_ne fun heq => hj (ha.pd_inj j i huj hu hj0 heq)).mpr
        (ha.pd_mem j huj hj0)
    · exact iff_of_true (fun x hx => hspace x ((hkept.mem_spaceFrames hpd).mpr hx))
        fun heq => hne (heq.symm.trans hcur.symm)
  · refine ⟨_, _, hmem, fun j hj huj => ⟨hstacks j hj huj, ha.pd_mem j huj⟩, hspared,
      fun h0 => ?_⟩
    -- the loaded directory stays allocated
    have hloaded : (a.sched.tasks i).pageDirectoryPhys = a.sched.heap.paging.currentPd :=
      (not_not.mp fun hne => hdrop ⟨h0, hne⟩).trans hcur
    refine iff_of_false (fun hall => ?_) fun hne => hne hloaded.symm
    exact (hmem.dir_taken (ha.pd_mem i hu h0)).1.2.2
      (hall _ (Paging.mem_spaceFrames.mpr (.inl rfl)))

/-- **`sched_kill`**. -/
theorem kill (hrun : a.sched.schedKill id = .ok (s, r)) :
    ∃ live' allocs', { a with sched := s }.SpaceInv boot live' allocs' ∧
      a.Spares { a with sched := s } allocs allocs' := by
  have hsurv := ha.table.survivors_kill hrun
  have hs := ha.table.kill hrun
  rcases Sched.schedKill_cases ha.table hrun with rfl | ⟨-, rfl⟩ | ⟨i, hu, hi, -, hd⟩
  · exact ⟨live, allocs, ha, .refl _ _⟩
  · exact ⟨live, allocs, ha.survivors hsurv hs ha.mem
      (fun j hj hu => ha.stack_mem j hj (hsurv j hu).1) (fun j hu => ha.pd_mem j (hsurv j hu).1),
      .survivors hsurv fun _ hu _ => hu⟩
  · obtain ⟨live', allocs', hmem, hothers, hspared, -⟩ := ha.destroyTask hu hi hd
    have hne : ∀ j, (s.tasks j).state ≠ .unused → j ≠ i := by
      rintro j hj rfl
      exact hj (Sched.destroyTask_spec hu hd).unused
    exact ⟨live', allocs', ha.survivors hsurv hs hmem
      (fun j hj hu => (hothers j (hne j hu) (hsurv j hu).1).1 hj)
      (fun j hu => (hothers j (hne j hu) (hsurv j hu).1).2), .survivors hsurv hspared⟩

/-- **`sched_tick`**. -/
theorem tick (hrun : a.sched.schedTick frame = .ok (s, f)) :
    ∃ live' allocs', { a with sched := s }.SpaceInv boot live' allocs' ∧
      a.Spares { a with sched := s } allocs allocs' := by
  have hsurv := ha.table.survivors_tick hrun
  have hs := ha.table.tick hrun
  rcases ha.table.tick_cases hrun with ⟨-, -, -, rfl⟩ | ⟨s1, k, hret, hk, hsw⟩
  · exact ⟨live, allocs, ha.survivors hsurv hs ha.mem
      (fun j hj hu => ha.stack_mem j hj (hsurv j hu).1) (fun j hu => ha.pd_mem j (hsurv j hu).1),
      .survivors hsurv fun _ hu _ => hu⟩
  have hpaused := ha.table.retireCurrent hret
  have hsurv1 := ha.table.survivors_paused hpaused
  -- what the tasks left need, after the first half
  obtain ⟨live', allocs', hmem, hspared, hothers⟩ : ∃ live' allocs',
      MemInv s1.heap boot live' allocs' ∧ (∀ u ∈ allocs, a.NotStack u → u ∈ allocs') ∧
      ∀ j, (s1.tasks j).state ≠ .unused →
        (j ≠ 0 → ((a.sched.tasks j).stack, stackSize) ∈ allocs') ∧
        ((a.sched.tasks j).pageDirectoryPhys ≠ 0 →
          (a.sched.tasks j).pageDirectoryPhys ∈ live') := by
    rcases ha.table.retireCurrent_heap hret with ⟨-, hheap⟩ | ⟨hz, s2, hd, hheap⟩
    · exact ⟨live, allocs, hheap ▸ ha.mem, fun _ hu _ => hu, fun j hu =>
        ⟨fun hj => ha.stack_mem j hj (hsurv1 j hu).1, ha.pd_mem j (hsurv1 j hu).1⟩⟩
    · obtain ⟨live', allocs', hmem, hothers, hspared, -⟩ :=
        ha.destroyTask ha.table.current_used (ha.table.zombie_ne_main hz) hd
      refine ⟨live', allocs', hheap ▸ hmem, hspared, fun j hu => hothers j ?_ (hsurv1 j hu).1⟩
      rintro rfl
      exact hu (hpaused.gone hz)
  have hku : (s1.tasks k).state ≠ .unused := by
    rw [hk]
    decide
  have hused : ∀ j, (s.tasks j).state ≠ .unused → (s1.tasks j).state ≠ .unused := fun j hu =>
    (Sched.survivors_switchTo hsw hku j hu).1
  -- the second half may load the directory of the new task
  have hmem' : MemInv s.heap boot live' allocs' := by
    rw [Sched.switchTo_heap hsw]
    split_ifs with h0
    · refine hmem.switch ?_
      rw [(hsurv1 k hku).2.2] at h0 ⊢
      exact (hothers k hku).2 h0
    · exact hmem
  exact ⟨live', allocs', ha.survivors hsurv hs hmem'
    (fun j hj hu => (hothers j (hused j hu)).1 hj) (fun j hu => (hothers j (hused j hu)).2),
    .survivors hsurv hspared⟩

theorem exit (hcur : a.sched.currentIndex ≠ 0) :
    { a with sched := a.sched.setState a.sched.currentIndex .zombie }.SpaceInv boot
    live allocs := by
  have hsurv : a.sched.Survivors (a.sched.setState a.sched.currentIndex .zombie) :=
    Sched.survivors_setTask ha.table.current_used rfl rfl
  exact ha.survivors hsurv (ha.table.exit hcur) ha.mem
    (fun j hj hu => ha.stack_mem j hj (hsurv j hu).1) fun j hu => ha.pd_mem j (hsurv j hu).1

/-! ## Spawning a task -/

theorem sameTable {home : Slot → ℕ} (h : a.sched.SameTable s)
    (hhomes : Tasks.Homes ⟨s, home⟩ boot) (hmem : MemInv s.heap boot live allocs) :
    Tasks.SpaceInv ⟨s, home⟩ boot live allocs := by
  obtain ⟨htable, -, -, h4, h5, h6, h7⟩ := ha
  rw [← h.tasks] at h4 h5 h6 h7
  exact ⟨htable.sameTable h, hhomes, hmem, h4, h5, h6, h7⟩

theorem placed {home : Slot → ℕ} {h : Heap D}
    (hp : a.sched.Placed s h i stack pd) (hhomes : Tasks.Homes ⟨s, home⟩ boot)
    (hmem : MemInv h boot live' allocs') (hstack : (stack, stackSize) ∈ allocs')
    (hfresh : ∀ u ∈ allocs, u.1 ≠ stack) (hallocs : ∀ u ∈ allocs, u ∈ allocs')
    (hpd : pd ≠ 0 → pd ∈ live' ∧ pd ∉ live) (hlive : ∀ d ∈ live, d ∈ live') :
    Tasks.SpaceInv ⟨s, home⟩ boot live' allocs' := by
  have hi := hp.installed
  have hold : ∀ j, j ≠ i → (s.tasks j).state ≠ .unused → (a.sched.tasks j).state ≠ .unused ∧
      s.tasks j = a.sched.tasks j := fun j hj hu => by
    rw [hi.other j hj] at hu
    exact ⟨hu, hi.other j hj⟩
  obtain ⟨f, hheap⟩ := hp.heap_eq
  refine ⟨ha.table.install hi, hhomes, ?_, fun j hj hu => ?_, fun j k hj hk huj huk heq => ?_,
    fun j hu hne => ?_, fun j k huj huk hne heq => ?_⟩
  · rw [hheap]
    exact hmem.writeFrame hstack f
  · by_cases hji : j = i
    · subst hji
      rw [hp.stack_eq]
      exact hstack
    · obtain ⟨hu0, hsame⟩ := hold j hji hu
      rw [hsame]
      exact hallocs _ (ha.stack_mem j hj hu0)
  · -- the stack of the new task is none of the others
    have hother : ∀ k, k ≠ 0 → k ≠ i → (s.tasks k).state ≠ .unused →
        (s.tasks k).stack ≠ stack := fun k hk hki hu => by
      obtain ⟨hu0, hsame⟩ := hold k hki hu
      rw [hsame]
      exact hfresh _ (ha.stack_mem k hk hu0)
    by_cases hji : j = i <;> by_cases hki : k = i
    · exact hji.trans hki.symm
    · subst hji
      exact absurd (heq.symm.trans hp.stack_eq) (hother k hk hki huk)
    · subst hki
      exact absurd (heq.trans hp.stack_eq) (hother j hj hji huj)
    · obtain ⟨huj0, hj'⟩ := hold j hji huj
      obtain ⟨huk0, hk'⟩ := hold k hki huk
      rw [hj', hk'] at heq
      exact ha.stack_inj j k hj hk huj0 huk0 heq
  · by_cases hji : j = i
    · subst hji
      rw [hp.pd_eq] at hne ⊢
      exact (hpd hne).1
    · obtain ⟨hu0, hsame⟩ := hold j hji hu
      rw [hsame] at hne ⊢
      exact hlive _ (ha.pd_mem j hu0 hne)
  · have hother : ∀ k, k ≠ i → (s.tasks k).state ≠ .unused →
        (s.tasks k).pageDirectoryPhys ≠ 0 → (s.tasks k).pageDirectoryPhys ≠ pd :=
      fun k hki hu h0 hkpd => by
      obtain ⟨hu0, hsame⟩ := hold k hki hu
      rw [hsame] at h0 hkpd
      exact (hpd (hkpd ▸ h0)).2 (hkpd ▸ ha.pd_mem k hu0 h0)
    by_cases hji : j = i <;> by_cases hki : k = i
    · exact hji.trans hki.symm
    · subst hji
      exact absurd (heq.symm.trans hp.pd_eq) (hother k hki huk (heq ▸ hne))
    · subst hki
      exact absurd (heq.trans hp.pd_eq) (hother j hji huj hne)
    · obtain ⟨huj0, hj'⟩ := hold j hji huj
      obtain ⟨huk0, hk'⟩ := hold k hki huk
      rw [hj'] at hne
      rw [hj', hk'] at heq
      exact ha.pd_inj j k huj0 huk0 hne heq

end

variable [Disk D] {home : Slot → ℕ}

/-- **`sched_spawn_named`**, with frames at hand. -/
theorem spawnTask (ha : a.SpaceInv boot live allocs) (hplenty : a.sched.heap.paging.Plenty 3)
    (h : a.sched.SpawnedTask s) (hhomes : Tasks.Homes ⟨s, home⟩ boot) :
    ∃ live' allocs', Tasks.SpaceInv ⟨s, home⟩ boot live' allocs' ∧
      a.Spares ⟨s, home⟩ allocs allocs' := by
  cases h with
  | full => exact ⟨live, allocs, ha.sameTable (.refl _) hhomes ha.mem, .sameTable (.refl _)⟩
  | noStack hsame hk =>
    have hmem := (ha.mem.kmalloc (by decide) (.inr hplenty) hk).1
    exact ⟨live, allocs, ha.sameTable hsame hhomes hmem, .sameTable hsame⟩
  | started hk hstack hp =>
    have hmem := (ha.mem.kmalloc (by decide) (.inr hplenty) hk).1
    rw [if_neg hstack] at hmem
    exact ⟨live, _, ha.placed hp hhomes hmem mem_cons_self hmem.alloc_fresh
      (fun u hu => mem_cons_of_mem _ hu) (fun h0 => absurd rfl h0) (fun d hd => hd),
      .placed hp hmem.alloc_fresh fun u hu => mem_cons_of_mem _ hu⟩

/-- **`sched_spawn_user`**, with frames at hand: whichever way it ends. -/
theorem spawnUser (ha : a.SpaceInv boot live allocs) (hplenty : a.sched.heap.paging.Plenty 7)
    {entry : ℕ} (hentry : entry < 4294967296) (h : a.sched.SpawnedUser entry s)
    (hhomes : Tasks.Homes ⟨s, home⟩ boot) :
    ∃ live' allocs', Tasks.SpaceInv ⟨s, home⟩ boot live' allocs' ∧
      a.Spares ⟨s, home⟩ allocs allocs' := by
  cases h with
  | full => exact ⟨live, allocs, ha.sameTable (.refl _) hhomes ha.mem, .sameTable (.refl _)⟩
  | noDirectory _ hcreate =>
    -- a directory is never at address 0
    obtain ⟨-, hmem, -⟩ := ha.mem.create hplenty hcreate
    exact absurd rfl (hmem.dir_taken mem_cons_self).2
  | noKernelStack hsame hcreate hpd hk heap =>
    obtain ⟨hnew, hmem, hplenty1, hcur, -⟩ := ha.mem.create hplenty hcreate
    obtain ⟨hmem1, hkept, -⟩ := hmem.kmalloc (by decide) (.inr (hplenty1.mono (by decide))) hk
    have hdestroyed := (hmem1.destroy mem_cons_self
      (fun heq => hnew (heq ▸ ha.mem.boot_mem))
      fun heq => hnew (by rw [heq, hkept.currentPd]; exact hcur ▸ ha.mem.current)).1
    rw [if_pos rfl, erase_cons_head] at hdestroyed
    exact ⟨live, allocs, ha.sameTable hsame hhomes (heap ▸ hdestroyed), .sameTable hsame⟩
  | noUserStack hsame hcreate hpd hk hkstack hu hfree heap =>
    obtain ⟨hnew, hmem, hplenty1, hcur, -⟩ := ha.mem.create hplenty hcreate
    obtain ⟨hmem1, hkept1, -, hplenty2⟩ :=
      hmem.kmalloc (by decide) (.inr (hplenty1.mono (by decide))) hk
    rw [if_neg hkstack] at hmem1
    obtain ⟨hmem2, hkept2, -⟩ := hmem1.kmalloc (by decide) (.inr (hplenty2 3 hplenty1)) hu
    rw [if_pos rfl] at hmem2
    obtain ⟨hmem3, hkept3, -⟩ := hmem2.kfree mem_cons_self hfree
    rw [erase_cons_head] at hmem3
    have hstay := hkept3.currentPd.trans (hkept2.currentPd.trans (hkept1.currentPd.trans hcur))
    have hdestroyed := (hmem3.destroy mem_cons_self
      (fun heq => hnew (heq ▸ ha.mem.boot_mem))
      fun heq => hnew (by rw [heq, hstay]; exact ha.mem.current)).1
    rw [erase_cons_head] at hdestroyed
    exact ⟨live, allocs, ha.sameTable hsame hhomes (heap ▸ hdestroyed), .sameTable hsame⟩
  | started hcreate hpd hk hkstack hu hustack hmap hp =>
    obtain ⟨hnew, hmem, hplenty1, hcur, -, hrec⟩ := ha.mem.create hplenty hcreate
    obtain ⟨hmem1, hkept1, -, hplenty2⟩ :=
      hmem.kmalloc (by decide) (.inr (hplenty1.mono (by decide))) hk
    rw [if_neg hkstack] at hmem1
    obtain ⟨hmem2, hkept2, -⟩ := hmem1.kmalloc (by decide) (.inr (hplenty2 3 hplenty1)) hu
    rw [if_neg hustack] at hmem2
    -- in the new directory the stack and the entry point are made User pages
    have hrec2 := (hkept1.trans hkept2).entry_user _ mem_cons_self 1023 (by decide)
      (.inr rfl)
    have hlayout := heap_layout
    obtain ⟨-, hustack_lt, hend_le⟩ := hmem2.alloc_range mem_cons_self
    have hmem3 := hmem2.mapUserPages mem_cons_self (by rw [hrec2]; exact hrec) (by omega)
      hentry hmap
    have hallocs : ∀ v w : ℕ × ℕ, ∀ u ∈ allocs, u ∈ v :: w :: allocs := fun v w u hu =>
      mem_cons_of_mem _ (mem_cons_of_mem _ hu)
    exact ⟨_, _, ha.placed hp hhomes hmem3 (mem_cons_of_mem _ mem_cons_self)
      hmem1.alloc_fresh (hallocs _ _) (fun _ => ⟨mem_cons_self, hnew⟩)
      (fun d hd => mem_cons_of_mem _ hd), .placed hp hmem1.alloc_fresh (hallocs _ _)⟩

end Tasks.SpaceInv

/-! ## Runs -/

variable [Disk D] {h : Heap D} {a b : Tasks D} {boot : ℕ} {live : List ℕ}
  {allocs : List (ℕ × ℕ)} {syms : TaskSymbols}

omit [Disk D] in
/-- A directory with the identity region and the image at most: no page in the rest of the
user half and none in the heap window. -/
structure Paging.BootSpace (s : Paging D) : Prop extends OneDirectory s where
  user : ∀ i, 4 ≤ i → i < 768 → ∀ j < 1024, s.pte s.currentPd i j % 2 ≠ 1
  window : ∀ i, 772 ≤ i → i < 776 → ∀ j < 1024, s.pte s.currentPd i j % 2 ≠ 1
  hand : s.evictPdIdx < 768

omit [Disk D] in
theorem Paging.BootSpace.pageInv {s : Paging D} (hs : s.BootSpace) :
    ∃ own, s.PageInv s.currentPd [s.currentPd] own := by
  obtain ⟨own, hinv⟩ := hs.toOneDirectory.exists_own
  refine ⟨own, hinv, fun d hd i hi j hj he hp => absurd hp ?_⟩
  obtain rfl := mem_singleton.mp hd
  rcases he with ⟨hlo, hne | hi4⟩ | ⟨hlo, hhi⟩
  · exact absurd rfl hne
  · exact hs.user i hi4 hlo j hj
  · exact hs.window i hlo hhi j hj

/-- **`paging_init` ends in such a space**, when `pmm_init` has made the free set. -/
theorem Paging.bootSpace_of_pagingInit {fuel kernelEnd : ℕ} {mbInfo : Option MultibootInfo}
    {pmm : Pmm} {mem : Mem} {disk : D} {syms : LinkerSymbols} {s : Paging D}
    (hpmm : pmmInit fuel kernelEnd mbInfo = some pmm) (hsyms : LinkerSymbols.Placed syms)
    (hrun : (Paging.boot pmm mem disk).pagingInit syms = .ok s) : s.BootSpace := by
  have hstart := pagingInit_started (pmmInit_inv hpmm) rfl hsyms hrun
  obtain ⟨own, hinv⟩ := hstart.inv
  refine ⟨hinv.oneDirectory (mem_singleton_self _), fun i hlo hi j hj => ?_,
    fun i hlo hi j hj hp => ?_, hstart.hand.1.trans_lt (show 0 < 768 by decide)⟩
  · rw [hstart.unmapped i hi j hj (by omega)]
    decide
  · -- the tables of the image are the first four of the kernel half
    have htable := hstart.tables i (by omega) (by omega) (entry_of_pte hp)
    omega

/-- The heap at `sched_init`: in the boot directory, after any number of heap calls. -/
def KernelStart (h : Heap D) : Prop :=
  ∃ h₀ allocs, h₀.paging.BootSpace ∧ HeapRun Unevicted h₀ allocs h

theorem HeapRun.memInv {h0 : Heap D} (hboot : h0.paging.BootSpace)
    (hr : HeapRun Unevicted h0 allocs h) : h.paging.currentPd = h0.paging.currentPd ∧
      MemInv h h0.paging.currentPd [h0.paging.currentPd] allocs := by
  have hmem := mem_singleton_self h0.paging.currentPd
  induction hr with
  | init =>
    exact ⟨rfl, (HeapReach.init h0).state, hboot.pageInv, nodup_singleton _, hboot.hand, hmem,
      hmem⟩
  | malloc _ hwant hsup hrun ih =>
    obtain ⟨hm, hkept, -⟩ := ih.2.kmalloc hwant hsup hrun
    exact ⟨hkept.currentPd.trans ih.1, hm⟩
  | freeNull _ hrun ih =>
    cases hrun
    exact ih
  | free _ hu hrun ih =>
    obtain ⟨hm, hkept, -⟩ := ih.2.kfree hu hrun
    exact ⟨hkept.currentPd.trans ih.1, hm⟩
  | client bytes _ hbytes ih =>
    obtain ⟨cs, hs⟩ := ih.2.blocks
    exact ⟨ih.1, ⟨cs, hs.client hbytes⟩, ih.2.pages, ih.2.nodup, ih.2.hand, ih.2.boot_mem,
      ih.2.current⟩

/-- Between two calls of the scheduler tasks write to their stacks, and pages of processes are
touched, written, and fetched on a fault. -/
inductive UserEvent (boot : ℕ) (s : Sched D) : Heap D → Prop where
  | clients (m : RecMem) (hm : HeadersKept s.heap m) :
      UserEvent boot s { s.heap with window := m }
  | fault {cr2 errCode : ℕ} {p : Paging D} (hdir : s.heap.paging.currentPd ≠ boot)
      (hcr2 : cr2 < kernelVirtBase) (h : s.heap.paging.pageFaultHandler cr2 errCode = .ok p) :
      UserEvent boot s { s.heap with paging := p }
  | touch {i j : ℕ} (dirty : Bool) (hdir : s.heap.paging.currentPd ≠ boot) (hi : i < 768)
      (hj : j < 1024) (hp : s.heap.paging.pte s.heap.paging.currentPd i j % 2 = 1) :
      UserEvent boot s { s.heap with paging := s.heap.paging.touch i j dirty }
  | write {i j k : ℕ} (b : UInt8) (hdir : s.heap.paging.currentPd ≠ boot) (hi : i < 768)
      (hj : j < 1024) (hk : k < 4096)
      (hp : s.heap.paging.pte s.heap.paging.currentPd i j % 2 = 1) :
      UserEvent boot s { s.heap with paging := s.heap.paging.writeByte i j k b }

/-- Tasks are spawned with frames at hand for a directory and two stacks. -/
def Supplied (D : Type) [Disk D] (boot : ℕ) : Conduct D where
  spawn s := s.heap.paging.Plenty 7
  tick _ := True
  between := UserEvent boot

theorem MemInv.userEvent {s : Sched D} (hm : MemInv s.heap boot live allocs)
    (he : UserEvent boot s h) : MemInv h boot live allocs := by
  obtain ⟨own, hp⟩ := hm.pages
  cases he with
  | clients m hkept => exact hm.window hkept
  | fault hdir hcr2 hrun =>
    have hbase := kernelVirtBase_eq
    obtain ⟨own', hp', hcur, hhand⟩ :=
      hp.pageFault_ok hm.current hm.hand (.inl hdir) (by omega) hrun
    exact hm.withPaging ⟨own', hp'⟩ hhand (by rw [hcur]; exact hm.current)
  | touch dirty hdir hi hj hpte =>
    exact hm.withPaging ⟨own, hp.touch hm.current dirty hi hj hpte⟩ hm.hand hm.current
  | write b hdir hi hj hk hpte =>
    exact hm.withPaging ⟨own, hp.writeByte hm.current hdir b hi hj hk hpte⟩ hm.hand hm.current

/-- **One call** keeps tasks, heap and directories together. -/
theorem Tasks.SpaceInv.step (ha : a.SpaceInv boot live allocs)
    (h : TaskStep (Supplied D boot) syms boot a b) :
    ∃ live' allocs', b.SpaceInv boot live' allocs' ∧ a.Spares b allocs allocs' := by
  have hhomes := h.homes ha.table ha.homes
  cases h with
  | between heap hc =>
    exact ⟨live, allocs, ha.sameTable ⟨rfl, rfl, rfl, rfl, rfl⟩ hhomes (ha.mem.userEvent hc),
      .refl a allocs⟩
  | spawnNamed hc hrun =>
    exact ha.spawnTask (Paging.Plenty.mono hc (by decide)) (Sched.schedSpawnNamed_cases hrun) hhomes
  | spawnUser hc hentry hrun =>
    exact ha.spawnUser hc hentry (Sched.schedSpawnUser_cases hrun) hhomes
  | kill hrun => exact ha.kill hrun
  | exit hrun => exact ha.kill hrun
  | trampoline hcur =>
    rw [ha.table.current] at hcur
    rw [Sched.taskTrampolineEnd, ha.table.current]
    exact ⟨live, allocs, ha.exit fun h0 => hcur (congrArg some h0),
      .survivors (Sched.survivors_setTask ha.table.current_used rfl rfl) fun _ hu _ => hu⟩
  | tick _ hrun => exact ha.tick hrun

omit [Disk D] in
theorem Sched.eq_main_of_used {i : Slot} (hu : ((Sched.boot h).schedInit.tasks i).state ≠ .unused) :
    i = 0 := by
  by_contra hi
  exact hu (by simp [schedInit, hi, Task.zero])

theorem Tasks.SpaceInv.start (hmem : MemInv h h.paging.currentPd [h.paging.currentPd] allocs) :
    Tasks.SpaceInv ⟨(Sched.boot h).schedInit, fun _ => h.paging.currentPd⟩ h.paging.currentPd
      [h.paging.currentPd] allocs := by
  have hrun : TaskRun (Supplied D h.paging.currentPd) ⟨0, 0, 0⟩ h
    ⟨(Sched.boot h).schedInit, fun _ => h.paging.currentPd⟩ := .refl
  refine ⟨Sched.inv_schedInit h, hrun.homes, hmem,
    fun i hi hu => absurd (Sched.eq_main_of_used hu) hi,
    fun i j hi _ hu => absurd (Sched.eq_main_of_used hu) hi, fun i hu _ => ?_,
    fun i j hi hj _ _ => (Sched.eq_main_of_used hi).trans (Sched.eq_main_of_used hj).symm⟩
  obtain rfl := Sched.eq_main_of_used hu
  exact mem_singleton_self _

theorem TaskRun.spaceInv (hstart : KernelStart h)
    (hrun : TaskRun (Supplied D h.paging.currentPd) syms h a) :
    ∃ live allocs, a.SpaceInv h.paging.currentPd live allocs := by
  obtain ⟨h0, allocs, hboot, hheap⟩ := hstart
  obtain ⟨hcur, hmem⟩ := hheap.memInv hboot
  rw [← hcur] at hmem
  induction hrun with
  | refl => exact ⟨_, allocs, .start hmem⟩
  | tail _ hstep ih =>
    obtain ⟨live, allocs, ha⟩ := ih
    obtain ⟨live', allocs', hb, -⟩ := ha.step hstep
    exact ⟨live', allocs', hb⟩

/-- **The loaded directory is never a freed one**: in every run it is an allocated frame, and so is
that of every task; no two tasks share one. -/
theorem loaded_directory_taken (hstart : KernelStart h)
    (hrun : TaskRun (Supplied D h.paging.currentPd) syms h a) :
    a.sched.heap.paging.pmm.Taken (a.sched.heap.paging.currentPd / 4096) ∧
    (∀ i, (a.sched.tasks i).state ≠ .unused → (a.sched.tasks i).pageDirectoryPhys ≠ 0 →
      a.sched.heap.paging.pmm.Taken ((a.sched.tasks i).pageDirectoryPhys / 4096)) ∧
    ∀ i j, (a.sched.tasks i).state ≠ .unused → (a.sched.tasks j).state ≠ .unused → i ≠ j →
      (a.sched.tasks i).pageDirectoryPhys ≠ 0 →
      (a.sched.tasks i).pageDirectoryPhys ≠ (a.sched.tasks j).pageDirectoryPhys := by
  obtain ⟨live, allocs, ha⟩ := hrun.spaceInv hstart
  exact ⟨(ha.mem.dir_taken ha.mem.current).1,
    fun i hu h0 => (ha.mem.dir_taken (ha.pd_mem i hu h0)).1,
    fun i j hui huj hij h0 heq => hij (ha.pd_inj i j hui huj h0 heq)⟩

/-! ## What a dead task leaves behind -/

/-- The frames of the task's address space are free. -/
def Returned (a b : Tasks D) (i : Slot) : Prop :=
  ∀ x ∈ a.sched.heap.paging.spaceFrames (a.sched.tasks i).pageDirectoryPhys,
    x / 4096 ∈ b.sched.heap.paging.pmm.freeSet

omit [Disk D] in
/-- **`sched_kill`** of a user task. -/
theorem Tasks.SpaceInv.returned_kill (ha : a.SpaceInv boot live allocs)
    {s : Sched D} {i : Slot} (hrun : a.sched.schedKill id = .ok (s, r))
    (hu : (a.sched.tasks i).state ≠ .unused) (h0 : (a.sched.tasks i).pageDirectoryPhys ≠ 0)
    (hdead : (s.tasks i).state = .unused) : Returned a { a with sched := s } i ↔
      a.sched.heap.paging.currentPd ≠ (a.sched.tasks i).pageDirectoryPhys := by
  obtain ⟨hi, hd⟩ := ha.table.destroyed_of_kill hrun hu hdead
  obtain ⟨-, -, -, -, -, hiff⟩ := ha.destroyTask hu hi hd
  exact hiff h0

omit [Disk D] in
/-- **`sched_tick`** after a user task has exited. -/
theorem Tasks.SpaceInv.returned_tick (ha : a.SpaceInv boot live allocs)
    {s : Sched D} {i : Slot} (hrun : a.sched.schedTick frame = .ok (s, f))
    (hu : (a.sched.tasks i).state ≠ .unused) (h0 : (a.sched.tasks i).pageDirectoryPhys ≠ 0)
    (hdead : (s.tasks i).state = .unused) : Returned a { a with sched := s } i ↔
      a.sched.heap.paging.currentPd ≠ (a.sched.tasks i).pageDirectoryPhys := by
  rcases ha.table.tick_cases hrun with ⟨-, -, -, rfl⟩ | ⟨s1, k, hret, hk, hsw⟩
  · by_cases hi : i = 0
    · subst hi
      rw [Sched.setTask_tasks_self] at hdead
      cases hdead
    · rw [Sched.setTask_tasks_of_ne _ _ hi] at hdead
      exact absurd hdead hu
  have hpaused := ha.table.retireCurrent hret
  obtain ⟨hother, hself, -⟩ := Sched.switchTo_spec hsw
  -- it died in the first half, so it was the current task
  have hdead1 : (s1.tasks i).state = .unused := by
    by_cases hik : i = k
    · subst hik
      rw [hself] at hdead
      cases hdead
    · rwa [hother i hik] at hdead
  have hi : i = a.sched.currentIndex := by
    by_contra hne
    rw [hpaused.other i hne] at hdead1
    exact hu hdead1
  subst hi
  have hpmm : s.heap.paging.pmm = s1.heap.paging.pmm := by
    rw [Sched.switchTo_heap hsw]
    split_ifs
    · rw [Paging.pagingSwitchDirectory_eq]
    · rfl
  rcases ha.table.retireCurrent_heap hret with ⟨hrunning, -⟩ | ⟨hz, s2, hd, hheap⟩
  · rw [hpaused.saved hrunning] at hdead1
    cases hdead1
  · obtain ⟨-, -, -, -, -, hiff⟩ := ha.destroyTask hu (ha.table.zombie_ne_main hz) hd
    rw [Returned, hpmm, hheap]
    exact hiff h0

/-- **What a dead task gives back**: a call that makes the entry of a user task unused gives back
its address space if and only if another directory is loaded at that moment. -/
theorem space_returned_iff (hstart : KernelStart h)
    (hrun : TaskRun (Supplied D h.paging.currentPd) syms h a)
    (hstep : TaskStep (Supplied D h.paging.currentPd) syms h.paging.currentPd a b) {i : Slot}
    (hu : (a.sched.tasks i).state ≠ .unused) (huser : a.home i ≠ h.paging.currentPd)
    (hdead : (b.sched.tasks i).state = .unused) : Returned a b i ↔
      a.sched.heap.paging.currentPd ≠ (a.sched.tasks i).pageDirectoryPhys := by
  obtain ⟨live, allocs, ha⟩ := hrun.spaceInv hstart
  have h0 : (a.sched.tasks i).pageDirectoryPhys ≠ 0 := fun h0 => huser (by
    rw [ha.homes.home i hu, if_neg (not_not.mpr h0)])
  have hspawn : ∀ {s : Sched D}, a.sched.SpawnEffect s → (s.tasks i).state ≠ .unused := by
    rintro s (hsame | ⟨j, -, hj⟩)
    · rw [hsame.tasks]
      exact hu
    · rw [hj.other i fun hij => hu (hij ▸ hj.was_unused)]
      exact hu
  cases hstep with
  | between => exact absurd hdead hu
  | spawnNamed _ hs => exact absurd hdead (hspawn (Sched.schedSpawnNamed_spec hs))
  | spawnUser _ _ hs => exact absurd hdead (hspawn (Sched.schedSpawnUser_spec hs))
  | kill hs => exact ha.returned_kill hs hu h0 hdead
  | exit hs => exact ha.returned_kill hs hu h0 hdead
  | trampoline =>
    rw [Sched.taskTrampolineEnd, ha.table.current] at hdead
    dsimp only at hdead
    by_cases hi : i = a.sched.currentIndex
    · subst hi
      rw [Sched.setState, Sched.setTask_tasks_self] at hdead
      cases hdead
    · rw [Sched.setState, Sched.setTask_tasks_of_ne _ _ hi] at hdead
      exact absurd hdead hu
  | tick _ hs => exact ha.returned_tick hs hu h0 hdead

/-! ## A task that exits and a task that is killed -/

/-- A heap in a directory with no mappings, on a machine with `memUpper` KiB above 1 MiB. -/
def bareHeap (memUpper : ℕ) : Option (Heap DiskImage) :=
  (pmmInit 1 0 (some ⟨1024, memUpper, 0, fun _ => ⟨0, 0, 0, 0⟩⟩)).bind fun p =>
    (Paging.boot p (fun _ => 0) (fun _ _ _ => 0) : Paging DiskImage).initDirectory.toOption.map
      fun s => (Heap.boot s).heapInit

theorem bareHeap_start {memUpper n : ℕ} {h : Heap DiskImage} (hh : bareHeap memUpper = some h)
    (hfree : ((pmmInit 1 0 (some ⟨1024, memUpper, 0, fun _ => ⟨0, 0, 0, 0⟩⟩)).map
      fun p => p.freeFrames) = some (n + 1)) : KernelStart h ∧ h.paging.swap.swapPort = none := by
  obtain ⟨p, hp, hh⟩ := Option.bind_eq_some_iff.mp hh
  obtain ⟨s, hdir, rfl⟩ := Option.map_eq_some_iff.mp hh
  rw [hp] at hfree
  have hcount : p.freeFrames = n + 1 := Option.some.inj hfree
  have hinv := pmmInit_inv hp
  obtain ⟨s', own, hdir', hs, hzero, hswap, hhand, -⟩ := Paging.initDirectory_spec
    (s := (Paging.boot p (fun _ => 0) (fun _ _ _ => 0) : Paging DiskImage)) hinv
    (hinv.nonempty (by omega))
  obtain rfl := Except.ok.inj (hdir'.symm.trans (ok_of_toOption hdir))
  have hnone : ∀ i < 1023, ∀ j, s'.pte s'.currentPd i j % 2 ≠ 1 := fun i hi j hp => by
    have hentry := Paging.entry_of_pte hp
    rw [hzero i hi] at hentry
    cases hentry
  refine ⟨⟨Heap.boot s', [], ⟨hs.oneDirectory (mem_singleton_self _),
    fun i _ hi j _ => hnone i (by omega) j, fun i _ hi j _ => hnone i (by omega) j, ?_⟩, .init⟩, ?_⟩
  · exact hhand.1.trans_lt (show 0 < 768 by decide)
  · change s'.swap.swapPort = none
    rw [hswap]
    rfl

theorem smallHeap_start {h : Heap DiskImage} (hh : smallHeap = some h) :
    KernelStart h ∧ h.paging.swap.swapPort = none :=
  bareHeap_start (show bareHeap 64 = some h from hh) (n := 15) (by decide)

theorem warmHeap_start {h : Heap DiskImage} (hh : warmHeap = some h) :
    KernelStart h ∧ h.paging.swap.swapPort = none := by
  have hport : (warmHeap.map fun h => h.paging.swap.swapPort) = some none := by decide +kernel
  obtain ⟨h₀, hsmall, hrun⟩ := warmHeap_malloc hh
  obtain ⟨⟨hb, allocs, hboot, hheap⟩, hnone⟩ := smallHeap_start hsmall
  rw [hh] at hport
  exact ⟨⟨hb, _, hboot, hheap.malloc (by decide) (.inr (.inl hnone)) hrun⟩, Option.some.inj hport⟩

theorem warmHeap_exit : (warmHeap.bind fun h =>
      ((Sched.boot h).schedInit.schedSpawnUser 0x1000 "init").toOption.bind fun s1 =>
        (s1.1.schedTick 500).toOption.bind fun s2 => s2.1.sysExit.toOption.bind fun s3 =>
          (s3.1.schedTick 600).toOption.map fun s4 =>
            ([decide ((s3.1.tasks 1).state = .unused), decide ((s4.1.tasks 1).state = .unused),
                s4.1.heap.paging.pmm.testFrame 0x103],
              [h.paging.currentPd, (s3.1.tasks 1).pageDirectoryPhys])) =
      some ([false, true, true], [0x100000, 0x103000]) := by
  decide +kernel

/-- A user task exits; the tick that takes it off the table leaves its directory allocated. -/
theorem exited_task_leaks_space : ∃ (h : Heap DiskImage) (a b : Tasks DiskImage), KernelStart h ∧
      TaskRun (Supplied DiskImage h.paging.currentPd) ⟨1, 2, 3⟩ h a ∧
      TaskStep (Supplied DiskImage h.paging.currentPd) ⟨1, 2, 3⟩ h.paging.currentPd a b ∧
      (a.sched.tasks 1).state ≠ .unused ∧ a.home 1 = 0x103000 ∧ h.paging.currentPd = 0x100000 ∧
      (b.sched.tasks 1).state = .unused ∧
      0x103000 ∈ a.sched.heap.paging.spaceFrames (a.sched.tasks 1).pageDirectoryPhys ∧
      0x103 ∉ b.sched.heap.paging.pmm.freeSet ∧ ¬ Returned a b 1 := by
  have hrun := warmHeap_exit
  simp only [Option.bind_eq_some_iff, Option.map_eq_some_iff] at hrun
  obtain ⟨h, hh, ⟨s1, r1⟩, h1, ⟨s2, f2⟩, h2, ⟨s3, r3⟩, h3, ⟨s4, f4⟩, h4, hvals⟩ := hrun
  simp only [Prod.mk.injEq, cons.injEq, and_true, decide_eq_false_iff_not,
    decide_eq_true_eq] at hvals
  obtain ⟨⟨hused, hdead, htest⟩, hboot, hpd⟩ := hvals
  obtain ⟨hstart, hport⟩ := warmHeap_start hh
  obtain ⟨home, hreach⟩ : ∃ home, TaskRun (Supplied DiskImage h.paging.currentPd) ⟨1, 2, 3⟩ h
      ⟨s3, home⟩ :=
    ⟨_, ((Relation.ReflTransGen.refl.tail (.spawnUser (.inl hport) (by decide)
      (ok_of_toOption h1))).tail (.tick trivial (ok_of_toOption h2))).tail
      (.exit (ok_of_toOption h3))⟩
  have hhome : home 1 = 0x103000 :=
    (hreach.homes.home 1 hused).trans ((if_pos (by rw [hpd]; decide)).trans hpd)
  have hspace : 0x103000 ∈ s3.heap.paging.spaceFrames (s3.tasks 1).pageDirectoryPhys :=
    Paging.mem_spaceFrames.mpr (.inl hpd.symm)
  have hnot : 0x103 ∉ s4.heap.paging.pmm.freeSet := fun hmem => by
    rw [(Pmm.mem_freeSet.mp hmem).2.2] at htest
    cases htest
  exact ⟨h, ⟨s3, home⟩, ⟨s4, home⟩, hstart, hreach, .tick trivial (ok_of_toOption h4), hused, hhome,
    hboot, hdead, hspace, hnot, fun hall => hnot (hall _ hspace)⟩

theorem warmHeap_kill : (warmHeap.bind fun h =>
      ((Sched.boot h).schedInit.schedSpawnUser 0x1000 "init").toOption.bind fun s1 =>
        (s1.1.schedKill 1).toOption.map fun s2 =>
          ([decide ((s1.1.tasks 1).state = .unused), decide ((s2.1.tasks 1).state = .unused)],
            [h.paging.currentPd, s1.1.heap.paging.currentPd, (s1.1.tasks 1).pageDirectoryPhys])) =
      some ([false, true], [0x100000, 0x100000, 0x103000]) := by
  decide +kernel

/-- The boot thread kills a user task: its address space is free. -/
theorem space_returned_iff_killed : ∃ (h : Heap DiskImage) (a b : Tasks DiskImage), KernelStart h ∧
      TaskRun (Supplied DiskImage h.paging.currentPd) ⟨1, 2, 3⟩ h a ∧
      TaskStep (Supplied DiskImage h.paging.currentPd) ⟨1, 2, 3⟩ h.paging.currentPd a b ∧
      (a.sched.tasks 1).state ≠ .unused ∧ a.home 1 ≠ h.paging.currentPd ∧
      (b.sched.tasks 1).state = .unused ∧ Returned a b 1 := by
  have hrun := warmHeap_kill
  simp only [Option.bind_eq_some_iff, Option.map_eq_some_iff] at hrun
  obtain ⟨h, hh, ⟨s1, r1⟩, h1, ⟨s2, r2⟩, h2, hvals⟩ := hrun
  simp only [Prod.mk.injEq, cons.injEq, and_true, decide_eq_false_iff_not,
    decide_eq_true_eq] at hvals
  obtain ⟨⟨hused, hdead⟩, hboot, hcur, hpd⟩ := hvals
  obtain ⟨hstart, hport⟩ := warmHeap_start hh
  obtain ⟨home, hreach⟩ : ∃ home, TaskRun (Supplied DiskImage h.paging.currentPd) ⟨1, 2, 3⟩ h
      ⟨s1, home⟩ :=
    ⟨_, Relation.ReflTransGen.refl.tail (.spawnUser (.inl hport) (by decide)
      (ok_of_toOption h1))⟩
  have hhome : home 1 = 0x103000 :=
    (hreach.homes.home 1 hused).trans ((if_pos (by rw [hpd]; decide)).trans hpd)
  have huser : home 1 ≠ h.paging.currentPd := by
    rw [hhome, hboot]
    decide
  have hstep : TaskStep (Supplied DiskImage h.paging.currentPd) ⟨1, 2, 3⟩ h.paging.currentPd
      ⟨s1, home⟩ ⟨s2, home⟩ := .kill (ok_of_toOption h2)
  refine ⟨h, _, _, hstart, hreach, hstep, hused, huser, hdead,
    (space_returned_iff hstart hreach hstep hused huser hdead).mpr ?_⟩
  rw [hcur, hpd]
  decide

/-- The user task is there: its directory and the loaded one are allocated. -/
theorem loaded_directory_taken_user : ∃ (h : Heap DiskImage) (a : Tasks DiskImage), KernelStart h ∧
      TaskRun (Supplied DiskImage h.paging.currentPd) ⟨1, 2, 3⟩ h a ∧
      a.sched.heap.paging.pmm.Taken (a.sched.heap.paging.currentPd / 4096) ∧
      (a.sched.tasks 1).pageDirectoryPhys = 0x103000 ∧ a.sched.heap.paging.pmm.Taken 0x103 := by
  have hrun := warmHeap_kill
  simp only [Option.bind_eq_some_iff, Option.map_eq_some_iff] at hrun
  obtain ⟨h, hh, ⟨s1, r1⟩, h1, ⟨s2, r2⟩, -, hvals⟩ := hrun
  simp only [Prod.mk.injEq, cons.injEq, and_true, decide_eq_false_iff_not] at hvals
  obtain ⟨⟨hused, -⟩, -, -, hpd⟩ := hvals
  obtain ⟨hstart, hport⟩ := warmHeap_start hh
  have hreach : TaskRun (Supplied DiskImage h.paging.currentPd) ⟨1, 2, 3⟩ h _ :=
    Relation.ReflTransGen.refl.tail (.spawnUser (.inl hport) (by decide) (ok_of_toOption h1))
  obtain ⟨hloaded, hdirs, -⟩ := loaded_directory_taken hstart hreach
  have htaken := hdirs 1 hused (by dsimp only; rw [hpd]; decide)
  rw [hpd] at htaken
  exact ⟨h, _, hstart, hreach, hloaded, hpd, htaken⟩

end PenOS
