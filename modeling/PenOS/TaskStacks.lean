import PenOS.ElfTasks
import PenOS.HeapLive

/-!
# The stacks of the tasks

In every run of the scheduler with other users of the heap, the tasks in the table have stacks that
are live blocks, each its own.
-/

namespace PenOS

variable {D : Type} {h h' : Heap D}
variable {f frame k n r stack : ℕ} {m : RecMem}

/-! ## Blocks below the scheduler -/

namespace Heap.Sound

theorem headersKept (hs : h.Sound) (hm : HeadersKept h m) :
    Heap.Sound { h with window := m } ∧ Heap.liveBlocks { h with window := m } = h.liveBlocks := by
  obtain ⟨cs, hinv⟩ := hs
  have hstate : HeapState [] h cs :=
    ⟨hinv, fun u hu => absurd hu List.not_mem_nil, List.nodup_nil⟩
  have hinv' := (hstate.headersKept hm).inv
  exact ⟨⟨cs, hinv'⟩, hinv'.liveBlocks_eq.trans hinv.liveBlocks_eq.symm⟩

/-- Writes to a live block. -/
theorem writeIn (hs : h.Sound) {p : ℕ} (hu : (p, k) ∈ h.liveBlocks)
    (hm : ∀ x, x < p ∨ p + k ≤ x → m.bytes x = h.window.bytes x) :
    Heap.Sound { h with window := m } ∧ Heap.liveBlocks { h with window := m } = h.liveBlocks := by
  obtain ⟨cs, hinv⟩ := hs
  rw [hinv.liveBlocks_eq] at hu
  have hstate : HeapState [(p, k)] h cs :=
    ⟨hinv, fun u h1 => ⟨k, (List.mem_singleton.mp h1) ▸ ⟨le_rfl, hu⟩⟩, List.nodup_singleton _⟩
  have hinv' := (hstate.writeIn List.mem_cons_self hm).inv
  exact ⟨⟨cs, hinv'⟩, hinv'.liveBlocks_eq.trans hinv.liveBlocks_eq.symm⟩

theorem writeFrame (hs : h.Sound) (hu : (stack, k) ∈ h.liveBlocks)
    (hk : stackSize ≤ k) (f : InterruptFrame) :
    Heap.Sound { h with window := writeFrame h.window (initialFrame stack) f } ∧
      Heap.liveBlocks { h with window := writeFrame h.window (initialFrame stack) f } =
        h.liveBlocks := by
  obtain ⟨-, hhi, hend⟩ := hs.live_mapped hu
  have hlayout := heap_layout
  dsimp only at hhi
  have hframe := initialFrame_range (show stack + stackSize < 4294967296 by omega)
  exact hs.writeIn hu fun x hx => writeFrame_of_not_mem f (by omega)

end Heap.Sound

section Loading

variable [Disk D]

theorem Heap.loadBytes_paging {virt : ℕ} (hrun : h.loadBytes n virt = .ok (h', r)) :
    h' = { h with paging := h'.paging } := by
  induction n generalizing h virt r with
  | zero =>
    cases hrun
    rfl
  | succ n ih =>
    have hbyte : ∀ {h₁ : Heap D} {b : UInt8}, h.loadByte (u32 virt) = .ok (h₁, b) →
        h₁ = { h with paging := h₁.paging } := by
      intro h₁ b h1
      rw [Heap.loadByte] at h1
      split_ifs at h1
      · cases h1
        rfl
      · split at h1
        · cases h1
          rfl
        · split at h1
          · cases h1
          · dsimp only at h1
            split at h1
            · cases h1
            · cases h1
              rfl
    rw [Heap.loadBytes] at hrun
    rcases h1 : h.loadByte (u32 virt) with e | ⟨h₁, b⟩ <;> rw [h1] at hrun
    · cases hrun
    dsimp only at hrun
    rcases h2 : h₁.loadBytes n (virt + 1) with e | ⟨h₂, rest⟩ <;> rw [h2] at hrun
    · cases hrun
    cases hrun
    rw [ih h2, hbyte h1]

variable {file : FileAnswer}

theorem Heap.Sound.readFile (hs : h.Sound) {r : Option (ℕ × ℕ)}
    (hrun : PenOS.readFile h (some file) = .ok (h', r)) :
    h'.Sound ∧ (r = none ∧ h'.liveBlocks = h.liveBlocks ∨
      ∃ data k, r = some (data, file.size) ∧ h.Took h' data k ∧ h'.Holds data file) := by
  have hsize := file.size_le
  have hfits := file.fits
  have hlayout := heap_layout
  simp only [PenOS.readFile] at hrun
  rcases hk : h.kmalloc file.size with e | ⟨h1, data⟩ <;> rw [hk] at hrun
  · cases hrun
  dsimp only at hrun
  rcases hs.kmalloc (by omega) hk with ⟨rfl, rfl⟩ | ⟨hdata, hs1, k, hk, htook⟩
  · cases hrun
    exact ⟨hs, .inl ⟨rfl, rfl⟩⟩
  have hmem := htook.mem
  obtain ⟨hs2, hlive⟩ := hs1.writeIn (m := pasteChunks h1.window data file.chunks) hmem
    fun x hx => pasteChunks_of_not_mem (by omega)
  rw [if_neg hdata] at hrun
  split_ifs at hrun with hshort
  · -- the server sent less than it said: the buffer is freed
    rcases hfree : { h1 with window := pasteChunks h1.window data file.chunks }.kfree data with
      e | h3 <;> rw [hfree] at hrun
    · cases hrun
    cases hrun
    obtain ⟨hs3, hlive3⟩ := hs2.kfree (hlive ▸ hmem) hfree
    rw [hlive, htook.erase hs1] at hlive3
    exact ⟨hs3, .inl ⟨rfl, hlive3⟩⟩
  · cases hrun
    have hcomplete := not_not.mp hshort
    obtain ⟨hlo, hhi, hend⟩ := hs1.live_mapped hmem
    dsimp only at hlo hhi
    obtain ⟨us, vs, hus, hvs⟩ := htook
    refine ⟨hs2, .inr ⟨data, k, rfl, ⟨us, vs, hus, hlive.trans hvs⟩, hlo.le, ?_, hend, hcomplete,
      ?_⟩⟩
    · dsimp only
      omega
    · exact fun k hk => pasteChunks_bytes (by rw [← FileAnswer.bytes, hcomplete]; exact hk)

/-- **`elf_load`** of a file without segments leaves no block behind. -/
theorem Heap.Sound.elfLoad (hs : h.Sound) {file : Option FileAnswer} {e : ℕ}
    (hfile : ∀ f ∈ file, f.Segmentless) (hrun : PenOS.elfLoad h file = .ok (h', r, e)) :
    h'.Sound ∧ h'.liveBlocks = h.liveBlocks := by
  rcases file with _ | file
  · cases hrun
    exact ⟨hs, rfl⟩
  rw [PenOS.elfLoad] at hrun
  rcases hread : PenOS.readFile h (some file) with x | ⟨h1, out⟩ <;> rw [hread] at hrun
  · cases hrun
  obtain ⟨hs1, ⟨rfl, hlive⟩ | ⟨data, k, rfl, htook, hf⟩⟩ := hs.readFile hread
  · cases hrun
    exact ⟨hs1, hlive⟩
  have hfreed : ∀ {h2 : Heap D}, h1.kfree data = .ok h2 →
      h2.Sound ∧ h2.liveBlocks = h.liveBlocks := by
    intro h2 hfree
    obtain ⟨hs2, hlive⟩ := hs1.kfree htook.mem hfree
    exact ⟨hs2, hlive.trans (htook.erase hs1)⟩
  dsimp only at hrun
  split_ifs at hrun with hvalid
  · rw [elfValidate_congr hf.bytes] at hvalid
    have hsize : 52 ≤ file.size := by
      simp only [elfValidate, Bool.and_eq_true, decide_eq_true_eq] at hvalid
      exact hvalid.1.1.1.1.1.1.1.1
    obtain ⟨h2, hfree, hentry⟩ :=
      hf.elfLoadImage hsize (hfile file rfl hf.complete hvalid) hrun
    rw [Heap.loadBytes_paging hentry]
    exact ⟨(hfreed hfree).1.withPaging _, (hfreed hfree).2⟩
  · rcases hfree : h1.kfree data with x | h2 <;> rw [hfree] at hrun
    · cases hrun
    cases hrun
    exact hfreed hfree

end Loading

/-! ## Runs of the kernel -/

/-- What other parts of the kernel do to the heap: change mappings, write between the headers,
allocate, and free what is no stack. -/
inductive ClientEvent [Disk D] (s : Sched D) : Heap D → Prop where
  | paging (p : Paging D) : ClientEvent s { s.heap with paging := p }
  | write {m : RecMem} (hm : HeadersKept s.heap m) : ClientEvent s { s.heap with window := m }
  | kmalloc {want p : ℕ} {h : Heap D} (hwant : want ≤ heapSize)
      (hrun : s.heap.kmalloc want = .ok (h, p)) : ClientEvent s h
  | kfree {u : ℕ × ℕ} {h : Heap D} (hu : u ∈ s.heap.liveBlocks)
      (hstack : ∀ i, i ≠ 0 → (s.tasks i).state ≠ .unused → (s.tasks i).stack ≠ u.1)
      (hrun : s.heap.kfree u.1 = .ok h) : ClientEvent s h

variable [Disk D]

/-- One call of the scheduler, or an event between two calls. -/
inductive KernelStep (syms : TaskSymbols) (s : Sched D) : Sched D → Prop where
  | client {h : Heap D} (he : ClientEvent s h) : KernelStep syms s { s with heap := h }
  | spawnNamed {s' : Sched D} {name : Option String} {r : ℤ}
      (h : s.schedSpawnNamed syms name = .ok (s', r)) : KernelStep syms s s'
  | spawnUser {s' : Sched D} {entry : ℕ} {name : String} {r : ℤ}
      (h : s.schedSpawnUser entry name = .ok (s', r)) : KernelStep syms s s'
  /-- a program with nothing to load: `elf_load` writes over block headers otherwise -/
  | spawnElf {s' : Sched D} {path : String} {file : Option FileAnswer} {r : ℤ}
      (hfile : ∀ f ∈ file, f.Segmentless) (h : s.schedSpawnElf path file = .ok (s', r)) :
      KernelStep syms s s'
  | kill {s' : Sched D} {id : ℕ} {r : ℤ} (h : s.schedKill id = .ok (s', r)) : KernelStep syms s s'
  | exit {s' : Sched D} {r : ℤ} (h : s.sysExit = .ok (s', r)) : KernelStep syms s s'
  /-- the function of a spawned task returned -/
  | trampoline (hcur : s.currentTask ≠ some 0) : KernelStep syms s s.taskTrampolineEnd
  | tick {s' : Sched D} {frame f : ℕ} (h : s.schedTick frame = .ok (s', f)) : KernelStep syms s s'

/-- The states of the scheduler after `sched_init`, on a heap that was in use before. -/
inductive KernelRun (syms : TaskSymbols) : Sched D → Prop where
  | start {h : Heap D} {allocs : List (ℕ × ℕ)} (hr : HeapReach allocs h) :
      KernelRun syms (Sched.boot h).schedInit
  | step {s s' : Sched D} (hr : KernelRun syms s) (h : KernelStep syms s s') : KernelRun syms s'

/-! ## The invariant -/

namespace Sched

omit [Disk D] in
/-- Every task but the boot thread has a live block as its stack. -/
structure StackInv (s : Sched D) : Prop where
  table : s.Inv
  sound : s.heap.Sound
  stack_live : ∀ i, i ≠ 0 → (s.tasks i).state ≠ .unused →
    ∃ k, stackSize ≤ k ∧ ((s.tasks i).stack, k) ∈ s.heap.liveBlocks
  stack_inj : ∀ i j, i ≠ 0 → j ≠ 0 → (s.tasks i).state ≠ .unused → (s.tasks j).state ≠ .unused →
    (s.tasks i).stack = (s.tasks j).stack → i = j

namespace StackInv

variable {s s' : Sched D} {i : Slot}

omit [Disk D] in
theorem survivors (hs : s.StackInv) (h : s.Survivors s') (hinv : s'.Inv) (hsound : s'.heap.Sound)
    (hlive : ∀ j, j ≠ 0 → (s'.tasks j).state ≠ .unused → ∀ k,
      ((s.tasks j).stack, k) ∈ s.heap.liveBlocks → ((s.tasks j).stack, k) ∈ s'.heap.liveBlocks) :
    s'.StackInv where
  table := hinv
  sound := hsound
  stack_live j hj hu := by
    obtain ⟨hused, hstack, -⟩ := h j hu
    obtain ⟨k, hk, hmem⟩ := hs.stack_live j hj hused
    rw [hstack]
    exact ⟨k, hk, hlive j hj hu k hmem⟩
  stack_inj j k hj hk huj huk heq := by
    rw [(h j huj).2.1, (h k huk).2.1] at heq
    exact hs.stack_inj j k hj hk (h j huj).1 (h k huk).1 heq

omit [Disk D] in
theorem sameTable (hs : s.StackInv) (h : s.SameTable s') (hsound : s'.heap.Sound)
    (hlive : ∀ u ∈ s.heap.liveBlocks, u ∈ s'.heap.liveBlocks) : s'.StackInv :=
  hs.survivors (.of_tasks h.tasks) (hs.table.sameTable h) hsound fun _ _ _ _ hu => hlive _ hu

section

variable (hs : s.StackInv) (hi : i ≠ 0) (hu : (s.tasks i).state ≠ .unused)

include hs hi hu

omit [Disk D]

theorem destroyTask (hrun : s.destroyTask i = .ok s') :
    s'.heap.Sound ∧ ∃ k, ((s.tasks i).stack, k) ∈ s.heap.liveBlocks ∧
      s'.heap.liveBlocks = s.heap.liveBlocks.erase ((s.tasks i).stack, k) := by
  obtain ⟨heap, hfree, hheap⟩ := destroyTask_heap hu hrun
  obtain ⟨k, -, hmem⟩ := hs.stack_live i hi hu
  obtain ⟨hsound, hlive⟩ := hs.sound.kfree hmem hfree
  rw [hheap, Heap.dropDirectory]
  split_ifs
  · exact ⟨hsound.withPaging _, k, hmem, hlive⟩
  · exact ⟨hsound, k, hmem, hlive⟩

theorem stack_gone
    (hrun : s.destroyTask i = .ok s') : ((s.tasks i).stack, k) ∉ s'.heap.liveBlocks := by
  obtain ⟨-, n, hmem, hlive⟩ := hs.destroyTask hi hu hrun
  rw [hlive, hs.sound.live_nodup.mem_erase_iff]
  rintro ⟨hne, hmem'⟩
  exact hne (hs.sound.live_inj hmem' hmem rfl)

theorem erase_live {j : Slot} (hj : j ≠ 0) (huj : (s.tasks j).state ≠ .unused) (hji : j ≠ i)
    (hmem : ((s.tasks j).stack, n) ∈ s.heap.liveBlocks) :
    ((s.tasks j).stack, n) ∈ s.heap.liveBlocks.erase ((s.tasks i).stack, k) := by
  refine (List.mem_erase_of_ne fun heq => hji ?_).mpr hmem
  exact hs.stack_inj j i hj hi huj hu (Prod.mk.inj heq).1

end

section

variable (hs : s.StackInv)

include hs

section

omit [Disk D]

theorem kill {id : ℕ} {r : ℤ} (hrun : s.schedKill id = .ok (s', r)) : s'.StackInv := by
  have hsurv := hs.table.survivors_kill hrun
  have hinv := hs.table.kill hrun
  rcases schedKill_cases hs.table hrun with rfl | ⟨-, rfl⟩ | ⟨i, hu, hi, -, hd⟩
  · exact hs
  · exact hs.survivors hsurv hinv hs.sound fun _ _ _ _ hmem => hmem
  · obtain ⟨hsound, k, -, hlive⟩ := hs.destroyTask hi hu hd
    refine hs.survivors hsurv hinv hsound fun j hj huj n hmem => ?_
    rw [hlive]
    refine hs.erase_live hi hu hj (hsurv j huj).1 ?_ hmem
    rintro rfl
    exact huj (destroyTask_spec hu hd).unused

theorem exit (hcur : s.currentIndex ≠ 0) : (s.setState s.currentIndex .zombie).StackInv :=
  hs.survivors (survivors_setTask hs.table.current_used rfl rfl) (hs.table.exit hcur) hs.sound
    fun _ _ _ _ hmem => hmem

/-- **The live blocks after a tick**: the same, unless the interrupted task has exited; then its
stack is gone. -/
theorem tick_live (hrun : s.schedTick frame = .ok (s', f)) : s'.heap.Sound ∧
      ((s.tasks s.currentIndex).state = .running ∧ s'.heap.liveBlocks = s.heap.liveBlocks ∨
        (s.tasks s.currentIndex).state = .zombie ∧ (s'.tasks s.currentIndex).state = .unused ∧
        ∃ k, ((s.tasks s.currentIndex).stack, k) ∈ s.heap.liveBlocks ∧
          s'.heap.liveBlocks = s.heap.liveBlocks.erase ((s.tasks s.currentIndex).stack, k)) := by
  rcases hs.table.tick_cases hrun with ⟨hcur, hstate, -, rfl⟩ | ⟨s1, k, hret, hk, hsw⟩
  · exact ⟨hs.sound, .inl ⟨hcur ▸ hstate, rfl⟩⟩
  have hpaused := hs.table.retireCurrent hret
  -- loading a directory does not touch the blocks
  have hswitch : s1.heap.Sound → s'.heap.Sound ∧ s'.heap.liveBlocks = s1.heap.liveBlocks := by
    intro hsound
    rw [switchTo_heap hsw]
    split_ifs
    · exact ⟨hsound.withPaging _, rfl⟩
    · exact ⟨hsound, rfl⟩
  rcases hs.table.retireCurrent_heap hret with ⟨hstate, hheap⟩ | ⟨hz, s2, hd, hheap⟩
  · obtain ⟨hsound, hlive⟩ := hswitch (hheap ▸ hs.sound)
    exact ⟨hsound, .inl ⟨hstate, hlive.trans (congrArg _ hheap)⟩⟩
  · obtain ⟨hsound2, n, hmem, hlive2⟩ :=
      hs.destroyTask (hs.table.zombie_ne_main hz) hs.table.current_used hd
    obtain ⟨hsound, hlive⟩ := hswitch (hheap ▸ hsound2)
    refine ⟨hsound, .inr ⟨hz, ?_, n, hmem, hlive.trans ((congrArg _ hheap).trans hlive2)⟩⟩
    by_contra hu
    have hku : (s1.tasks k).state ≠ .unused := by
      rw [hk]
      decide
    exact (survivors_switchTo hsw hku _ hu).1 (hpaused.gone hz)

theorem tick (hrun : s.schedTick frame = .ok (s', f)) : s'.StackInv := by
  have hsurv := hs.table.survivors_tick hrun
  obtain ⟨hsound, ⟨-, hlive⟩ | ⟨hz, hgone, n, -, hlive⟩⟩ := hs.tick_live hrun
  · exact hs.survivors hsurv (hs.table.tick hrun) hsound fun _ _ _ _ hmem => hlive ▸ hmem
  · refine hs.survivors hsurv (hs.table.tick hrun) hsound fun j hj huj k hmem => ?_
    rw [hlive]
    refine hs.erase_live (hs.table.zombie_ne_main hz) hs.table.current_used hj (hsurv j huj).1 ?_
      hmem
    rintro rfl
    exact huj hgone

theorem placed {pd : ℕ} (hp : s.Placed s' h i stack pd)
    (hsound : h.Sound) (hmem : (stack, k) ∈ h.liveBlocks) (hk : stackSize ≤ k)
    (hfresh : ∀ u ∈ s.heap.liveBlocks, u.1 ≠ stack)
    (hlive : ∀ u ∈ s.heap.liveBlocks, u ∈ h.liveBlocks) :
    s'.StackInv ∧ s'.heap.liveBlocks = h.liveBlocks := by
  obtain ⟨f, hheap⟩ := hp.heap_eq
  obtain ⟨hsound', hlive'⟩ := hsound.writeFrame hmem hk f
  rw [← hheap] at hsound' hlive'
  have hold : ∀ j, j ≠ i → (s'.tasks j).state ≠ .unused → (s.tasks j).state ≠ .unused ∧
      (s'.tasks j).stack = (s.tasks j).stack := fun j hj hu => by
    rw [hp.installed.other j hj] at hu ⊢
    exact ⟨hu, rfl⟩
  -- an older task is not on the new stack
  have hapart : ∀ j, j ≠ 0 → j ≠ i → (s'.tasks j).state ≠ .unused → (s'.tasks j).stack ≠ stack := by
    intro j hj hji hu
    obtain ⟨hused, hstack⟩ := hold j hji hu
    obtain ⟨n, -, hn⟩ := hs.stack_live j hj hused
    rw [hstack]
    exact hfresh _ hn
  refine ⟨⟨hs.table.install hp.installed, hsound', fun j hj hu => ?_,
    fun j n hj hn huj hun heq => ?_⟩, hlive'⟩
  · rw [hlive']
    by_cases hji : j = i
    · rw [hji, hp.stack_eq]
      exact ⟨k, hk, hmem⟩
    · obtain ⟨hused, hstack⟩ := hold j hji hu
      obtain ⟨n, hn, hold⟩ := hs.stack_live j hj hused
      rw [hstack]
      exact ⟨n, hn, hlive _ hold⟩
  · by_cases hji : j = i
    · by_contra hne
      rw [hji, hp.stack_eq] at heq
      exact hapart n hn (fun hni => hne (hji.trans hni.symm)) hun heq.symm
    · by_cases hni : n = i
      · rw [hni, hp.stack_eq] at heq
        exact absurd heq (hapart j hj hji huj)
      · obtain ⟨hused, hstack⟩ := hold j hji huj
        obtain ⟨hused', hstack'⟩ := hold n hni hun
        rw [hstack, hstack'] at heq
        exact hs.stack_inj j n hj hn hused hused' heq

end

/-! ## Spawning -/

/-- **`spawn_task`**: the new task is on the one block that was taken. -/
theorem spawnTask (h : s.SpawnedTask s') :
    s'.StackInv ∧ (∀ u ∈ s.heap.liveBlocks, u ∈ s'.heap.liveBlocks) ∧
      ∀ i, s.Installed s' i → ∃ k, s.heap.Took s'.heap (s'.tasks i).stack k := by
  cases h with
  | full => exact ⟨hs, fun _ hu => hu, fun i hi => absurd hi (SameTable.refl s).not_installed⟩
  | noStack hsame hk =>
    rcases hs.sound.kmalloc (by decide) hk with ⟨-, heq⟩ | ⟨h0, -⟩
    · have hlive : ∀ u ∈ s.heap.liveBlocks, u ∈ s'.heap.liveBlocks := fun u hu => heq ▸ hu
      exact ⟨hs.sameTable hsame (heq ▸ hs.sound) hlive, hlive,
        fun i hi => absurd hi hsame.not_installed⟩
    · exact absurd rfl h0
  | started hk hstack hp =>
    rcases hs.sound.kmalloc (by decide) hk with ⟨h0, -⟩ | ⟨-, hsound, k, hk, htook⟩
    · exact absurd h0 hstack
    obtain ⟨hs', hlive⟩ := hs.placed hp hsound htook.mem hk (fun u hu => htook.fresh hsound hu)
      htook.subset
    refine ⟨hs', fun u hu => hlive ▸ htook.subset u hu, fun i hi => ⟨k, ?_⟩⟩
    obtain ⟨us, vs, hus, hvs⟩ := htook
    rw [hi.eq hp.installed, hp.stack_eq]
    exact ⟨us, vs, hus, hlive.trans hvs⟩

/-- **`sched_spawn_user`**: two blocks were taken, and the new task is on one of them. -/
theorem spawnUser {entry : ℕ} (h : s.SpawnedUser entry s') :
    s'.StackInv ∧ (∀ u ∈ s.heap.liveBlocks, u ∈ s'.heap.liveBlocks) ∧
      ∀ i, s.Installed s' i → ∃ (mid : Heap D) (k ustack n : ℕ), mid.Sound ∧
        s.heap.Took mid (s'.tasks i).stack k ∧ mid.Took s'.heap ustack n := by
  cases h with
  | full => exact ⟨hs, fun _ hu => hu, fun i hi => absurd hi (SameTable.refl s).not_installed⟩
  | noDirectory hsame _ hheap =>
    have hlive : ∀ u ∈ s.heap.liveBlocks, u ∈ s'.heap.liveBlocks := fun u hu => by
      rw [hheap]
      exact hu
    exact ⟨hs.sameTable hsame (hheap ▸ hs.sound.withPaging _) hlive, hlive,
      fun i hi => absurd hi hsame.not_installed⟩
  | noKernelStack hsame _ _ hk hheap =>
    rcases (hs.sound.withPaging _).kmalloc (by decide) hk with ⟨-, heq⟩ | ⟨h0, -⟩
    · have hlive : ∀ u ∈ s.heap.liveBlocks, u ∈ s'.heap.liveBlocks := fun u hu => by
        rw [hheap, heq]
        exact hu
      refine ⟨hs.sameTable hsame ?_ hlive, hlive, fun i hi => absurd hi hsame.not_installed⟩
      rw [hheap, heq]
      exact hs.sound.withPaging _
    · exact absurd rfl h0
  | noUserStack hsame _ _ hk hkstack hu hfree hheap =>
    rcases (hs.sound.withPaging _).kmalloc (by decide) hk with ⟨h0, -⟩ | ⟨-, hsound, k, -, htook⟩
    · exact absurd h0 hkstack
    rcases hsound.kmalloc (by decide) hu with ⟨-, rfl⟩ | ⟨h0, -⟩
    · obtain ⟨hsound', hlive'⟩ := hsound.kfree htook.mem hfree
      rw [htook.erase hsound] at hlive'
      have hlive : ∀ u ∈ s.heap.liveBlocks, u ∈ s'.heap.liveBlocks := fun u hu => by
        rw [hheap]
        exact hlive' ▸ hu
      exact ⟨hs.sameTable hsame (hheap ▸ hsound'.withPaging _) hlive, hlive,
        fun i hi => absurd hi hsame.not_installed⟩
    · exact absurd rfl h0
  | @started _ p q newPd kstack ustack h1 h2 i _ _ hk hkstack hu hustack _ hp =>
    rcases (hs.sound.withPaging p).kmalloc (by decide) hk with ⟨h0, -⟩ | ⟨-, hsound, k, hkk, htook⟩
    · exact absurd h0 hkstack
    rcases hsound.kmalloc (by decide) hu with ⟨h0, -⟩ | ⟨-, hsound', n, -, htook'⟩
    · exact absurd h0 hustack
    have hold := fun u (hu : u ∈ s.heap.liveBlocks) => htook'.subset u (htook.subset u hu)
    obtain ⟨hs', hlive⟩ := hs.placed hp (hsound'.withPaging _) (htook'.subset _ htook.mem) hkk
      (fun u hu => htook.fresh hsound hu) hold
    refine ⟨hs', fun u hu => hlive ▸ hold u hu, fun j hj => ⟨h1, k, ustack, n, hsound, ?_, ?_⟩⟩
    · rw [hj.eq hp.installed, hp.stack_eq]
      exact htook
    · obtain ⟨us, vs, hus, hvs⟩ := htook'
      exact ⟨us, vs, hus, hlive.trans hvs⟩

/-- **`sched_spawn_elf`** of a file without segments. -/
theorem spawnElf {file : Option FileAnswer} (hfile : ∀ f ∈ file, f.Segmentless)
    (h : s.SpawnedElf file s') : s'.StackInv ∧ ∀ u ∈ s.heap.liveBlocks, u ∈ s'.heap.liveBlocks := by
  cases h with
  | full => exact ⟨hs, fun _ hu => hu⟩
  | noDirectory hsame _ hheap =>
    have hlive : ∀ u ∈ s.heap.liveBlocks, u ∈ s'.heap.liveBlocks := fun u hu => by
      rw [hheap]
      exact hu
    exact ⟨hs.sameTable hsame (hheap ▸ hs.sound.withPaging _) hlive, hlive⟩
  | noKernelStack hsame _ _ hk hheap =>
    rcases (hs.sound.withPaging _).kmalloc (by decide) hk with ⟨-, heq⟩ | ⟨h0, -⟩
    · have hlive : ∀ u ∈ s.heap.liveBlocks, u ∈ s'.heap.liveBlocks := fun u hu => by
        rw [hheap, heq]
        exact hu
      refine ⟨hs.sameTable hsame ?_ hlive, hlive⟩
      rw [hheap, heq]
      exact hs.sound.withPaging _
    · exact absurd rfl h0
  | notLoaded hsame _ _ hk hkstack hload hfree hheap =>
    rcases (hs.sound.withPaging _).kmalloc (by decide) hk with ⟨h0, -⟩ | ⟨-, hsound, k, -, htook⟩
    · exact absurd h0 hkstack
    obtain ⟨hsound1, hlive1⟩ := (hsound.withPaging _).elfLoad hfile hload
    obtain ⟨hsound2, hlive2⟩ := (hsound1.withPaging _).kfree (hlive1 ▸ htook.mem) hfree
    have hback := hlive2.trans ((congrArg (List.erase · _) hlive1).trans (htook.erase hsound))
    have hlive : ∀ u ∈ s.heap.liveBlocks, u ∈ s'.heap.liveBlocks := fun u hu => by
      rw [hheap]
      exact hback ▸ hu
    exact ⟨hs.sameTable hsame (hheap ▸ hsound2.withPaging _) hlive, hlive⟩
  | started _ _ hk hkstack hload _ hp =>
    rcases (hs.sound.withPaging _).kmalloc (by decide) hk with ⟨h0, -⟩ | ⟨-, hsound, k, hkk, htook⟩
    · exact absurd h0 hkstack
    obtain ⟨hsound1, hlive1⟩ := (hsound.withPaging _).elfLoad hfile hload
    obtain ⟨hs', hlive⟩ := hs.placed hp (hsound1.withPaging _) (hlive1 ▸ htook.mem) hkk
      (fun u hu => htook.fresh hsound hu) fun u hu => hlive1 ▸ htook.subset u hu
    exact ⟨hs', fun u hu => hlive ▸ hlive1 ▸ htook.subset u hu⟩

theorem client (he : ClientEvent s h) : { s with heap := h }.StackInv := by
  have hsame : s.SameTable { s with heap := h } := ⟨rfl, rfl, rfl, rfl, rfl⟩
  cases he with
  | paging p => exact hs.sameTable hsame (hs.sound.withPaging p) fun _ hu => hu
  | write hm =>
    obtain ⟨hsound, hlive⟩ := hs.sound.headersKept hm
    exact hs.sameTable hsame hsound fun u hu => hlive ▸ hu
  | kmalloc hwant hrun =>
    rcases hs.sound.kmalloc hwant hrun with ⟨-, rfl⟩ | ⟨-, hsound, k, -, htook⟩
    · exact hs
    · exact hs.sameTable hsame hsound htook.subset
  | @kfree u _ hu hstack hrun =>
    obtain ⟨hsound, hlive⟩ := hs.sound.kfree hu hrun
    refine hs.survivors (.of_tasks rfl) (hs.table.sameTable hsame) hsound fun j hj huj k hmem => ?_
    refine hlive ▸ (List.mem_erase_of_ne fun heq => hstack j hj huj ?_).mpr hmem
    exact congrArg Prod.fst heq

end

end StackInv

end Sched

variable {syms : TaskSymbols} {s s' : Sched D} {i : Slot}

/-- **One step** keeps the stacks in order. -/
theorem KernelStep.stackInv (h : KernelStep syms s s') (hs : s.StackInv) : s'.StackInv := by
  cases h with
  | client he => exact hs.client he
  | spawnNamed h => exact (hs.spawnTask (Sched.schedSpawnNamed_cases h)).1
  | spawnUser h => exact (hs.spawnUser (Sched.schedSpawnUser_cases h)).1
  | spawnElf hfile h => exact (hs.spawnElf hfile (Sched.schedSpawnElf_cases h)).1
  | kill h => exact hs.kill h
  | exit h => exact hs.kill h
  | trampoline hcur =>
    rw [hs.table.current] at hcur
    rw [Sched.taskTrampolineEnd, hs.table.current]
    exact hs.exit fun h0 => hcur (congrArg some h0)
  | tick h => exact hs.tick h

/-- **Every run** keeps the stacks in order. -/
theorem KernelRun.stackInv (h : KernelRun syms s) : s.StackInv := by
  induction h with
  | @start h _ hr =>
    obtain ⟨cs, hstate⟩ := hr.state
    have hmain := fun i hu => Sched.eq_main_of_used (h := h) (i := i) hu
    exact ⟨Sched.inv_schedInit h, ⟨cs, hstate.inv⟩, fun i hi hu => absurd (hmain i hu) hi,
      fun i j hi _ hu => absurd (hmain i hu) hi⟩
  | step _ hstep ih => exact hstep.stackInv ih

end PenOS
