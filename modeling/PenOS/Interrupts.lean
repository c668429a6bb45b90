import PenOS.Sched

/-!
# Interrupts and the timer (`src/arch/x86/interrupts.c`, `src/arch/x86/timer.c`)

The stubs push a frame and call `isr_dispatch`, which calls the handler and returns the frame to
resume: the one the timer's handler asks for through `next_frame_override`. A frame is its address;
its interrupt number is passed separately.
-/

namespace PenOS

/-- The statics of `interrupts.c` and `timer.c`, and the scheduler below. -/
structure Machine (D : Type) where
  sched : Sched D
  nextFrameOverride : ℕ
  ticks : ℕ

/-- `isr_t` -/
abbrev Isr (D : Type) : Type := Machine D → ℕ → Except Halt (Machine D)

/-- `exception_messages` -/
def exceptionMessages : List String :=
  ["Division By Zero", "Debug", "Non Maskable Interrupt", "Breakpoint", "Into Detected Overflow",
    "Out of Bounds", "Invalid Opcode", "No Coprocessor", "Double Fault",
    "Coprocessor Segment Overrun", "Bad TSS", "Segment Not Present", "Stack Fault",
    "General Protection", "Page Fault", "Unknown Interrupt", "Coprocessor Fault",
    "Alignment Check", "Machine Check", "Reserved"]

/-- `register_interrupt_handler` -/
def registerInterruptHandler {D : Type} (handlers : UInt8 → Option (Isr D)) (n : UInt8)
    (handler : Isr D) : UInt8 → Option (Isr D) := Function.update handlers n (some handler)

namespace Machine

variable {D : Type}

/-- `interrupt_request_frame_switch` -/
def interruptRequestFrameSwitch (k : Machine D) (frame : ℕ) : Machine D :=
  if frame ≠ 0 then { k with nextFrameOverride := frame } else k

/-- `timer_callback` -/
def timerCallback (k : Machine D) (frame : ℕ) : Except Halt (Machine D) :=
  match k.sched.schedTick frame with
  | .error e => .error e
  | .ok (sched, next) =>
    let k := { k with sched := sched, ticks := u64 (k.ticks + 1) }
    .ok (if next ≠ 0 ∧ next ≠ frame then k.interruptRequestFrameSwitch next else k)

/-- The handler of a vector, or the panic of an exception without one. -/
def callHandler (handlers : UInt8 → Option (Isr D)) (intNo : UInt8) (k : Machine D)
    (frame : ℕ) : Except Halt (Machine D) :=
  match handlers intNo with
  | some handler => handler k frame
  | none =>
    if intNo < 20 then .error (.panic (exceptionMessages.getD intNo.toNat ""))
    else .ok k

/-- `isr_dispatch`: the frame to resume. -/
def isrDispatch (handlers : UInt8 → Option (Isr D)) (intNo : UInt8) (k : Machine D)
    (frame : ℕ) : Except Halt (Machine D × ℕ) :=
  match callHandler handlers intNo k frame with
  | .error e => .error e
  | .ok k =>
    let resume := if k.nextFrameOverride ≠ 0 then k.nextFrameOverride else frame
    .ok ({ k with nextFrameOverride := 0 }, resume)

/-- **The timer interrupt** resumes the frame `sched_tick` returns, and leaves no
request behind. -/
theorem isrDispatch_timer {handlers : UInt8 → Option (Isr D)} {intNo : UInt8} {k : Machine D}
    {frame next : ℕ} {sched : Sched D} (ht : handlers intNo = some timerCallback)
    (hk : k.nextFrameOverride = 0) (h : k.sched.schedTick frame = .ok (sched, next))
    (hnext : next = 0 → next = frame) : isrDispatch handlers intNo k frame =
      .ok ({ sched := sched, nextFrameOverride := 0, ticks := u64 (k.ticks + 1) }, next) := by
  unfold isrDispatch callHandler
  rw [ht]
  dsimp only
  unfold timerCallback
  rw [h]
  dsimp only
  by_cases hsw : next ≠ 0 ∧ next ≠ frame
  · rw [if_pos hsw, interruptRequestFrameSwitch, if_pos hsw.1]
    rw [if_pos hsw.1]
  · rw [if_neg hsw, hk, if_neg (not_not.mpr rfl)]
    have : frame = next := by
      by_cases h0 : next = 0
      · exact (hnext h0).symm
      · exact (not_not.mp fun hne => hsw ⟨h0, hne⟩).symm
    rw [this]

end Machine

end PenOS
