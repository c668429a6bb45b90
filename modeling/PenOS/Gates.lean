import PenOS.Interrupts

/-!
# Gates and privilege (`src/arch/x86/gdt.c`, `idt.c`, `interrupts.c`)

An interrupt goes through a gate of the IDT into a segment of the GDT. Every gate is made with the
flags `0x8E`, for privilege level 0: `int 0x80` in a user task raises a general protection fault.
-/

namespace PenOS

/-- `struct gdt_entry` -/
structure GdtEntry where
  (limitLow baseLow baseMiddle access granularity baseHigh : ℕ)

/-- What `gdt_set_gate` stores. -/
def gdtSetGate (base limit access gran : ℕ) : GdtEntry :=
  { baseLow := base &&& 0xFFFF
    baseMiddle := (base >>> 16) &&& 0xFF
    baseHigh := (base >>> 24) &&& 0xFF
    limitLow := limit &&& 0xFFFF
    granularity := ((limit >>> 16) &&& 0x0F) ||| (gran &&& 0xF0)
    access := access }

/-- The table of `gdt_init` and `tss_init`, with the TSS at `tssEntry`. -/
def gdtInit (tssEntry : ℕ) : List GdtEntry :=
  [gdtSetGate 0 0 0 0, gdtSetGate 0 0xFFFFFFFF 0x9A 0xCF, gdtSetGate 0 0xFFFFFFFF 0x92 0xCF,
    gdtSetGate 0 0xFFFFFFFF 0xFA 0xCF, gdtSetGate 0 0xFFFFFFFF 0xF2 0xCF,
    gdtSetGate tssEntry 103 0x89 0x00]

/-- `idt_entry_t` -/
structure IdtEntry where
  (offsetLow selector typeAttr offsetHigh : ℕ)

/-- `idt_set_entry` -/
def idtSetEntry (idt : UInt8 → IdtEntry) (vec : UInt8) (handler selector flags : ℕ) :
    UInt8 → IdtEntry :=
  Function.update idt vec ⟨handler &&& 0xFFFF, selector, flags, (handler >>> 16) &&& 0xFFFF⟩

/-- The vectors of the calls of `set_gate`. -/
def gateVectors : List UInt8 :=
  (List.range 20 ++ (List.range 16).map (32 + ·) ++ [128]).map UInt8.ofNat

/-- `idt_init` and `interrupt_init`; `isr` gives the addresses of the stubs. -/
def interruptInit (isr : UInt8 → UInt32) : UInt8 → IdtEntry :=
  gateVectors.foldl (fun idt vec => idtSetEntry idt vec (isr vec).toNat 0x08 0x8E)
    fun _ => ⟨0, 0, 0, 0⟩

/-- The last byte of a segment, as the processor reads its descriptor. -/
def GdtEntry.last (e : GdtEntry) : ℕ :=
  let limit := e.limitLow + e.granularity % 16 * 65536
  if e.granularity / 128 % 2 = 1 then limit * 4096 + 4095 else limit

/-- **The processor** takes interrupt `vec` at level `cpl`, raised by an `int` instruction if
`soft`. The address it goes on at, or the exception raised instead. -/
def deliver (gdt : List GdtEntry) (idt : UInt8 → IdtEntry) (cpl : ℕ) (soft : Bool)
    (vec : UInt8) : Except UInt8 ℕ :=
  let gate := idt vec
  let offset := gate.offsetLow + gate.offsetHigh * 65536
  if gate.typeAttr % 32 ≠ 0x0E then .error 13
  else if soft ∧ gate.typeAttr / 32 % 4 < cpl then .error 13
  else if gate.typeAttr < 128 then .error 11
  else
    match gdt[gate.selector / 8]? with
    | none => .error 13
    | some code =>
      -- a code segment that is present, of no lower privilege, and long enough
      if code.access / 8 % 4 ≠ 3 ∨ cpl < code.access / 32 % 4 ∨ code.last < offset then .error 13
      else if code.access < 128 then .error 11
      else .ok (code.baseLow + code.baseMiddle * 65536 + code.baseHigh * 16777216 + offset)

variable (isr : UInt8 → UInt32) (tssEntry cpl : ℕ) (vec : UInt8)

theorem interruptInit_apply : interruptInit isr vec =
    if vec ∈ gateVectors then
      ⟨(isr vec).toNat &&& 0xFFFF, 0x08, 0x8E, ((isr vec).toNat >>> 16) &&& 0xFFFF⟩
    else ⟨0, 0, 0, 0⟩ := by
  unfold interruptInit
  induction gateVectors using List.reverseRecOn with
  | nil => rfl
  | append_singleton l v ih =>
    rw [List.foldl_append, List.foldl_cons, List.foldl_nil, idtSetEntry]
    by_cases hv : vec = v
    · subst hv
      simp
    · rw [Function.update_of_ne hv, ih]
      simp [hv]

/-- Interrupts with a gate enter their stub, unless an instruction in user mode raises them. -/
theorem deliver_eq (soft : Bool) :
    deliver (gdtInit tssEntry) (interruptInit isr) cpl soft vec =
      if vec ∈ gateVectors ∧ (soft → cpl = 0) then .ok (isr vec).toNat else .error 13 := by
  have hlt : (isr vec).toNat < 4294967296 := (isr vec).toNat_lt
  have hmask : ∀ x : ℕ, x &&& 0xFFFF = x % 65536 := fun x => and_low x 16
  have hoffset : ((isr vec).toNat &&& 0xFFFF) + (((isr vec).toNat >>> 16) &&& 0xFFFF) * 65536 =
      (isr vec).toNat := by
    rw [Nat.shiftRight_eq_div_pow, hmask, hmask]
    omega
  rw [deliver, interruptInit_apply]
  by_cases hv : vec ∈ gateVectors
  · -- the selector `0x08` is that of the kernel's code segment, which spans 4 GiB
    have hcode : gdtSetGate 0 0xFFFFFFFF 0x9A 0xCF = ⟨0xFFFF, 0, 0, 0x9A, 0xCF, 0⟩ := rfl
    have hlast : ¬4294967295 < (isr vec).toNat := by omega
    rcases Nat.eq_zero_or_pos cpl with rfl | hc
    · simp [hv, gdtInit, hcode, GdtEntry.last, hoffset, hlast]
    · cases soft <;> simp [hv, gdtInit, hcode, GdtEntry.last, hoffset, hlast, hc, hc.ne']
  · rw [if_neg hv, if_pos (by decide), if_neg fun h => hv h.1]

/-! ## System calls -/

/-- The handlers of the kernel. -/
structure Handlers (D : Type) where
  (timer pageFault keyboard mouse ahci syscall : Isr D)

variable {D : Type} (h : Handlers D) (irqLine : Option UInt8)

/-- What `kernel_main` has registered, in order; `irqLine` is that of the AHCI controller, if there
is one. -/
def kernelHandlers : UInt8 → Option (Isr D) :=
  ([(44, h.mouse), (32, h.timer), (14, h.pageFault), (33, h.keyboard), (44, h.mouse)] ++
    (irqLine.map fun line => (32 + line, h.ahci)).toList ++ [(128, h.syscall)]).foldl
      (fun handlers (r : UInt8 × Isr D) => registerInterruptHandler handlers r.1 r.2) fun _ => none

/-- The instruction `int vec` at level `cpl`. A fault that it raises goes through a gate of its own,
in which the privilege of the instruction does not count. -/
def softwareInterrupt (handlers : UInt8 → Option (Isr D)) (k : Machine D) (frame : ℕ) :
    Except Halt (Machine D × ℕ) :=
  let enter := deliver (gdtInit tssEntry) (interruptInit isr) cpl
  match enter true vec with
  | .ok _ => k.isrDispatch handlers vec frame
  | .error fault =>
    match enter false fault with
    | .ok _ => k.isrDispatch handlers fault frame
    | .error _ =>
      -- a fault on the way to a handler is a double fault
      match enter false 8 with
      | .ok _ => k.isrDispatch handlers 8 frame
      | .error _ => .error .tripleFault

theorem softwareInterrupt_eq (handlers : UInt8 → Option (Isr D)) (k : Machine D) (frame : ℕ) :
    softwareInterrupt isr tssEntry cpl vec handlers k frame =
      k.isrDispatch handlers (if cpl = 0 ∧ vec ∈ gateVectors then vec else 13) frame := by
  have hfault : (13 : UInt8) ∈ gateVectors := by decide
  simp only [softwareInterrupt, deliver_eq]
  by_cases hgate : cpl = 0 ∧ vec ∈ gateVectors
  · rw [if_pos hgate, if_pos ⟨hgate.2, fun _ => hgate.1⟩]
  · rw [if_neg hgate, if_neg fun hc => hgate ⟨hc.2 trivial, hc.1⟩]
    simp only [hfault, Bool.false_eq_true, false_implies, and_self, if_true]

/-- **System calls from user mode stop the kernel**, and so does every other `int` instruction: it
reaches the handlers from level 0 only. Interrupts of devices and faults of other instructions do
not look at the privilege of the gate. (The AHCI handler may be at the vector of the fault.) -/
theorem user_interrupt_stops_kernel (k : Machine D) (frame : ℕ) :
    softwareInterrupt isr tssEntry cpl vec (kernelHandlers h irqLine) k frame =
      if cpl = 0 ∧ vec ∈ gateVectors then k.isrDispatch (kernelHandlers h irqLine) vec frame
      else if irqLine = some 237 then k.isrDispatch (fun _ => some h.ahci) 13 frame
      else .error (.panic "General Protection") := by
  rw [softwareInterrupt_eq]
  by_cases hgate : cpl = 0 ∧ vec ∈ gateVectors
  · rw [if_pos hgate, if_pos hgate]
  rw [if_neg hgate, if_neg hgate]
  dsimp only [Machine.isrDispatch, Machine.callHandler]
  rcases irqLine with _ | line
  · rfl
  by_cases hline : line = 237
  · subst hline
    rfl
  · have hne : (13 : UInt8) ≠ 32 + line := by grind
    simp [kernelHandlers, registerInterruptHandler, hne, hline, exceptionMessages]

end PenOS
