import PenOS.VirtioInput
import PenOS.Lib.Ring

/-!
# The keyboard (`src/drivers/keyboard.c`)

The interrupt handler translates scancodes under the modifiers held and pushes the characters
into a ring of 64 bytes, which holds 63 at most and which `keyboard_read_char` empties. The
calls are atomic here.
-/

namespace PenOS

open List

/-! ## The character buffer -/

/-- A `char` as the `int` it is returned as. -/
def charInt (c : ℕ) : ℤ := if c < 128 then c else c - 256

/-- `keyboard_read_char` with `buffer_get`: the result and the buffer after it. -/
def KeyBuffer.keyboardReadChar (k : KeyBuffer) : ℤ × KeyBuffer :=
  if k.tail = k.head then (-1, k)
  else (charInt (k.buffer k.tail), { k with tail := (k.tail + 1) % 64 })

/-- The buffer before the first call. -/
def KeyBuffer.zero : KeyBuffer := ⟨fun _ => 0, 0, 0⟩

/-- The calls that touch the buffer. -/
inductive KeyCall where
  | push (c : ℕ)
  | read

/-- One call, on the buffer and the results of the reads so far. -/
def KeyCall.run (s : KeyBuffer × List ℤ) : KeyCall → KeyBuffer × List ℤ
  | .push c => (s.1.keyboardPushChar c, s.2)
  | .read => (s.1.keyboardReadChar.2, s.2 ++ [s.1.keyboardReadChar.1])

/-- A queue of at most 63 characters, with the characters accepted and the results of the reads. -/
structure KeyQueue where
  waiting : List ℕ := []
  accepted : List ℕ := []
  answers : List ℤ := []

/-- One call on the queue. -/
def KeyQueue.call (q : KeyQueue) : KeyCall → KeyQueue
  | .push c =>
    if q.waiting.length < 63 then
      { q with waiting := q.waiting ++ [c], accepted := q.accepted ++ [c] }
    else q
  | .read =>
    match q.waiting with
    | [] => { q with answers := q.answers ++ [-1] }
    | c :: rest => { q with waiting := rest, answers := q.answers ++ [(c : ℤ)] }

/-- The buffer stands for the queue: its ring carries the accepted characters, of which `got`
were read. -/
structure KeyBuffer.Stands (k : KeyBuffer) (q : KeyQueue) (got : List ℕ) : Prop where
  ring : Carries 64 64 k.buffer k.head k.tail q.accepted got
  split : got ++ q.waiting = q.accepted
  reads : q.answers.filter (· ≠ -1) = got.map (↑)
  chars : ∀ c ∈ q.accepted, c < 128

namespace KeyBuffer.Stands

variable {k : KeyBuffer} {q : KeyQueue} {got : List ℕ} (h : k.Stands q got)

include h

theorem length_eq : q.accepted.length = got.length + q.waiting.length := by
  rw [← h.split, length_append]

/-- The one-slot gap is closed exactly when 63 characters wait. -/
theorem full_iff : (k.head + 1) % 64 = k.tail ↔ ¬ q.waiting.length < 63 := by
  have hlen := h.length_eq
  have hfew := h.ring.few
  rw [h.ring.writeIdx_eq, h.ring.readIdx_eq]
  omega

theorem push {c : ℕ} (hc : c < 128) : (k.keyboardPushChar c).Stands (q.call (.push c)) got := by
  rw [KeyBuffer.keyboardPushChar, KeyQueue.call]
  by_cases hroom : q.waiting.length < 63
  · rw [if_pos (fun heq => h.full_iff.mp heq hroom), if_pos hroom]
    have hlen := h.length_eq
    refine ⟨?_, by simp [← h.split], h.reads, ?_⟩
    · have hhead : k.head % 64 = k.head := by rw [h.ring.writeIdx_eq, Nat.mod_mod]
      have hsend := h.ring.send c (by omega) fun i hi hlt =>
        ringSlot_ne_of_dvd dvd_rfl hlt (by omega)
      rwa [hhead] at hsend
    · intro d hd
      rcases List.mem_append.mp hd with hd | hd
      · exact h.chars d hd
      · exact List.mem_singleton.mp hd ▸ hc
  · rw [if_neg (not_not.mpr (h.full_iff.mpr hroom)), if_neg hroom]
    exact h

theorem read : ∃ got', k.keyboardReadChar.2.Stands (q.call .read) got' ∧
    (q.call .read).answers = q.answers ++ [k.keyboardReadChar.1] := by
  rw [KeyBuffer.keyboardReadChar, KeyQueue.call]
  rcases hq : q.waiting with _ | ⟨c, rest⟩
  · have heq : k.tail = k.head := h.ring.eq_iff.mpr (by rw [← h.split, hq, append_nil])
    rw [if_pos heq]
    refine ⟨got, ⟨h.ring, by simpa [hq] using h.split, ?_, h.chars⟩, rfl⟩
    simpa using h.reads
  · have hsplit : got ++ c :: rest = q.accepted := hq ▸ h.split
    have hne : k.tail ≠ k.head := fun heq => by
      have hgot := h.ring.eq_iff.mp heq
      rw [← hgot] at hsplit
      simp at hsplit
    have htail : k.tail % 64 = k.tail := by rw [h.ring.readIdx_eq, Nat.mod_mod]
    obtain ⟨hnext, hrecv⟩ := h.ring.recv hne
    rw [htail] at hnext hrecv
    -- the slot read is that of the oldest character waiting
    have hc : k.buffer k.tail = c := by
      rw [← hsplit, List.getElem?_append_right le_rfl, Nat.sub_self] at hnext
      exact (Option.some.inj hnext).symm
    have hlt : c < 128 := h.chars c (by rw [← hsplit]; simp)
    rw [if_neg hne, hc, charInt, if_pos hlt]
    refine ⟨got ++ [c], ⟨hc ▸ hrecv, by simpa using hsplit, ?_, h.chars⟩, rfl⟩
    have hread := h.reads
    simp only [filter_append, hread, map_append, map_cons, map_nil]
    rw [filter_cons_of_pos (by simp), filter_nil]

end KeyBuffer.Stands

theorem keyCalls_stand (calls : List KeyCall) (hchars : ∀ c, .push c ∈ calls → 1 ≤ c ∧ c ≤ 127) :
    ∃ got, (calls.foldl KeyCall.run (.zero, [])).1.Stands (calls.foldl KeyQueue.call {}) got ∧
      (calls.foldl KeyQueue.call {}).answers = (calls.foldl KeyCall.run (.zero, [])).2 := by
  induction calls using List.reverseRecOn with
  | nil => exact ⟨[], ⟨.empty (by decide) _, rfl, rfl, fun c hc => absurd hc (by simp)⟩, rfl⟩
  | append_singleton calls call ih =>
    obtain ⟨got, hstands, hans⟩ := ih fun c hc => hchars c (by simp [hc])
    simp only [foldl_append, foldl_cons, foldl_nil]
    cases call with
    | push c =>
      have hc : c < 128 := by
        have := hchars c (by simp)
        omega
      refine ⟨got, hstands.push hc, ?_⟩
      rw [KeyCall.run, ← hans, KeyQueue.call]
      split_ifs <;> rfl
    | read =>
      obtain ⟨got', hstands', hans'⟩ := hstands.read
      exact ⟨got', hstands', by rw [hans', hans]; rfl⟩

/-- **The keyboard buffer is a bounded FIFO**: it answers every read as a queue of 63 characters
does. -/
theorem keyboard_bounded_fifo (calls : List KeyCall)
    (hchars : ∀ c, .push c ∈ calls → 1 ≤ c ∧ c ≤ 127) :
    (calls.foldl KeyCall.run (.zero, [])).2 = (calls.foldl KeyQueue.call {}).answers ∧
      (calls.foldl KeyCall.run (.zero, [])).2.filter (· ≠ -1) ++
        (calls.foldl KeyQueue.call {}).waiting.map (↑) =
        (calls.foldl KeyQueue.call {}).accepted.map (↑) ∧
      ((calls.foldl KeyQueue.call {}).waiting.length = 63 → ∀ c,
        (calls.foldl KeyCall.run (.zero, [])).1.keyboardPushChar c =
          (calls.foldl KeyCall.run (.zero, [])).1) := by
  obtain ⟨got, hstands, hans⟩ := keyCalls_stand calls hchars
  refine ⟨hans.symm, ?_, fun hfull c => ?_⟩
  · rw [← hans, hstands.reads, ← hstands.split, map_append]
  · rw [KeyBuffer.keyboardPushChar]
    exact if_neg (not_not.mpr (hstands.full_iff.mpr (by omega)))

theorem keyboard_bounded_fifo_two :
    ([.push 97, .push 98, .read, .read, .read].foldl KeyCall.run (.zero, [])).2 = [97, 98, -1] ∧
      ([.push 97, .push 98, .read, .read, .read].foldl KeyQueue.call {}).answers = [97, 98, -1] :=
  ⟨by decide, (keyboard_bounded_fifo [.push 97, .push 98, .read, .read, .read]
    (by simp)).1.symm.trans (by decide)⟩

/-! ## The modifiers -/

/-- `scancode_set1`: the same characters as `key_map`; the codes after them have none. -/
def scancodeSet1 : List ℕ := keyMap

/-- `scancode_set1_shift` -/
def scancodeSet1Shift : List ℕ :=
  let chars (s : String) : List ℕ := s.toList.map Char.toNat
  [0, 27] ++ chars "!@#$%^&*()_+" ++ [8, 9] ++ chars "QWERTYUIOP\x7b\x7d\n" ++ [0] ++
    chars "ASDFGHJKL:" ++ [34, 126, 0, 124] ++ chars "ZXCVBNM<>?" ++ [0] ++ chars "*" ++ [0] ++
    chars " "

/-- The variables of `keyboard.c`. -/
structure Keyboard where
  keys : KeyBuffer := .zero
  shiftDown : Bool := false
  ctrlDown : Bool := false

namespace Keyboard

/-- `translate_scancode` -/
def translateScancode (k : Keyboard) (sc : ℕ) : ℕ :=
  if 128 ≤ sc then 0
  else
    let c := if k.shiftDown then scancodeSet1Shift.getD sc 0 else scancodeSet1.getD sc 0
    let c := if c = 0 ∧ k.shiftDown then scancodeSet1.getD sc 0 else c
    if k.ctrlDown then
      if 97 ≤ c ∧ c ≤ 122 then c - 97 + 1
      else if 65 ≤ c ∧ c ≤ 90 then c - 65 + 1
      else c
    else c

/-- `keyboard_callback`, on the byte read from the controller. -/
def keyboardCallback (k : Keyboard) (sc : ℕ) : Keyboard :=
  if sc &&& 0x80 ≠ 0 then
    let released := sc &&& 0x7F
    if released = 0x2A ∨ released = 0x36 then { k with shiftDown := false }
    else if released = 0x1D then { k with ctrlDown := false }
    else k
  else if sc = 0x2A ∨ sc = 0x36 then { k with shiftDown := true }
  else if sc = 0x1D then { k with ctrlDown := true }
  else
    let c := k.translateScancode sc
    if c ≠ 0 then { k with keys := k.keys.keyboardPushChar c } else k

end Keyboard

/-- The keys held after one more code: a break code has the top bit set. -/
def holdKey (held : ℕ → Bool) (sc : ℕ) : ℕ → Bool :=
  if sc &&& 0x80 ≠ 0 then Function.update held (sc &&& 0x7F) false
  else Function.update held sc true

/-- The keys held after a sequence of codes. -/
def heldAfter (codes : List ℕ) : ℕ → Bool := codes.foldl holdKey fun _ => false

/-- The keyboard after a sequence of codes. -/
def keyboardAfter (codes : List ℕ) : Keyboard := codes.foldl Keyboard.keyboardCallback {}

/-- The flags are those of the keys held. -/
def Keyboard.Reflects (k : Keyboard) (held : ℕ → Bool) : Prop :=
  k.shiftDown = (held 0x2A || held 0x36) ∧ k.ctrlDown = held 0x1D

/-- The code does not release one Shift while the other is held. -/
def ShiftsApart (held : ℕ → Bool) (sc : ℕ) : Prop :=
  sc &&& 0x80 ≠ 0 →
    (sc &&& 0x7F = 0x2A → held 0x36 = false) ∧ (sc &&& 0x7F = 0x36 → held 0x2A = false)

theorem Keyboard.Reflects.callback_iff {k : Keyboard} {held : ℕ → Bool} (h : k.Reflects held)
    (sc : ℕ) : (k.keyboardCallback sc).Reflects (holdKey held sc) ↔ ShiftsApart held sc := by
  obtain ⟨hshift, hctrl⟩ := h
  rw [keyboardCallback, holdKey, ShiftsApart]
  by_cases hbreak : sc &&& 0x80 ≠ 0
  · rw [if_pos hbreak, if_pos hbreak, forall_prop_of_true hbreak]
    generalize sc &&& 0x7F = key
    by_cases hl : key = 0x2A
    · subst hl
      cases hr : held 0x36 <;> simp [Reflects, hctrl, hr]
    by_cases hr : key = 0x36
    · subst hr
      cases hl : held 0x2A <;> simp [Reflects, hctrl, hl]
    by_cases hc : key = 0x1D
    · subst hc
      simp [Reflects, hshift]
    · simp [Reflects, hc, hl, hr, hshift, hctrl, Function.update_of_ne, Ne.symm]
  · -- a make code: no key is released
    rw [if_neg hbreak, if_neg hbreak]
    refine iff_of_true ?_ fun h => absurd h hbreak
    by_cases hl : sc = 0x2A
    · subst hl
      simp [Reflects, hctrl]
    by_cases hr : sc = 0x36
    · subst hr
      simp [Reflects, hctrl]
    by_cases hc : sc = 0x1D
    · subst hc
      simp [Reflects, hshift]
    · rw [if_neg (by simp [hl, hr]), if_neg hc]
      dsimp only
      split_ifs <;> simp [Reflects, Function.update, hl, hr, hc, hshift, hctrl, Ne.symm]

/-- **The modifier flags reflect the keys held**, after each code, exactly when no code releases one
Shift while the other is held. -/
theorem modifiers_reflect_iff (codes : List ℕ) :
    (∀ done, done <+: codes → (keyboardAfter done).Reflects (heldAfter done)) ↔
      ∀ done sc, done ++ [sc] <+: codes → ShiftsApart (heldAfter done) sc := by
  have hstep : ∀ done sc, (keyboardAfter done).Reflects (heldAfter done) →
      ((keyboardAfter (done ++ [sc])).Reflects (heldAfter (done ++ [sc])) ↔
        ShiftsApart (heldAfter done) sc) := fun done sc h => by
    simp only [keyboardAfter, heldAfter, foldl_append, foldl_cons, foldl_nil]
    exact h.callback_iff sc
  refine ⟨fun h done sc hpre => ?_, fun h done hpre => ?_⟩
  · exact (hstep done sc (h done ((prefix_append _ _).trans hpre))).mp (h _ hpre)
  · induction done using List.reverseRecOn with
    | nil => exact ⟨rfl, rfl⟩
    | append_singleton done sc ih =>
      exact (hstep done sc (ih ((prefix_append _ _).trans hpre))).mpr (h done sc hpre)

/-- Both Shifts are pressed and the left one is released: the flag is clear with the right one
held. -/
theorem shift_lost : heldAfter [0x2A, 0x36] 0x2A = true ∧ heldAfter [0x2A, 0x36, 0xAA] 0x36 = true ∧
      (keyboardAfter [0x2A, 0x36, 0xAA]).shiftDown = false ∧
      ¬ (keyboardAfter [0x2A, 0x36, 0xAA]).Reflects (heldAfter [0x2A, 0x36, 0xAA]) := by
  have hheld : heldAfter [0x2A, 0x36, 0xAA] 0x36 = true := by decide
  have hflag : (keyboardAfter [0x2A, 0x36, 0xAA]).shiftDown = false := by decide
  refine ⟨by decide, hheld, hflag, fun h => ?_⟩
  have := h.1
  simp [hheld, hflag] at this

end PenOS
