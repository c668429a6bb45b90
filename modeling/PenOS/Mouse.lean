import Mathlib.Tactic.IntervalCases
import PenOS.VirtioInput

/-!
# The mouse

A movement of a PS/2 mouse has nine bits, eight in a byte of its own and the sign in the first byte;
`mouse_handle_packet` takes the sign from the byte of its own. A VirtIO mouse sends events
(`process_event`); a button pressed is taken for a key.
-/

namespace PenOS

/-! ## PS/2 packets -/

/-- A 32-bit word. -/
def word (a : ℤ) : ℤ := a % 4294967296

/-- The cast to `int8_t`. -/
def int8 (b : UInt8) : ℤ := if b < 128 then b.toNat else b.toNat - 256

/-- The variables of `mouse.c`; the position is in 32-bit words. -/
structure Ps2Mouse where
  x : ℤ
  y : ℤ
  buttons : ℕ
  packetIndex : ℕ
  packet : ℕ → UInt8

namespace Ps2Mouse

/-- `mouse_handle_packet` -/
def mouseHandlePacket (m : Ps2Mouse) : Ps2Mouse :=
  { m with
    x := word (m.x + int8 (m.packet 1))
    y := word (m.y - int8 (m.packet 2))
    buttons := (m.packet 0 &&& 7).toNat }

/-- `mouse_irq` for the byte `data`. -/
def mouseIrq (m : Ps2Mouse) (data : UInt8) : Ps2Mouse :=
  let m := { m with
    packet := Function.update m.packet m.packetIndex data
    packetIndex := m.packetIndex + 1 }
  if m.packetIndex = 3 then { m.mouseHandlePacket with packetIndex := 0 } else m

/-- The state that `mouse_init` sets up. -/
def init (packet : ℕ → UInt8) : Ps2Mouse := ⟨0, 0, 0, 0, packet⟩

end Ps2Mouse

/-- A packet without overflow. -/
structure Ps2Packet where
  flags : UInt8
  dataX : UInt8
  dataY : UInt8
  noOverflow : flags &&& 0xC0 = 0

namespace Ps2Packet

/-- A number of nine bits, given by its sign and the other eight. -/
def movement (negative : Bool) (data : UInt8) : ℤ :=
  if negative then data.toNat - 256 else data.toNat

/-- The movement along the first axis. -/
def dx (p : Ps2Packet) : ℤ := movement (p.flags &&& 16 ≠ 0) p.dataX

/-- The movement along the second axis. -/
def dy (p : Ps2Packet) : ℤ := movement (p.flags &&& 32 ≠ 0) p.dataY

/-- Both movements are between -128 and 127. -/
def Short (p : Ps2Packet) : Prop :=
  (p.flags &&& 16 ≠ 0 ↔ 128 ≤ p.dataX) ∧ (p.flags &&& 32 ≠ 0 ↔ 128 ≤ p.dataY)

end Ps2Packet

open Ps2Packet

namespace Ps2Mouse

/-- The bytes of the packets arrive. -/
def feed (m : Ps2Mouse) (ps : List Ps2Packet) : Ps2Mouse :=
  (ps.flatMap fun p => [p.flags, p.dataX, p.dataY]).foldl mouseIrq m

/-- The state is what the packets say. -/
def Follows (m : Ps2Mouse) (ps : List Ps2Packet) : Prop :=
  m.x = word (ps.map dx).sum ∧ m.y = word (-(ps.map dy).sum) ∧
    ∀ p, ps.getLast? = some p → m.buttons = (p.flags &&& 7).toNat

theorem feed_concat (m : Ps2Mouse) (ps : List Ps2Packet) (p : Ps2Packet) :
    m.feed (ps ++ [p]) = (m.feed ps).feed [p] := by
  simp [feed]

/-- **Step lemma**: three interrupts make up a packet. -/
theorem feed_one {m : Ps2Mouse} (hindex : m.packetIndex = 0) (p : Ps2Packet) :
    (m.feed [p]).packetIndex = 0 ∧ (m.feed [p]).x = word (m.x + int8 p.dataX) ∧
      (m.feed [p]).y = word (m.y - int8 p.dataY) ∧
      (m.feed [p]).buttons = (p.flags &&& 7).toNat := by
  simp [feed, mouseIrq, mouseHandlePacket, hindex]

theorem feed_index (packet : ℕ → UInt8) (ps : List Ps2Packet) :
    ((init packet).feed ps).packetIndex = 0 := by
  induction ps using List.reverseRecOn with
  | nil => rfl
  | append_singleton ps p ih =>
    rw [feed_concat]
    exact (feed_one ih p).1

theorem word_movement_eq_iff (a : ℤ) (negative : Bool) (data : UInt8) :
    word (a + movement negative data) = word (a + int8 data) ↔ (negative = true ↔ 128 ≤ data) := by
  have hlt := data.toNat_lt
  have hle : 128 ≤ data ↔ 128 ≤ data.toNat := UInt8.le_iff_toNat_le
  have hgt : data < 128 ↔ data.toNat < 128 := UInt8.lt_iff_toNat_lt
  simp only [word, movement, int8, hle, hgt]
  by_cases hdata : data.toNat < 128 <;> cases negative <;> simp [hdata] <;> omega

theorem word_add (a b : ℤ) : word (word a + b) = word (a + b) := Int.emod_add_emod _ _ _

theorem word_neg_eq_iff (a b : ℤ) : word (-a) = word (-b) ↔ word a = word b := by
  simp only [word]
  omega

/-- A packet is followed from one state to the next if and only if its movements are short. -/
theorem Follows.concat {m : Ps2Mouse} {ps : List Ps2Packet} (h : m.Follows ps)
    (hindex : m.packetIndex = 0) (p : Ps2Packet) :
    (m.feed [p]).Follows (ps ++ [p]) ↔ p.Short := by
  obtain ⟨-, hx, hy, hbuttons⟩ := feed_one hindex p
  have h1 := word_movement_eq_iff (ps.map dx).sum (p.flags &&& 16 ≠ 0) p.dataX
  have h2 := word_movement_eq_iff (ps.map dy).sum (p.flags &&& 32 ≠ 0) p.dataY
  rw [decide_eq_true_iff] at h1 h2
  rw [h.1, word_add] at hx
  rw [h.2.1, sub_eq_add_neg, word_add, ← neg_add] at hy
  simp only [Follows, hx, hy, hbuttons, word_neg_eq_iff, List.map_append, List.sum_append,
    List.map_singleton, List.sum_singleton, List.getLast?_concat, Option.some.injEq, forall_eq',
    and_true, Short, ← h1, ← h2]
  exact and_congr eq_comm eq_comm

/-- **PS/2 movement** is accumulated exactly, after every packet, if and only if no packet needs
the ninth bit. -/
theorem ps2_movement_iff (packet : ℕ → UInt8) (ps : List Ps2Packet) :
    (∀ qs, qs <+: ps → ((init packet).feed qs).Follows qs) ↔ ∀ p ∈ ps, p.Short := by
  induction ps using List.reverseRecOn with
  | nil =>
    refine iff_of_true (fun qs hqs => ?_) (List.forall_mem_nil _)
    rw [List.prefix_nil.mp hqs]
    exact ⟨rfl, rfl, fun p hp => by cases hp⟩
  | append_singleton ps p ih =>
    simp only [List.prefix_concat_iff, or_imp, forall_and, forall_eq, ih, List.mem_append,
      List.mem_singleton]
    rw [and_comm]
    refine and_congr_right fun hshort => ?_
    rw [feed_concat]
    exact ((ih.mpr hshort) ps List.prefix_rfl).concat (feed_index packet ps) p

end Ps2Mouse

/-- A movement by 200 to the right is taken for one by 56 to the left. -/
theorem fast_movement_reversed : ∃ p : Ps2Packet, p.dx = 200 ∧
    ((Ps2Mouse.init fun _ => 0).feed [p]).x = word (-56) ∧
      ¬((Ps2Mouse.init fun _ => 0).feed [p]).Follows [p] :=
  ⟨⟨8, 200, 0, by decide⟩, by decide, by decide, fun h => absurd h.1 (by decide)⟩

/-! ## VirtIO events -/

/-- The event is about button `i`: `BTN_LEFT`, `BTN_RIGHT` and `BTN_MIDDLE` follow each other. -/
def IsButton (i : ℕ) (e : VirtioInputEvent) : Prop := e.type = evKey ∧ e.code = btnLeft + i

/-- The event is about the movement along an axis. -/
def IsAxis (axis : ℕ) (e : VirtioInputEvent) : Prop := e.type = evRel ∧ e.code = axis

def IsMouse (e : VirtioInputEvent) : Prop := e.type = evRel ∨ ∃ i < 3, IsButton i e

instance (i : ℕ) (e : VirtioInputEvent) : Decidable (IsButton i e) :=
  inferInstanceAs (Decidable (_ ∧ _))

instance (axis : ℕ) (e : VirtioInputEvent) : Decidable (IsAxis axis e) :=
  inferInstanceAs (Decidable (_ ∧ _))

instance (e : VirtioInputEvent) : Decidable (IsMouse e) := inferInstanceAs (Decidable (_ ∨ _))

/-- The last event for the button had a value that is not zero. -/
def held (i : ℕ) (es : List VirtioInputEvent) : Bool :=
  (es.filter (IsButton i ·)).getLast?.any (·.value ≠ 0)

/-- The sum of the movements along an axis. -/
def travel (axis : ℕ) (es : List VirtioInputEvent) : ℕ :=
  ((es.filter (IsAxis axis ·)).map VirtioInputEvent.value).sum

/-- The state after the events, `mouse_state` starting at zero. -/
def InputState.after (keys : KeyBuffer) (es : List VirtioInputEvent) : InputState :=
  es.foldl processEvent ⟨keys, ⟨0, 0, 0⟩⟩

/-- The mouse is where the events say, with the buttons down that they say, and the other events
went to the keyboard buffer. -/
structure MouseFollows (keys : KeyBuffer) (es : List VirtioInputEvent) : Prop where
  buttons : ∀ i < 3, (InputState.after keys es).mouse.buttons.testBit i = held i es
  x : (InputState.after keys es).mouse.x = u32 (travel relX es)
  y : (InputState.after keys es).mouse.y = u32 (travel relY es)
  keys : (InputState.after keys es).keys = (InputState.after keys (es.filter (¬IsMouse ·))).keys

/-- Where the last event for a button has the value 1, the button was already down by its last
event with another value. -/
def NoPress (es : List VirtioInputEvent) : Prop :=
  ∀ i < 3, (es.filter (IsButton i ·)).getLast?.any (·.value = 1) →
    held i (es.filter (·.value ≠ 1)) = true

variable (keys : KeyBuffer) (s : InputState) (es : List VirtioInputEvent) (e : VirtioInputEvent)
  {i : ℕ}

theorem held_concat (i : ℕ) :
    held i (es ++ [e]) = if IsButton i e then decide (e.value ≠ 0) else held i es := by
  by_cases h : IsButton i e <;> simp [held, List.filter_append, h]

theorem travel_concat (axis : ℕ) :
    travel axis (es ++ [e]) = travel axis es + if IsAxis axis e then e.value else 0 := by
  by_cases h : IsAxis axis e <;> simp [travel, List.filter_append, h]

theorem InputState.after_concat : after keys (es ++ [e]) = processEvent (after keys es) e :=
  List.foldl_concat ..

theorem setButton_testBit (m : MouseState) (value : ℕ) {j : ℕ} (hi : i < 3) (hj : j < 3) :
    (m.setButton (1 <<< i) value).buttons.testBit j =
      if j = i then decide (value ≠ 0) else m.buttons.testBit j := by
  have hbits : ∀ i < 3, ∀ j < 3, (1 <<< i).testBit j = decide (j = i) ∧
      (not32 (1 <<< i)).testBit j = !decide (j = i) := by decide
  have hbit := hbits i hi j hj
  simp only [MouseState.setButton]
  split_ifs with hv <;> simp_all [Nat.testBit_or, Nat.testBit_and]

/-- **Step lemma**: what one event does to a button. A press with the value 1 is taken by the
branch for keys. -/
theorem processEvent_button (hi : i < 3) :
    (processEvent s e).mouse.buttons.testBit i =
      if IsButton i e ∧ e.value ≠ 1 then decide (e.value ≠ 0) else s.mouse.buttons.testBit i := by
  rcases e with ⟨type, code, value⟩
  by_cases hkey : type = evKey
  · subst hkey
    by_cases hone : value = 1
    · simp only [processEvent, hone, ne_eq, not_true, and_false, if_false, and_self, if_true]
      split_ifs <;> rfl
    · -- the three codes are told apart one after the other
      by_cases hcode : ∃ j < 3, code = btnLeft + j
      · obtain ⟨j, hj, rfl⟩ := hcode
        have hset : processEvent s ⟨evKey, btnLeft + j, value⟩ =
            { s with mouse := s.mouse.setButton (1 <<< j) value } := by
          interval_cases j <;> simp [processEvent, hone, evKey, evRel, btnLeft, btnRight, btnMiddle]
        rw [hset, setButton_testBit _ _ hj hi]
        simp [IsButton, hone, eq_comm]
      · push Not at hcode
        have hother : processEvent s ⟨evKey, code, value⟩ = s := by
          simp only [processEvent, hone, and_false, if_false, evKey, evRel]
          rw [if_neg (hcode 0 (by decide)), if_neg (hcode 1 (by decide)),
            if_neg (hcode 2 (by decide))]
          rfl
        rw [hother, if_neg fun h => hcode i hi h.1.2]
  · simp only [processEvent, IsButton, hkey, false_and, if_false]
    split_ifs <;> rfl

/-- What one event does to the position. -/
theorem processEvent_axis :
    (processEvent s e).mouse.x = (if IsAxis relX e then u32 (s.mouse.x + e.value) else s.mouse.x) ∧
    (processEvent s e).mouse.y =
      if IsAxis relY e then u32 (s.mouse.y + e.value) else s.mouse.y := by
  rcases e with ⟨type, code, value⟩
  by_cases hrel : type = evRel
  · subst hrel
    simp only [processEvent, IsAxis, evRel, evKey, relX, relY]
    split_ifs <;> simp_all
  · simp only [processEvent, IsAxis, hrel, if_false, false_and]
    split_ifs <;> simp [MouseState.setButton]

/-- What one event does to the keyboard buffer. -/
theorem processEvent_keys : (processEvent s e).keys =
    if e.type = evKey ∧ e.value = 1 ∧ e.code < keyMap.length ∧ keyMap.getD e.code 0 ≠ 0 then
      s.keys.keyboardPushChar (keyMap.getD e.code 0) else s.keys := by
  simp only [processEvent]
  split_ifs <;> first | rfl | tauto

theorem processEvent_keys_mouse (h : IsMouse e) : (processEvent s e).keys = s.keys := by
  rw [processEvent_keys, if_neg]
  rintro ⟨htype, -, hcode, -⟩
  have hlength : keyMap.length = 58 := rfl
  rcases h with h | ⟨i, -, -, h⟩
  · simp [htype, evKey, evRel] at h
  · simp only [btnLeft] at h
    omega

/-- **Run lemma**: the position and the keyboard buffer always follow the events. -/
theorem after_follows :
    (InputState.after keys es).mouse.x = u32 (travel relX es) ∧
      (InputState.after keys es).mouse.y = u32 (travel relY es) ∧
      (InputState.after keys es).keys =
        (InputState.after keys (es.filter (¬IsMouse ·))).keys := by
  induction es using List.reverseRecOn with
  | nil => exact ⟨rfl, rfl, rfl⟩
  | append_singleton es e ih =>
    obtain ⟨hx, hy, hkeys⟩ := ih
    obtain ⟨haxis, hayis⟩ := processEvent_axis (.after keys es) e
    simp only [InputState.after_concat, travel_concat, List.filter_append]
    refine ⟨?_, ?_, ?_⟩
    · rw [haxis, hx]
      split_ifs <;> simp [u32]
    · rw [hayis, hy]
      split_ifs <;> simp [u32]
    · by_cases hmouse : IsMouse e
      · simp [processEvent_keys_mouse _ _ hmouse, hmouse, hkeys]
      · simp [hmouse, InputState.after_concat, processEvent_keys, hkeys]

/-- **Run lemma**: the button bits follow the events with a value other than 1. -/
theorem after_buttons (hi : i < 3) :
    (InputState.after keys es).mouse.buttons.testBit i = held i (es.filter (·.value ≠ 1)) := by
  induction es using List.reverseRecOn with
  | nil => exact Nat.zero_testBit i
  | append_singleton es e ih =>
    rw [InputState.after_concat, processEvent_button _ _ hi, ih, List.filter_append]
    by_cases hone : e.value = 1
    · simp [hone]
    · simp [hone, held_concat]

/-- Unless the last event for a button has the value 1, those events say the same as all. -/
theorem held_others (hes : ¬(es.filter (IsButton i ·)).getLast?.any (·.value = 1)) :
    held i (es.filter (·.value ≠ 1)) = held i es := by
  induction es using List.reverseRecOn with
  | nil => rfl
  | append_singleton es e ih =>
    by_cases hbutton : IsButton i e
    · have hone : e.value ≠ 1 := by simpa [List.filter_append, hbutton] using hes
      simp [List.filter_append, hone, held_concat, hbutton]
    · have ih := ih (by simpa [List.filter_append, hbutton] using hes)
      by_cases hone : e.value = 1 <;>
        simpa [List.filter_append, hone, held_concat, hbutton] using ih

variable {es} in
theorem held_of_last (hes : (es.filter (IsButton i ·)).getLast?.any (·.value = 1)) :
    held i es = true := by
  obtain ⟨e, he, hone⟩ := (Option.any_eq_true ..).mp hes
  simp_all [held]

/-- **The mouse follows the events exactly when no button ends on a press** that it did not have
before. -/
theorem virtio_mouse_follows_iff (keys : KeyBuffer) (es : List VirtioInputEvent) :
    MouseFollows keys es ↔ NoPress es := by
  constructor
  · intro h i hi hlast
    rw [← after_buttons keys es hi, h.buttons i hi, held_of_last hlast]
  · intro hes
    obtain ⟨hx, hy, hkeys⟩ := after_follows keys es
    refine ⟨fun i hi => ?_, hx, hy, hkeys⟩
    rw [after_buttons keys es hi]
    by_cases hlast : (es.filter (IsButton i ·)).getLast?.any (·.value = 1)
    · rw [hes i hi hlast, held_of_last hlast]
    · exact held_others es hlast

/-- The left button is pressed, as a device reports it, and its bit stays clear. -/
theorem button_press_lost : ¬MouseFollows ⟨fun _ => 0, 0, 0⟩ [⟨evKey, btnLeft, 1⟩] := by
  intro h
  have hleft := h.buttons 0 (by decide)
  exact absurd hleft (by decide)

end PenOS
