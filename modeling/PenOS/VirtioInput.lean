import PenOS.Virtqueue

/-!
# VirtIO input devices (`src/drivers/virtio_input.c`)

The first input device is the keyboard, the second the mouse. Each has a queue and an array of 32
events, posted as buffers; `virtio_input_poll` processes those the device has completed and posts
them again. An event is read and written as a whole.
-/

namespace PenOS

/-- `virtio_input_event_t` -/
structure VirtioInputEvent where
  type : ℕ
  code : ℕ
  value : ℕ
  deriving DecidableEq

/-- `sizeof(virtio_input_event_t)` -/
abbrev inputEventBytes : ℕ := 8

/-! ## What an event does -/

/-- `EV_KEY` -/
abbrev evKey : ℕ := 1
/-- `EV_REL` -/
abbrev evRel : ℕ := 2
/-- `REL_X` -/
abbrev relX : ℕ := 0
/-- `REL_Y` -/
abbrev relY : ℕ := 1
/-- `BTN_LEFT` -/
abbrev btnLeft : ℕ := 0x110
/-- `BTN_RIGHT` -/
abbrev btnRight : ℕ := 0x111
/-- `BTN_MIDDLE` -/
abbrev btnMiddle : ℕ := 0x112

/-- `key_map`, indexed by the key codes. -/
def keyMap : List ℕ :=
  let chars (s : String) : List ℕ := s.toList.map Char.toNat
  [0, 27] ++ chars "1234567890-=" ++ [8, 9] ++ chars "qwertyuiop[]\n" ++ [0] ++
    chars "asdfghjkl;" ++ [39, 96, 0, 92] ++ chars "zxcvbnm,./" ++ [0] ++ chars "*" ++ [0] ++
    chars " "

/-- The character buffer of `keyboard.c`. -/
structure KeyBuffer where
  buffer : ℕ → ℕ
  head : ℕ
  tail : ℕ

/-- `keyboard_push_char`: a full buffer takes nothing. -/
def KeyBuffer.keyboardPushChar (k : KeyBuffer) (c : ℕ) : KeyBuffer :=
  let next := (k.head + 1) % 64
  if next ≠ k.tail then { k with buffer := Function.update k.buffer k.head c, head := next } else k

/-- `mouse_state_t`; the numbers are 32-bit words. -/
structure MouseState where
  x : ℕ
  y : ℕ
  buttons : ℕ

/-- What `process_event` changes. -/
structure InputState where
  keys : KeyBuffer
  mouse : MouseState

/-- Set or clear one bit of the buttons. -/
def MouseState.setButton (m : MouseState) (bit value : ℕ) : MouseState :=
  { m with buttons := if value ≠ 0 then m.buttons ||| bit else m.buttons &&& not32 bit }

/-- `process_event` -/
def processEvent (s : InputState) (evt : VirtioInputEvent) : InputState :=
  if evt.type = evKey ∧ evt.value = 1 then
    if evt.code < keyMap.length then
      let c := keyMap.getD evt.code 0
      if c ≠ 0 then { s with keys := s.keys.keyboardPushChar c } else s
    else s
  else if evt.type = evRel then
    if evt.code = relX then { s with mouse.x := u32 (s.mouse.x + evt.value) }
    else if evt.code = relY then { s with mouse.y := u32 (s.mouse.y + evt.value) }
    else s
  else if evt.type = evKey then
    if evt.code = btnLeft then { s with mouse := s.mouse.setButton 1 evt.value }
    else if evt.code = btnRight then { s with mouse := s.mouse.setButton 2 evt.value }
    else if evt.code = btnMiddle then { s with mouse := s.mouse.setButton 4 evt.value }
    else s
  else s

/-! ## The driver -/

/-- The two devices. -/
inductive InputKind where
  | keyboard
  | mouse
  deriving DecidableEq

/-- Where the arrays `events` and `mouse_events` are, and `paging_virt_to_phys` on them. -/
structure InputLayout where
  events : InputKind → ℕ
  virtToPhys : ℕ → ℕ

/-- The address of an array entry. -/
def InputLayout.event (L : InputLayout) (k : InputKind) (j : ℕ) : ℕ :=
  L.events k + inputEventBytes * j

/-- The variables of the driver, and what `process_event` works on. -/
structure VirtioInput (σ : Type) where
  vq : InputKind → Virtqueue
  initialized : InputKind → Bool
  state : σ

/-- A queue structure that was never set up. -/
def Virtqueue.blank : Virtqueue :=
  { layout := ⟨0, 0, 0, 0⟩
    desc := fun _ => ⟨0, 0, 0, 0⟩
    availIdx := 0
    availRing := fun _ => 0
    usedIdx := 0
    usedRing := fun _ => ⟨0, 0⟩
    num := 0
    lastUsedIdx := 0
    freeHead := 0
    numFree := 0 }

/-- The driver before `virtio_input_init`. -/
def VirtioInput.boot {σ : Type} (s : σ) : VirtioInput σ :=
  ⟨fun _ => Virtqueue.blank, fun _ => false, s⟩

section

variable {σ : Type} (L : InputLayout) (process : σ → VirtioInputEvent → σ)

/-- Post one array entry. -/
def postEvent (k : InputKind) (q : Virtqueue) (j : ℕ) : Virtqueue :=
  (q.virtqueueAddBuf L.virtToPhys (L.event k j) inputEventBytes true).1

/-- Post the whole array. -/
def postEvents (k : InputKind) (q : Virtqueue) : Virtqueue :=
  (List.range 32).foldl (postEvent L k) q

/-- Set up one device; `reported` is the queue size it reports. -/
def VirtioInput.initDevice {D : Type} [Disk D] (heap : Heap D) (drv : VirtioInput σ)
    (k : InputKind) (reported : ℕ) : Except Halt (Heap D × VirtioInput σ) :=
  match virtqueueInit heap reported with
  | .error e => .error e
  | .ok (heap, out) =>
    let q := (out.map Prod.fst).getD (drv.vq k)
    .ok (heap, { drv with
      vq := Function.update drv.vq k (postEvents L k q)
      initialized := Function.update drv.initialized k true })

/-- What the driver reads of a device on the bus. -/
structure PciDevice where
  vendorId : ℕ
  deviceId : ℕ
  queueSize : ℕ

/-- The loop of `virtio_input_init` over the devices on the bus. -/
def VirtioInput.initLoop {D : Type} [Disk D] :
    List PciDevice → ℕ → Heap D → VirtioInput σ → Except Halt (Heap D × VirtioInput σ × ℕ)
  | [], found, heap, drv => .ok (heap, drv, found)
  | dev :: devs, found, heap, drv =>
    if dev.vendorId = 0x1AF4 ∧ dev.deviceId = 0x1052 then
      if found = 0 then
        match drv.initDevice L heap .keyboard dev.queueSize with
        | .error e => .error e
        | .ok (heap, drv) => initLoop devs (found + 1) heap drv
      else if found = 1 then
        match drv.initDevice L heap .mouse dev.queueSize with
        | .error e => .error e
        | .ok (heap, drv) => initLoop devs (found + 1) heap drv
      else initLoop devs (found + 1) heap drv
    else initLoop devs found heap drv

/-- `virtio_input_init`: 0, or -1 if no device was found. -/
def VirtioInput.virtioInputInit {D : Type} [Disk D] (heap : Heap D) (drv : VirtioInput σ)
    (devs : List PciDevice) : Except Halt (Heap D × VirtioInput σ × ℤ) :=
  match drv.initLoop L devs 0 heap with
  | .error e => .error e
  | .ok (heap, drv, found) => .ok (heap, drv, if found = 0 then -1 else 0)

/-- The loop of `virtio_input_poll` for one device. There are `2 ^ 16` values of the index it
runs along. -/
def pollLoop (k : InputKind) (mem : ℕ → VirtioInputEvent) :
    ℕ → Virtqueue → σ → Except Halt (Virtqueue × σ)
  | 0, _, _ => .error .diverged
  | fuel + 1, q, s =>
    match q.virtqueueGetBuf with
    | .error e => .error e
    | .ok (q, idx, _) =>
      if 0 ≤ idx then
        let j := idx.toNat % 32
        let s := process s (mem (L.virtToPhys (L.event k j)))
        pollLoop k mem fuel (postEvent L k q j) s
      else .ok (q, s)

/-- One half of `virtio_input_poll`. -/
def VirtioInput.pollDevice (mem : ℕ → VirtioInputEvent) (drv : VirtioInput σ) (k : InputKind) :
    Except Halt (VirtioInput σ) :=
  if drv.initialized k then
    match pollLoop L process k mem 65536 (drv.vq k) drv.state with
    | .error e => .error e
    | .ok (q, s) => .ok { drv with vq := Function.update drv.vq k q, state := s }
  else .ok drv

/-- `virtio_input_poll` with any function in the place of `process_event`. -/
def VirtioInput.pollWith (mem : ℕ → VirtioInputEvent) (drv : VirtioInput σ) :
    Except Halt (VirtioInput σ) :=
  match drv.pollDevice L process mem .keyboard with
  | .error e => .error e
  | .ok drv => drv.pollDevice L process mem .mouse

end

/-- `virtio_input_poll` -/
def VirtioInput.virtioInputPoll (L : InputLayout) (mem : ℕ → VirtioInputEvent)
    (drv : VirtioInput InputState) : Except Halt (VirtioInput InputState) :=
  drv.pollWith L processEvent mem

end PenOS
