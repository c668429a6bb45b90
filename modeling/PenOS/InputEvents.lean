import PenOS.HeapSafe
import PenOS.InputQueue

/-!
# No input event is lost, duplicated or misread

A device may complete any posted buffer at any time between two polls; the poll finds exactly what
was completed since the last one. `process_event` is left open. The device counts its slots modulo
the size the driver uses: `virtqueue_init` takes 128 where a larger size is reported, and a device
that goes on with its own size is not modelled.
-/

namespace PenOS

open List

variable {σ : Type} {L : InputLayout} {process : σ → VirtioInputEvent → σ} {k : InputKind}
  {q : Virtqueue}

/-! ## Driver and devices -/

/-- The driver with its devices. -/
structure InputWorld (σ : Type) where
  drv : VirtioInput σ
  /-- the memory of the events, by physical addresses -/
  mem : ℕ → VirtioInputEvent
  feed : InputKind → InputFeed

/-- The driver as `virtio_input_init` leaves it. -/
def InputWorld.start (drv : VirtioInput σ) (mem : ℕ → VirtioInputEvent) : InputWorld σ :=
  ⟨drv, mem, fun _ => ⟨[], 0⟩⟩

/-- A device writes an event to a posted buffer, and completes it. -/
def InputWorld.complete (w : InputWorld σ) (k : InputKind) (d len : ℕ) (evt : VirtioInputEvent) :
    InputWorld σ :=
  { drv := { w.drv with vq := Function.update w.drv.vq k ((w.drv.vq k).complete d len) }
    mem := Function.update w.mem ((w.drv.vq k).desc d).addr evt
    feed := Function.update w.feed k
      { w.feed k with completed := (w.feed k).completed ++ [(⟨d, len⟩, evt)] } }

/-- One action of the driver, of a device, or of the rest of the kernel. -/
inductive InputStep (L : InputLayout) (process : σ → VirtioInputEvent → σ) :
    InputWorld σ → InputWorld σ → Prop where
  /-- a device completes a buffer that is posted and not completed yet -/
  | complete {w : InputWorld σ} (k : InputKind) {d : ℕ} (len : ℕ) (evt : VirtioInputEvent)
      (hon : w.drv.initialized k = true) (hlt : d < (w.drv.vq k).num)
      (hposted : d ∉ (w.drv.vq k).freeList) (hopen : d ∉ (w.feed k).ids) :
      InputStep L process w (w.complete k d len evt)
  /-- `virtio_input_poll` -/
  | poll {w : InputWorld σ} {drv' : VirtioInput σ} (h : w.drv.pollWith L process w.mem = .ok drv') :
      InputStep L process w
        { w with
          drv := drv'
          feed := fun k => { w.feed k with taken := (w.feed k).completed.length } }
  /-- characters are read from the keyboard buffer, and so on -/
  | elsewhere {w : InputWorld σ} (s : σ) :
      InputStep L process w { w with drv := { w.drv with state := s } }

/-- Runs of driver and devices. -/
abbrev InputRun (L : InputLayout) (process : σ → VirtioInputEvent → σ) :
    InputWorld σ → InputWorld σ → Prop := Relation.ReflTransGen (InputStep L process)

/-- The next poll does what it should: each posted descriptor points at its array entry, each event
completed since the last poll is processed once, in order and as written, and the same buffers are
posted again. -/
def InputWorld.Delivers (L : InputLayout) (process : σ → VirtioInputEvent → σ)
    (w : InputWorld σ) : Prop :=
  (∀ k, w.drv.initialized k = true → ∀ d < (w.drv.vq k).num, d ∉ (w.drv.vq k).freeList →
    (w.drv.vq k).desc d = L.desc k d) ∧
  ∃ drv', w.drv.pollWith L process w.mem = .ok drv' ∧
    drv'.state = (w.feed .mouse).events.foldl process
      ((w.feed .keyboard).events.foldl process w.drv.state) ∧
    ∀ k, w.drv.initialized k = true →
      (drv'.vq k).lastUsedIdx = (drv'.vq k).usedIdx ∧
      (drv'.vq k).freeList = (w.drv.vq k).freeList ∧
      u16 (drv'.vq k).availIdx = u16 ((w.drv.vq k).availIdx + (w.feed k).pending.length)

/-! ## Both devices -/

namespace InputWorld

variable {w w' : InputWorld σ}

/-- The invariant of the world: that of each device, and one that was not found is silent. -/
structure Inv (L : InputLayout) (w : InputWorld σ) : Prop where
  on : ∀ k, w.drv.initialized k = true → InputInv L k w.mem (w.drv.vq k) (w.feed k)
  off : ∀ k, w.drv.initialized k = false → (w.feed k).completed = []

/-- Polling one device. -/
theorem pollDevice (process : σ → VirtioInputEvent → σ) {drv : VirtioInput σ}
    {mem : ℕ → VirtioInputEvent} {f : InputFeed}
    (hon : drv.initialized k = true → InputInv L k mem (drv.vq k) f)
    (hoff : drv.initialized k = false → f.completed = []) :
    ∃ drv', drv.pollDevice L process mem k = .ok drv' ∧ drv'.initialized = drv.initialized ∧
      (∀ k', k' ≠ k → drv'.vq k' = drv.vq k') ∧ drv'.state = f.events.foldl process drv.state ∧
      (drv.initialized k = true →
        InputInv L k mem (drv'.vq k) { f with taken := f.completed.length } ∧
        (drv'.vq k).num = (drv.vq k).num ∧ (drv'.vq k).lastUsedIdx = (drv'.vq k).usedIdx ∧
        (drv'.vq k).freeList = (drv.vq k).freeList ∧
        u16 (drv'.vq k).availIdx = u16 ((drv.vq k).availIdx + f.pending.length)) := by
  rw [VirtioInput.pollDevice]
  cases hk : drv.initialized k with
  | false =>
    have hnil : f.events = [] := by
      rw [InputFeed.events, InputFeed.pending, hoff hk, drop_nil]
      rfl
    exact ⟨drv, rfl, rfl, fun _ _ => rfl, by rw [hnil]; rfl, by simp⟩
  | true =>
    have hinv := hon hk
    have hfew := hinv.length_pending_le
    obtain ⟨q', hrun, hinv', hnum, heq, hfree, havail⟩ :=
      hinv.pollLoop drv.state (show f.pending.length < 65536 by omega)
    rw [if_pos rfl, hrun]
    refine ⟨_, rfl, rfl, fun k' hk' => Function.update_of_ne hk' _ _, rfl, fun _ => ?_⟩
    dsimp only
    rw [Function.update_self]
    exact ⟨hinv', hnum, heq, hfree, havail⟩

/-- **Polling both devices.** -/
theorem Inv.poll (hw : w.Inv L) (process : σ → VirtioInputEvent → σ) : w.Delivers L process ∧
    ∀ drv', w.drv.pollWith L process w.mem = .ok drv' → Inv L { w with
        drv := drv'
        feed := fun k => { w.feed k with taken := (w.feed k).completed.length } } ∧
      drv'.initialized = w.drv.initialized ∧
      ∀ k, w.drv.initialized k = true → (drv'.vq k).num = (w.drv.vq k).num := by
  obtain ⟨drv1, hrun1, hinit1, hsame1, hstate1, hdone1⟩ :=
    pollDevice process (hw.on .keyboard) (hw.off .keyboard)
  have hmouse : drv1.vq .mouse = w.drv.vq .mouse := hsame1 .mouse (by decide)
  have hon : drv1.initialized .mouse = true →
      InputInv L .mouse w.mem (drv1.vq .mouse) (w.feed .mouse) := by
    rw [hinit1, hmouse]
    exact hw.on .mouse
  have hoff : drv1.initialized .mouse = false → (w.feed .mouse).completed = [] := by
    rw [hinit1]
    exact hw.off .mouse
  obtain ⟨drv2, hrun2, hinit2, hsame2, hstate2, hdone2⟩ := pollDevice process hon hoff
  have hkeyboard : drv2.vq .keyboard = drv1.vq .keyboard := hsame2 .keyboard (by decide)
  rw [hinit1, hmouse] at hdone2
  have hrun : w.drv.pollWith L process w.mem = .ok drv2 := by
    rw [VirtioInput.pollWith, hrun1]
    exact hrun2
  rw [hstate1] at hstate2
  rw [← hkeyboard] at hdone1
  refine ⟨⟨fun k hk d hd hfree => ?_, drv2, hrun, hstate2, fun k hk => ?_⟩, fun drv' hdrv => ?_⟩
  · have hposts := (hw.on k hk).posts
    exact hposts.desc d (hposts.inFlight_iff.mp ⟨hd, hfree⟩)
  · cases k with
    | keyboard => exact (hdone1 hk).2.2
    | mouse => exact (hdone2 hk).2.2
  · obtain rfl := Except.ok.inj (hrun.symm.trans hdrv)
    have hinit : drv2.initialized = w.drv.initialized := hinit2.trans hinit1
    refine ⟨⟨fun k hk => ?_, fun k hk => ?_⟩, hinit, fun k hk => ?_⟩
    · rw [hinit] at hk
      cases k with
      | keyboard => exact (hdone1 hk).1
      | mouse => exact (hdone2 hk).1
    · rw [hinit] at hk
      exact hw.off k hk
    · cases k with
      | keyboard => exact (hdone1 hk).2.1
      | mouse => exact (hdone2 hk).2.1

@[simp] theorem complete_vq (d len : ℕ) (evt : VirtioInputEvent) :
    (w.complete k d len evt).drv.vq k = (w.drv.vq k).complete d len := Function.update_self ..

@[simp] theorem complete_feed (d len : ℕ) (evt : VirtioInputEvent) :
    (w.complete k d len evt).feed k =
      { w.feed k with completed := (w.feed k).completed ++ [(⟨d, len⟩, evt)] } :=
  Function.update_self ..

theorem complete_of_ne {k' : InputKind} (hne : k' ≠ k) (d len : ℕ) (evt : VirtioInputEvent) :
    (w.complete k d len evt).drv.vq k' = w.drv.vq k' ∧
      (w.complete k d len evt).feed k' = w.feed k' :=
  ⟨Function.update_of_ne hne _ _, Function.update_of_ne hne _ _⟩

/-- **One device completes a buffer.** -/
theorem Inv.complete (hw : w.Inv L) (hL : L.Apart) {d : ℕ} (len : ℕ) (evt : VirtioInputEvent)
    (hon : w.drv.initialized k = true) (hd : d < min 32 (w.drv.vq k).num)
    (hopen : d ∉ (w.feed k).ids)
    (hslot : ∀ i, (w.feed k).taken ≤ i → i < (w.feed k).completed.length →
      ringSlot 65536 (w.drv.vq k).num i ≠
        ringSlot 65536 (w.drv.vq k).num (w.feed k).completed.length) :
    (w.complete k d len evt).Inv L := by
  have hk := hw.on k hon
  refine ⟨fun k' hk' => ?_, fun k' hk' => ?_⟩
  · rcases eq_or_ne k' k with rfl | hne
    · rw [complete_vq, complete_feed]
      exact hk.complete hL hd hopen hslot
    · rw [(complete_of_ne hne d len evt).1, (complete_of_ne hne d len evt).2]
      refine (hw.on k' hk').mem_congr fun j hj => Function.update_of_ne ?_ _ _
      rw [hk.posts.desc d hd]
      exact fun heq => hne (hL k' k j d hj (by omega) heq).1
  · have hne : k' ≠ k := by
      rintro rfl
      cases hon.symm.trans hk'
    rw [(complete_of_ne hne d len evt).2]
    exact hw.off k' hk'

theorem Inv.step (hw : w.Inv L) (hL : L.Apart)
    (hslots : ∀ k, w.drv.initialized k = true → SlotsApart (w.drv.vq k).num)
    (hstep : InputStep L process w w') :
    w'.Inv L ∧ ∀ k, w'.drv.initialized k = true → SlotsApart (w'.drv.vq k).num := by
  cases hstep with
  | complete k len evt hon hlt hposted hopen =>
    have hk := hw.on k hon
    have hd := hk.posts.inFlight_iff.mp ⟨hlt, hposted⟩
    refine ⟨hw.complete hL len evt hon hd hopen (hk.slot_ne (hslots k hon) hd hopen),
      fun k' hk' => ?_⟩
    rcases eq_or_ne k' k with rfl | hne
    · rw [complete_vq]
      exact hslots k' hon
    · rw [(complete_of_ne hne _ len evt).1]
      exact hslots k' hk'
  | poll h =>
    obtain ⟨hinv, hinit, hnum⟩ := (hw.poll process).2 _ h
    refine ⟨hinv, fun k hk => ?_⟩
    rw [hinit] at hk
    rw [hnum k hk]
    exact hslots k hk
  | elsewhere s => exact ⟨⟨hw.on, hw.off⟩, hslots⟩

theorem Inv.run (hw : w.Inv L) (hL : L.Apart)
    (hslots : ∀ k, w.drv.initialized k = true → SlotsApart (w.drv.vq k).num)
    (hrun : InputRun L process w w') : w'.Inv L := by
  have hboth : w'.Inv L ∧ ∀ k, w'.drv.initialized k = true → SlotsApart (w'.drv.vq k).num := by
    induction hrun with
    | refl => exact ⟨hw, hslots⟩
    | tail _ hstep ih => exact ih.1.step hL ih.2 hstep
  exact hboth.1

end InputWorld

/-! ## From the start -/

/-- A queue as `virtio_input_init` leaves it. -/
structure InputReady (L : InputLayout) (k : InputKind) (q : Virtqueue) : Prop where
  num_le : q.num ≤ virtqueueSize
  posts : Posts L k q (min 32 q.num)
  usedIdx : q.usedIdx = 0
  lastUsedIdx : q.lastUsedIdx = 0

theorem InputReady.of_setup (layout : RingLayout) {num : ℕ} (hle : num ≤ virtqueueSize) :
    InputReady L k (postEvents L k (Virtqueue.setup layout num)) := by
  obtain ⟨hposts, hnum, hidx, hlast⟩ := (Posts.setup (L := L) (k := k) layout num).postEvents
  exact ⟨hnum.trans_le hle, by rwa [hnum], hidx, hlast⟩

theorem InputReady.of_blank : InputReady L k (postEvents L k Virtqueue.blank) := by
  have h : Posts L k Virtqueue.blank 0 :=
    ⟨le_rfl, fun d hd => absurd hd (Nat.not_lt_zero d),
      fun d _ hd => absurd hd (Nat.not_lt_zero _), fun hlt => absurd hlt (Nat.lt_irrefl 0), rfl⟩
  obtain ⟨hposts, hnum, hidx, hlast⟩ := h.postEvents
  exact ⟨hnum.trans_le (Nat.zero_le _), by rwa [hnum], hidx, hlast⟩

/-- What holds while the devices on the bus are looked at. -/
structure InputInit (L : InputLayout) (drv : VirtioInput σ) (found : ℕ) : Prop where
  ready : ∀ k, drv.initialized k = true → InputReady L k (drv.vq k)
  keyboard : found = 0 → drv.vq .keyboard = Virtqueue.blank
  mouse : found ≤ 1 → drv.vq .mouse = Virtqueue.blank

section

variable {D : Type} [Disk D] {heap heap' : Heap D} {drv drv' : VirtioInput σ}

/-- Setting up one device. -/
theorem InputReady.initDevice {reported : ℕ} (hblank : drv.vq k = Virtqueue.blank)
    (h : drv.initDevice L heap k reported = .ok (heap', drv')) : InputReady L k (drv'.vq k) ∧
      ∀ k', k' ≠ k → drv'.vq k' = drv.vq k' ∧ drv'.initialized k' = drv.initialized k' := by
  rw [VirtioInput.initDevice] at h
  rcases hq : virtqueueInit heap reported with e | ⟨heap1, out⟩
  · rw [hq] at h
    cases h
  · rw [hq] at h
    cases h
    refine ⟨?_, fun k' hk' => ⟨Function.update_of_ne hk' _ _, Function.update_of_ne hk' _ _⟩⟩
    dsimp only
    rw [Function.update_self, hblank]
    cases out with
    | none => exact InputReady.of_blank
    | some v =>
      obtain ⟨q, pfn⟩ := v
      obtain ⟨layout, rfl⟩ := virtqueueInit_setup hq
      exact InputReady.of_setup layout (queueSizeOf_bounds reported).2

/-- The loop over the devices. -/
theorem InputInit.initLoop {devs : List PciDevice} {found found' : ℕ} (hi : InputInit L drv found)
    (h : drv.initLoop L devs found heap = .ok (heap', drv', found')) : InputInit L drv' found' := by
  induction devs generalizing found heap drv with
  | nil =>
    obtain ⟨-, hrest⟩ := ok_pair h
    cases hrest
    exact hi
  | cons dev devs ih =>
    rw [VirtioInput.initLoop] at h
    split_ifs at h with hdev hzero hone
    · rcases hd : drv.initDevice L heap .keyboard dev.queueSize with e | ⟨heap1, drv1⟩
      · rw [hd] at h
        cases h
      · rw [hd] at h
        obtain ⟨hready, hother⟩ := InputReady.initDevice (hi.keyboard hzero) hd
        refine ih ⟨fun k hk => ?_, fun hf => absurd hf (Nat.succ_ne_zero _), fun _ => ?_⟩ h
        · cases k with
          | keyboard => exact hready
          | mouse =>
            obtain ⟨hvq, hinit⟩ := hother .mouse (by decide)
            rw [hinit] at hk
            rw [hvq]
            exact hi.ready .mouse hk
        · rw [(hother .mouse (by decide)).1]
          exact hi.mouse (by omega)
    · rcases hd : drv.initDevice L heap .mouse dev.queueSize with e | ⟨heap1, drv1⟩
      · rw [hd] at h
        cases h
      · rw [hd] at h
        obtain ⟨hready, hother⟩ := InputReady.initDevice (hi.mouse (by omega)) hd
        refine ih ⟨fun k hk => ?_, fun hf => absurd hf (Nat.succ_ne_zero _),
          fun hf => absurd hf (by omega)⟩ h
        cases k with
        | mouse => exact hready
        | keyboard =>
          obtain ⟨hvq, hinit⟩ := hother .keyboard (by decide)
          rw [hinit] at hk
          rw [hvq]
          exact hi.ready .keyboard hk
    · exact ih ⟨hi.ready, fun hf => absurd hf (Nat.succ_ne_zero _),
        fun hf => absurd hf (by omega)⟩ h
    · exact ih hi h

theorem InputWorld.inv_start (mem : ℕ → VirtioInputEvent) {devs : List PciDevice} {s : σ} {r : ℤ}
    (hinit : (VirtioInput.boot s).virtioInputInit L heap devs = .ok (heap', drv, r))
    (hmem : ∀ k, drv.initialized k = true → 0 < (drv.vq k).num) :
    (InputWorld.start drv mem).Inv L := by
  rw [VirtioInput.virtioInputInit] at hinit
  rcases hloop : (VirtioInput.boot s).initLoop L devs 0 heap with e | ⟨heap1, drv1, found⟩
  · rw [hloop] at hinit
    cases hinit
  rw [hloop] at hinit
  obtain ⟨-, hrest⟩ := ok_pair hinit
  obtain ⟨rfl, -⟩ := Prod.mk.inj hrest
  have hboot : InputInit L (VirtioInput.boot s) 0 :=
    ⟨by simp [VirtioInput.boot], fun _ => rfl, fun _ => rfl⟩
  refine ⟨fun k hk => ?_, fun _ _ => rfl⟩
  have hready := (hboot.initLoop hloop).ready k hk
  refine ⟨hmem k hk, hready.num_le, hready.posts, le_rfl, ?_, nodup_nil,
    fun e he => absurd he not_mem_nil⟩
  change Carries 65536 (drv1.vq k).num (drv1.vq k).usedRing (drv1.vq k).usedIdx
    (drv1.vq k).lastUsedIdx [] []
  rw [hready.usedIdx, hready.lastUsedIdx]
  exact Carries.empty (by decide) _

/-- **No input event is lost, duplicated or misread**, whatever the devices complete between two
polls, if the slots of the used rings do not jump at the wrap. -/
theorem input_events_delivered {devs : List PciDevice} {s : σ} {r : ℤ}
    {mem : ℕ → VirtioInputEvent} {w : InputWorld σ} (hL : L.Apart)
    (hinit : (VirtioInput.boot s).virtioInputInit L heap devs = .ok (heap', drv, r))
    (hmem : ∀ k, drv.initialized k = true → 0 < (drv.vq k).num)
    (hslots : ∀ k, drv.initialized k = true → SlotsApart (drv.vq k).num)
    (hrun : InputRun L process (InputWorld.start drv mem) w) : w.Delivers L process :=
  (((InputWorld.inv_start mem hinit hmem).run hL hslots hrun).poll process).1

end

/-- **`virtio_input_poll`** takes a poll step, with `process_event` for the events. -/
theorem InputWorld.Inv.virtioInputPoll {w : InputWorld InputState} (hw : w.Inv L) :
    ∃ drv', w.drv.virtioInputPoll L w.mem = .ok drv' ∧
      InputStep L processEvent w
        { w with
          drv := drv'
          feed := fun k => { w.feed k with taken := (w.feed k).completed.length } } ∧
      drv'.state = ((w.feed .keyboard).events ++ (w.feed .mouse).events).foldl processEvent
        w.drv.state := by
  obtain ⟨-, drv', hpoll, hstate, -⟩ := (hw.poll processEvent).1
  exact ⟨drv', hpoll, .poll hpoll, hstate.trans foldl_append.symm⟩

/-! ## Two runs -/

/-- Arrays at fixed places. -/
def plainLayout : InputLayout := ⟨fun k => if k = .keyboard then 0 else 4096, id⟩

theorem plainLayout_apart : plainLayout.Apart := by
  intro k k' j j' hj hj' heq
  simp only [plainLayout, InputLayout.event, inputEventBytes, id] at heq
  cases k <;> cases k' <;> simp at heq ⊢ <;> omega

/-- Keep a log of the events processed. -/
def logEvent (log : List VirtioInputEvent) (evt : VirtioInputEvent) : List VirtioInputEvent :=
  log ++ [evt]

theorem exists_keyboard (size : ℕ) (h : (smallHeap.bind fun heap =>
      ((VirtioInput.boot ([] : List VirtioInputEvent)).virtioInputInit plainLayout heap
        [⟨0x1AF4, 0x1052, size⟩]).toOption.map fun out =>
          (out.2.1.initialized .keyboard, out.2.1.initialized .mouse, (out.2.1.vq .keyboard).num)) =
      some (true, false, size)) :
    ∃ (heap heap' : Heap DiskImage) (drv : VirtioInput (List VirtioInputEvent)) (r : ℤ),
      (VirtioInput.boot []).virtioInputInit plainLayout heap [⟨0x1AF4, 0x1052, size⟩] =
        .ok (heap', drv, r) ∧ drv.initialized .keyboard = true ∧ drv.initialized .mouse = false ∧
      (drv.vq .keyboard).num = size ∧ ∀ k, drv.initialized k = true → (drv.vq k).num = size := by
  obtain ⟨heap, -, h⟩ := Option.bind_eq_some_iff.mp h
  obtain ⟨⟨heap', drv, r⟩, hinit, hvals⟩ := Option.map_eq_some_iff.mp h
  obtain ⟨hkey, hmouse, hnum⟩ : drv.initialized .keyboard = true ∧
      drv.initialized .mouse = false ∧ (drv.vq .keyboard).num = size := by simpa using hvals
  refine ⟨heap, heap', drv, r, ok_of_toOption hinit, hkey, hmouse, hnum, fun k hk => ?_⟩
  cases k with
  | keyboard => exact hnum
  | mouse => cases hmouse.symm.trans hk

theorem input_events_delivered_four :
    ∃ (drv : VirtioInput (List VirtioInputEvent)) (w : InputWorld (List VirtioInputEvent)),
      InputRun plainLayout logEvent (InputWorld.start drv fun _ => ⟨0, 0, 0⟩) w ∧
      (w.feed .keyboard).events = [⟨1, 30, 1⟩] ∧ w.Delivers plainLayout logEvent := by
  obtain ⟨heap, heap', drv, r, hinit, hkey, -, hnum, hall⟩ :=
    exists_keyboard 4 (by decide +kernel)
  have hmem : ∀ k, drv.initialized k = true → 0 < (drv.vq k).num := by
    intro k hk
    rw [hall k hk]
    decide
  have hslots : ∀ k, drv.initialized k = true → SlotsApart (drv.vq k).num := by
    intro k hk
    rw [hall k hk]
    exact Or.inl (by decide)
  have hw := InputWorld.inv_start (fun _ => ⟨0, 0, 0⟩) hinit hmem
  have hposted := ((hw.on .keyboard hkey).posts.inFlight_iff (d := 0)).mpr
    (by change 0 < min 32 (drv.vq .keyboard).num; rw [hnum]; decide)
  have hrun : InputRun plainLayout logEvent _ _ := Relation.ReflTransGen.single
    (.complete .keyboard 8 ⟨1, 30, 1⟩ hkey hposted.1 hposted.2 not_mem_nil)
  exact ⟨drv, _, hrun, by rw [InputFeed.events, InputFeed.pending, InputWorld.complete_feed]; rfl,
    input_events_delivered plainLayout_apart hinit hmem hslots hrun⟩

section

variable {w : InputWorld σ}

theorem exists_drained (hL : L.Apart) (process : σ → VirtioInputEvent → σ) (hw : w.Inv L)
    (hon : w.drv.initialized .keyboard = true) (hnone : w.feed .keyboard = ⟨[], 0⟩) (n : ℕ) :
    ∃ w', InputRun L process w w' ∧ w'.Inv L ∧ w'.drv.initialized = w.drv.initialized ∧
      (w'.drv.vq .keyboard).num = (w.drv.vq .keyboard).num ∧
      (w'.feed .keyboard).completed.length = n ∧ (w'.feed .keyboard).taken = n := by
  induction n with
  | zero => exact ⟨w, .refl, hw, rfl, rfl, by rw [hnone]; rfl, by rw [hnone]⟩
  | succ n ih =>
    obtain ⟨w1, hrun1, hw1, hinit1, hnum1, hlen1, htaken1⟩ := ih
    have hon1 : w1.drv.initialized .keyboard = true := by rw [hinit1, hon]
    have hinv := hw1.on .keyboard hon1
    have hd : 0 < min 32 (w1.drv.vq .keyboard).num := Nat.lt_min.mpr ⟨by decide, hinv.num_pos⟩
    have hopen : 0 ∉ (w1.feed .keyboard).ids := by
      rw [InputFeed.ids, InputFeed.pending, htaken1, drop_of_length_le hlen1.le]
      exact not_mem_nil
    obtain ⟨hlt, hposted⟩ := hinv.posts.inFlight_iff.mpr hd
    have hw2 := hw1.complete hL 8 ⟨0, 0, 0⟩ hon1 hd hopen
      fun i hi hlt => absurd hi (by omega)
    obtain ⟨⟨-, drv3, hpoll, -⟩, hkeep⟩ := hw2.poll process
    obtain ⟨hw3, hinit3, hnum3⟩ := hkeep drv3 hpoll
    refine ⟨_, (hrun1.tail (.complete .keyboard 8 ⟨0, 0, 0⟩ hon1 hlt hposted hopen)).tail
      (.poll hpoll), hw3, hinit3.trans hinit1, ?_, ?_, ?_⟩
    · refine (hnum3 .keyboard hon1).trans ?_
      rw [InputWorld.complete_vq]
      exact hnum1
    · dsimp only
      rw [InputWorld.complete_feed, length_append, hlen1]
      rfl
    · dsimp only
      rw [InputWorld.complete_feed, length_append, hlen1]
      rfl

theorem pollLoop_collision (process : σ → VirtioInputEvent → σ) (mem : ℕ → VirtioInputEvent)
    (s : σ) (hposts : Posts L k q 3)
    (hnum : q.num = 3) (hidx : q.usedIdx = 65535) (hlast : q.lastUsedIdx = 65535) :
    ∃ q', pollLoop L process k mem 65536 ((q.complete 0 8).complete 1 8) s =
      .ok (q', process (process s (mem (L.virtToPhys (L.event k 1))))
        (mem (L.virtToPhys (L.event k 1)))) := by
  have hposts2 : Posts L k ((q.complete 0 8).complete 1 8) 3 :=
    ⟨hposts.le, hposts.desc, hposts.link, hposts.head, hposts.free⟩
  have hused : ((q.complete 0 8).complete 1 8).usedIdx = 1 := by
    simp only [Virtqueue.complete, hidx]
    rfl
  have hslot : ((q.complete 0 8).complete 1 8).usedRing 0 = ⟨1, 8⟩ := by
    simp only [Virtqueue.complete, hidx, hnum]
    exact Function.update_self ..
  generalize hq2 : (q.complete 0 8).complete 1 8 = q2 at hposts2 hused hslot
  have hnum2 : q2.num = 3 := by rw [← hq2]; exact hnum
  have hlast2 : q2.lastUsedIdx = 65535 := by rw [← hq2]; exact hlast
  have hle : q2.num ≤ virtqueueSize := by rw [hnum2]; decide
  have hnext : q2.nextUsed.id = 1 := by rw [Virtqueue.nextUsed, hlast2, hnum2, hslot]
  have hnext' : (q2.recycle 1).nextUsed.id = 1 := by
    change (q2.usedRing (u16 (q2.lastUsedIdx + 1) % q2.num)).id = 1
    rw [hlast2, hnum2]
    exact congrArg VringUsedElem.id hslot
  refine ⟨(q2.recycle 1).recycle 1, ?_⟩
  rw [show 65536 = 65533 + 1 + 1 + 1 from rfl,
    hposts2.pollLoop_round hle (by decide) (by rw [hlast2, hused]; decide) (by rw [hnext]; decide),
    hnext, hposts2.recycle.pollLoop_round hle (by decide) ?_ (by rw [hnext']; decide), hnext',
    pollLoop_done]
  · change u16 (u16 (q2.lastUsedIdx + 1) + 1) = q2.usedIdx
    rw [hlast2, hused]
    rfl
  · change u16 (q2.lastUsedIdx + 1) ≠ q2.usedIdx
    rw [hlast2, hused]
    decide

theorem exists_not_delivers {w : InputWorld (List VirtioInputEvent)} (hw : w.Inv L)
    (hon : w.drv.initialized .keyboard = true) (hoff : w.drv.initialized .mouse = false)
    (hnum : (w.drv.vq .keyboard).num = 3) (hlen : (w.feed .keyboard).completed.length = 65535)
    (htaken : (w.feed .keyboard).taken = 65535) :
    ∃ w', InputRun L logEvent w w' ∧ ¬w'.Delivers L logEvent := by
  have hinv := hw.on .keyboard hon
  have hposts : Posts L .keyboard (w.drv.vq .keyboard) 3 := by
    have h := hinv.posts
    rwa [hnum] at h
  have hpending : (w.feed .keyboard).pending = [] := by
    rw [InputFeed.pending, htaken, drop_of_length_le hlen.le]
  have hidx : (w.drv.vq .keyboard).usedIdx = 65535 := by
    rw [hinv.used.writeIdx_eq, length_map, hlen]
  have hlast : (w.drv.vq .keyboard).lastUsedIdx = 65535 := by
    rw [hinv.used.readIdx_eq, length_take, length_map, hlen, htaken, Nat.min_self]
  have hopen : 0 ∉ (w.feed .keyboard).ids := by
    rw [InputFeed.ids, hpending]
    exact not_mem_nil
  obtain ⟨hlt, hposted⟩ := hposts.inFlight_iff.mpr (show 0 < 3 by decide)
  obtain ⟨hlt', hposted'⟩ := hposts.inFlight_iff.mpr (show 1 < 3 by decide)
  have hpending1 : ((w.complete .keyboard 0 8 ⟨1, 30, 1⟩).feed .keyboard).pending =
      [(⟨0, 8⟩, ⟨1, 30, 1⟩)] := by
    rw [InputWorld.complete_feed, InputFeed.pending_append hinv.taken_le, hpending]
    rfl
  let w2 := (w.complete .keyboard 0 8 ⟨1, 30, 1⟩).complete .keyboard 1 8 ⟨1, 48, 1⟩
  have hrun : InputRun L logEvent w w2 := by
    refine (Relation.ReflTransGen.single (.complete .keyboard 8 _ hon hlt hposted hopen)).tail
      (.complete .keyboard 8 _ hon ?_ ?_ ?_)
    · rw [InputWorld.complete_vq]
      exact hlt'
    · rw [InputWorld.complete_vq]
      exact hposted'
    · rw [InputFeed.ids, hpending1]
      decide
  have hkeys : (w2.feed .keyboard).events = [⟨1, 30, 1⟩, ⟨1, 48, 1⟩] := by
    rw [InputWorld.complete_feed, InputFeed.events, InputFeed.pending_append, hpending1]
    · rfl
    · rw [InputWorld.complete_feed, length_append]
      exact Nat.le_add_right_of_le hinv.taken_le
  have hmouse : (w2.feed .mouse).events = [] := by
    have hnone : (w2.feed .mouse).completed = [] := by
      have hne : InputKind.mouse ≠ .keyboard := by decide
      rw [(InputWorld.complete_of_ne hne _ _ _).2, (InputWorld.complete_of_ne hne _ _ _).2]
      exact hw.off .mouse hoff
    rw [InputFeed.events, InputFeed.pending, hnone, drop_nil]
    rfl
  have hvq : w2.drv.vq .keyboard = ((w.drv.vq .keyboard).complete 0 8).complete 1 8 := by
    rw [InputWorld.complete_vq, InputWorld.complete_vq]
  have hbuf : w2.mem (L.virtToPhys (L.event .keyboard 1)) = ⟨1, 48, 1⟩ := by
    have haddr : (((w.complete .keyboard 0 8 ⟨1, 30, 1⟩).drv.vq .keyboard).desc 1).addr =
        L.virtToPhys (L.event .keyboard 1) := by
      rw [InputWorld.complete_vq]
      exact congrArg VringDesc.addr (hposts.desc 1 (by decide))
    rw [← haddr]
    exact Function.update_self ..
  obtain ⟨q', hloop⟩ := pollLoop_collision logEvent w2.mem w2.drv.state hposts hnum hidx hlast
  refine ⟨w2, hrun, ?_⟩
  rintro ⟨-, drv', hpoll, hstate, -⟩
  have hon2 : w2.drv.initialized .keyboard = true := hon
  have hoff2 : w2.drv.initialized .mouse = false := hoff
  rw [VirtioInput.pollWith, VirtioInput.pollDevice, if_pos hon2, hvq, hloop] at hpoll
  dsimp only at hpoll
  rw [VirtioInput.pollDevice, if_neg (by rw [hoff2]; decide)] at hpoll
  cases hpoll
  rw [hkeys, hmouse, hbuf] at hstate
  simp [logEvent] at hstate

end

/-- Three descriptors and two events around the wrap of the index: the first is lost, the second
processed twice. -/
theorem input_event_lost_at_wrap :
    ∃ (heap heap' : Heap DiskImage) (drv : VirtioInput (List VirtioInputEvent)) (r : ℤ)
      (w : InputWorld (List VirtioInputEvent)), plainLayout.Apart ∧
      (VirtioInput.boot []).virtioInputInit plainLayout heap [⟨0x1AF4, 0x1052, 3⟩] =
        .ok (heap', drv, r) ∧ (∀ k, drv.initialized k = true → 0 < (drv.vq k).num) ∧
      InputRun plainLayout logEvent (InputWorld.start drv fun _ => ⟨0, 0, 0⟩) w ∧
      ¬w.Delivers plainLayout logEvent := by
  obtain ⟨heap, heap', drv, r, hinit, hkey, hmouse, hnum, hall⟩ :=
    exists_keyboard 3 (by decide +kernel)
  have hmem : ∀ k, drv.initialized k = true → 0 < (drv.vq k).num := by
    intro k hk
    rw [hall k hk]
    decide
  have hstart := InputWorld.inv_start (fun _ => ⟨0, 0, 0⟩) hinit hmem
  obtain ⟨w, hrun, hw, hsame, hnum', hlen, htaken⟩ :=
    exists_drained plainLayout_apart logEvent hstart hkey rfl 65535
  obtain ⟨w', hrun', hbad⟩ := exists_not_delivers hw (by rw [hsame]; exact hkey)
    (by rw [hsame]; exact hmouse) (hnum'.trans hnum) hlen htaken
  exact ⟨heap, heap', drv, r, w', plainLayout_apart, hinit, hmem, hrun.trans hrun', hbad⟩

end PenOS
