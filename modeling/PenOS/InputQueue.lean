import PenOS.Lib.Ring
import PenOS.VirtioInput
import PenOS.VirtqueueInv

/-!
# The queue of an input device

The driver finds the buffer of a completed event by its descriptor. That is right because a
descriptor taken back is put in front of the free list, and the same buffer gets it from there.
-/

namespace PenOS

open Function List

variable {σ : Type} {L : InputLayout} {process : σ → VirtioInputEvent → σ} {k : InputKind}
  {q q' : Virtqueue}

/-! ## Posting the array -/

/-- The descriptor that posts an array entry. -/
def InputLayout.desc (L : InputLayout) (k : InputKind) (j : ℕ) : VringDesc :=
  ⟨L.virtToPhys (L.event k j), inputEventBytes, vringDescFWrite, 0⟩

theorem postEvent_eq {j : ℕ} (hne : q.numFree ≠ 0) : postEvent L k q j = Virtqueue.publish { q with
      desc := Function.update q.desc q.freeHead (L.desc k j)
      freeHead := (q.desc q.freeHead).next
      numFree := q.numFree - 1 } q.freeHead := by
  rw [postEvent, Virtqueue.virtqueueAddBuf, if_neg hne]
  rfl

/-- The first `n` entries of the array are posted, by the descriptors of the same numbers, and
the others are free in order. -/
structure Posts (L : InputLayout) (k : InputKind) (q : Virtqueue) (n : ℕ) : Prop where
  le : n ≤ q.num
  desc : ∀ d < n, q.desc d = L.desc k d
  link : ∀ d, n ≤ d → d + 1 < q.num → (q.desc d).next = d + 1
  head : n < q.num → q.freeHead = n
  free : q.numFree = q.num - n

namespace Posts

variable {n : ℕ}

theorem freeList (h : Posts L k q n) : q.freeList = List.range' n (q.num - n) := by
  rw [Virtqueue.freeList, h.free]
  rcases Nat.lt_or_ge n q.num with hlt | hge
  · rw [h.head hlt]
    exact walk_eq_range' fun i hi hlt => h.link i hi (by omega)
  · rw [Nat.sub_eq_zero_of_le hge]
    rfl

theorem inFlight_iff (h : Posts L k q n) {d : ℕ} : d < q.num ∧ d ∉ q.freeList ↔ d < n := by
  have := h.le
  rw [h.freeList, mem_range'_1]
  omega

theorem setup (layout : RingLayout) (num : ℕ) : Posts L k (Virtqueue.setup layout num) 0 :=
  ⟨Nat.zero_le _, fun d hd => absurd hd (Nat.not_lt_zero d),
    fun _ _ hd => Virtqueue.setup_next layout hd, fun _ => rfl, rfl⟩

theorem post (h : Posts L k q n) (hlt : n < q.num) : Posts L k (postEvent L k q n) (n + 1) := by
  rw [postEvent_eq (by rw [h.free]; omega), h.head hlt]
  refine ⟨hlt, fun d hd => ?_, fun d hn hd => ?_, fun hlt' => h.link n le_rfl hlt', ?_⟩
  · rcases Nat.lt_succ_iff_lt_or_eq.mp hd with hd | rfl
    · exact (update_of_ne (by omega) _ _).trans (h.desc d hd)
    · exact update_self ..
  · refine Eq.trans ?_ (h.link d (by omega) hd)
    exact congrArg VringDesc.next (update_of_ne (by omega) _ _)
  · change q.numFree - 1 = q.num - (n + 1)
    rw [h.free]
    omega

end Posts

/-- What is not touched by posting. -/
theorem postEvent_used (L : InputLayout) (k : InputKind) (q : Virtqueue) (j : ℕ) :
    (postEvent L k q j).num = q.num ∧ (postEvent L k q j).usedIdx = q.usedIdx ∧
      (postEvent L k q j).lastUsedIdx = q.lastUsedIdx := by
  rw [postEvent, Virtqueue.virtqueueAddBuf]
  split_ifs <;> exact ⟨rfl, rfl, rfl⟩

/-- **Posting the whole array**: as many entries as there are descriptors. -/
theorem Posts.postEvents (h : Posts L k q 0) :
    Posts L k (postEvents L k q) (min 32 q.num) ∧ (PenOS.postEvents L k q).num = q.num ∧
      (PenOS.postEvents L k q).usedIdx = q.usedIdx ∧
      (PenOS.postEvents L k q).lastUsedIdx = q.lastUsedIdx := by
  rw [PenOS.postEvents]
  generalize 32 = n
  induction n with
  | zero => exact ⟨by rwa [Nat.zero_min], rfl, rfl, rfl⟩
  | succ n ih =>
    rw [range_succ, foldl_append, foldl_cons, foldl_nil]
    obtain ⟨hposts, hnum, hidx, hlast⟩ := ih
    generalize (List.range n).foldl (postEvent L k) q = q1 at hposts hnum hidx hlast
    obtain ⟨hnum', hidx', hlast'⟩ := postEvent_used L k q1 n
    refine ⟨?_, hnum'.trans hnum, hidx'.trans hidx, hlast'.trans hlast⟩
    rcases Nat.lt_or_ge n q.num with hlt | hge
    · rw [Nat.min_eq_left (by omega)] at hposts ⊢
      exact hposts.post (by omega)
    · -- no descriptor is left: nothing happens
      rw [Nat.min_eq_right (by omega)] at hposts ⊢
      have hnone : postEvent L k q1 n = q1 := by
        rw [postEvent, Virtqueue.virtqueueAddBuf, if_pos (by rw [hposts.free]; omega)]
      rwa [hnone]

/-! ## One round of the poll loop -/

/-- The queue after a completed event was taken and posted again: the descriptors are as they
were. -/
def Virtqueue.recycle (q : Virtqueue) (d : ℕ) : Virtqueue :=
  Virtqueue.publish { q with lastUsedIdx := u16 (q.lastUsedIdx + 1) } d

theorem Posts.recycle {n d : ℕ} (h : Posts L k q n) : Posts L k (q.recycle d) n :=
  ⟨h.le, h.desc, h.link, h.head, h.free⟩

/-- **The descriptor goes back to its buffer**: taking a completed event and posting its array
entry again. -/
theorem Posts.getBuf_postEvent {n : ℕ} (h : Posts L k q n) (hle : q.num ≤ virtqueueSize)
    (hn : n ≤ 32) (hne : q.lastUsedIdx ≠ q.usedIdx) (hid : q.nextUsed.id < n) :
    ∃ q', q.virtqueueGetBuf = .ok (q', (q.nextUsed.id : ℤ), some q.nextUsed.len) ∧
      postEvent L k q' q.nextUsed.id = q.recycle q.nextUsed.id := by
  generalize hd : q.nextUsed.id = d at hid
  have hsize : virtqueueSize = 128 := rfl
  have hfree : u16 (q.numFree + 1) = q.numFree + 1 := u16_of_lt (by rw [h.free]; omega)
  have hlast : q.hasNext d = false := by
    rw [Virtqueue.hasNext, h.desc d hid]
    exact decide_eq_false (show ¬(2 &&& 1 ≠ 0) by decide)
  have hloop : q.releaseLoop 65536 d = some (q.release d) := by
    rw [Virtqueue.releaseLoop, hlast]
    rfl
  refine ⟨{ q.release d with lastUsedIdx := u16 (q.lastUsedIdx + 1) }, ?_, ?_⟩
  · rw [Virtqueue.virtqueueGetBuf, if_neg hne, hd, u16_of_lt (by omega), hloop,
      int32, if_pos (by omega)]
  · have hne' : u16 (q.numFree + 1) ≠ 0 := by rw [hfree]; exact Nat.succ_ne_zero _
    refine (postEvent_eq hne').trans ?_
    -- the descriptor gets back the contents it had
    have hdesc : Function.update (setNext q.desc d q.freeHead) d (L.desc k d) = q.desc := by
      rw [setNext, update_idem, ← h.desc d hid, update_eq_self]
    have hhead : (setNext q.desc d q.freeHead d).next = q.freeHead := by
      rw [setNext, update_self]
    change Virtqueue.publish { q with
      desc := Function.update (setNext q.desc d q.freeHead) d (L.desc k d)
      freeHead := (setNext q.desc d q.freeHead d).next
      numFree := u16 (q.numFree + 1) - 1
      lastUsedIdx := u16 (q.lastUsedIdx + 1) } d = _
    rw [hdesc, hhead, hfree, Nat.add_sub_cancel]
    rfl

/-! ## What a device completes -/

/-- What a device has completed, with what it wrote, and how many of these were polled. -/
structure InputFeed where
  completed : List (VringUsedElem × VirtioInputEvent)
  taken : ℕ

/-- The completions that were not polled yet. -/
def InputFeed.pending (f : InputFeed) : List (VringUsedElem × VirtioInputEvent) :=
  f.completed.drop f.taken

/-- The events written for these. -/
def InputFeed.events (f : InputFeed) : List VirtioInputEvent := f.pending.map Prod.snd

/-- The descriptors of these. -/
def InputFeed.ids (f : InputFeed) : List ℕ := f.pending.map fun c => c.1.id

theorem InputFeed.pending_append {f : InputFeed} (h : f.taken ≤ f.completed.length)
    (c : VringUsedElem × VirtioInputEvent) :
    InputFeed.pending { f with completed := f.completed ++ [c] } = f.pending ++ [c] :=
  drop_append_of_le_length h

/-- A device puts a descriptor into the used ring, which has the driver's size. -/
def Virtqueue.complete (q : Virtqueue) (d len : ℕ) : Virtqueue :=
  { q with
    usedRing := Function.update q.usedRing (q.usedIdx % q.num) ⟨d, len⟩
    usedIdx := u16 (q.usedIdx + 1) }

/-! ## The invariant of one device -/

/-- The buffers are posted, the used ring carries what was completed, and what was not polled
yet is still in its buffers. -/
structure InputInv (L : InputLayout) (k : InputKind) (mem : ℕ → VirtioInputEvent) (q : Virtqueue)
    (f : InputFeed) : Prop where
  num_pos : 0 < q.num
  num_le : q.num ≤ virtqueueSize
  posts : Posts L k q (min 32 q.num)
  taken_le : f.taken ≤ f.completed.length
  used : Carries 65536 q.num q.usedRing q.usedIdx q.lastUsedIdx (f.completed.map Prod.fst)
    ((f.completed.map Prod.fst).take f.taken)
  nodup : f.ids.Nodup
  holds : ∀ c ∈ f.pending, c.1.id < min 32 q.num ∧ mem (L.virtToPhys (L.event k c.1.id)) = c.2

/-- The array entries lie apart in memory. -/
def InputLayout.Apart (L : InputLayout) : Prop :=
  ∀ k k' j j', j < 32 → j' < 32 →
    L.virtToPhys (L.event k j) = L.virtToPhys (L.event k' j') → k = k' ∧ j = j'

/-- The slots of the used ring do not jump where the index wraps, or as far as there are posted
buffers. -/
def SlotsApart (num : ℕ) : Prop := 65536 % num = 0 ∨ min 32 num ≤ 65536 % num

/-- One round of the loop. -/
theorem Posts.pollLoop_round {n fuel : ℕ} {s : σ} {mem : ℕ → VirtioInputEvent}
    (h : Posts L k q n) (hle : q.num ≤ virtqueueSize) (hn : n ≤ 32)
    (hne : q.lastUsedIdx ≠ q.usedIdx) (hid : q.nextUsed.id < n) :
    pollLoop L process k mem (fuel + 1) q s =
      pollLoop L process k mem fuel (q.recycle q.nextUsed.id)
        (process s (mem (L.virtToPhys (L.event k q.nextUsed.id)))) := by
  obtain ⟨q', hget, hpost⟩ := h.getBuf_postEvent hle hn hne hid
  rw [pollLoop, hget]
  dsimp only
  rw [if_pos (Int.natCast_nonneg _), Int.toNat_natCast, Nat.mod_eq_of_lt (by omega), hpost]

/-- The loop ends when nothing is left. -/
theorem pollLoop_done {fuel : ℕ} {s : σ} {mem : ℕ → VirtioInputEvent}
    (heq : q.lastUsedIdx = q.usedIdx) : pollLoop L process k mem (fuel + 1) q s = .ok (q, s) := by
  rw [pollLoop, Virtqueue.virtqueueGetBuf, if_pos heq]
  rfl

namespace InputInv

variable {mem : ℕ → VirtioInputEvent} {f : InputFeed}

section

variable (h : InputInv L k mem q f)

include h

theorem length_pending_le : f.pending.length ≤ min 32 q.num := by
  have hsub : f.ids ⊆ List.range (min 32 q.num) := by
    intro d hd
    obtain ⟨c, hc, rfl⟩ := List.mem_map.mp hd
    exact List.mem_range.mpr (h.holds c hc).1
  have hle := (subperm_of_subset h.nodup hsub).length_le
  rwa [length_range, InputFeed.ids, length_map] at hle

theorem next {c : VringUsedElem × VirtioInputEvent}
    {cs : List (VringUsedElem × VirtioInputEvent)} (hp : f.pending = c :: cs) :
    q.lastUsedIdx ≠ q.usedIdx ∧ q.nextUsed = c.1 ∧
      InputInv L k mem (q.recycle c.1.id) { f with taken := f.taken + 1 } ∧
      InputFeed.pending { f with taken := f.taken + 1 } = cs := by
  have hlt : f.taken < f.completed.length := by
    by_contra hge
    rw [InputFeed.pending, drop_of_length_le (by omega)] at hp
    cases hp
  rw [InputFeed.pending, drop_eq_getElem_cons hlt] at hp
  obtain ⟨hc, hcs⟩ := List.cons.inj hp
  have hlen : ((f.completed.map Prod.fst).take f.taken).length = f.taken := by
    rw [length_take, length_map, Nat.min_eq_left h.taken_le]
  have hne : q.lastUsedIdx ≠ q.usedIdx := by
    intro heq
    have hall := congrArg List.length (h.used.eq_iff.mp heq)
    rw [hlen, length_map] at hall
    omega
  obtain ⟨hget, hused⟩ := h.used.recv hne
  have hnext : q.nextUsed = c.1 := by
    rw [hlen, List.getElem?_map, List.getElem?_eq_getElem hlt, hc] at hget
    exact (Option.some.inj hget).symm
  have hpending : InputFeed.pending { f with taken := f.taken + 1 } = cs := hcs
  have hcons : f.pending = c :: cs := by
    rw [InputFeed.pending, drop_eq_getElem_cons hlt, hc, hcs]
  refine ⟨hne, hnext, ⟨h.num_pos, h.num_le, h.posts.recycle, hlt, ?_, ?_, ?_⟩, hpending⟩
  · have htake : (f.completed.map Prod.fst).take (f.taken + 1) =
        (f.completed.map Prod.fst).take f.taken ++ [q.nextUsed] := by
      rw [take_succ_eq_append_getElem (by rwa [length_map]), getElem_map, hc, hnext]
    rw [htake]
    exact hused
  · have hids := h.nodup
    rw [InputFeed.ids, hcons] at hids
    rw [InputFeed.ids, hpending]
    exact (List.nodup_cons.mp hids).2
  · intro x hx
    rw [hpending] at hx
    exact h.holds x (hcons ▸ mem_cons_of_mem c hx)

/-- **Polling one device** processes what is pending, in order, and leaves nothing. -/
theorem pollLoop (s : σ) {fuel : ℕ} (hfuel : f.pending.length < fuel) :
    ∃ q', PenOS.pollLoop L process k mem fuel q s = .ok (q', f.events.foldl process s) ∧
      InputInv L k mem q' { f with taken := f.completed.length } ∧ q'.num = q.num ∧
      q'.lastUsedIdx = q'.usedIdx ∧ q'.freeList = q.freeList ∧
      u16 q'.availIdx = u16 (q.availIdx + f.pending.length) := by
  induction hp : f.pending generalizing q f s fuel with
  | nil =>
    obtain ⟨fuel, rfl⟩ := Nat.exists_eq_add_one_of_ne_zero (Nat.ne_of_gt (Nat.zero_lt_of_lt hfuel))
    have htaken : f.taken = f.completed.length :=
      le_antisymm h.taken_le (List.drop_eq_nil_iff.mp hp)
    have heq : q.lastUsedIdx = q.usedIdx := by
      refine h.used.eq_iff.mpr (take_of_length_le ?_)
      rw [length_map, htaken]
    have hevents : f.events = [] := by rw [InputFeed.events, hp]; rfl
    refine ⟨q, ?_, by rwa [← htaken], rfl, heq, rfl, rfl⟩
    rw [pollLoop_done heq, hevents]
    rfl
  | cons c cs ih =>
    obtain ⟨fuel, rfl⟩ := Nat.exists_eq_add_one_of_ne_zero (Nat.ne_of_gt (Nat.zero_lt_of_lt hfuel))
    obtain ⟨hne, hnext, hinv, hpending⟩ := h.next hp
    obtain ⟨hid, hmem⟩ := h.holds c (hp ▸ mem_cons_self)
    have hevents : f.events = c.2 :: InputFeed.events { f with taken := f.taken + 1 } := by
      rw [InputFeed.events, InputFeed.events, hp, hpending]
      rfl
    have hfuel' : (InputFeed.pending { f with taken := f.taken + 1 }).length < fuel := by
      rw [hp, length_cons] at hfuel
      rw [hpending]
      omega
    obtain ⟨q', hrun, hinv', hnum, heq, hfree, havail⟩ :=
      ih hinv (process s c.2) hfuel' hpending
    refine ⟨q', ?_, hinv', hnum, heq, hfree, ?_⟩
    · rw [h.posts.pollLoop_round h.num_le (Nat.min_le_left _ _) hne (by rw [hnext]; exact hid),
        hnext, hmem, hrun, hevents]
      rfl
    · rw [havail]
      change (u16 (q.availIdx + 1) + cs.length) % 65536 = (q.availIdx + (cs.length + 1)) % 65536
      rw [u16, Nat.mod_add_mod]
      congr 1
      omega

theorem mem_congr {mem' : ℕ → VirtioInputEvent}
    (hmem : ∀ j < 32, mem' (L.virtToPhys (L.event k j)) = mem (L.virtToPhys (L.event k j))) :
    InputInv L k mem' q f := by
  refine ⟨h.num_pos, h.num_le, h.posts, h.taken_le, h.used, h.nodup, fun c hc => ?_⟩
  obtain ⟨hid, hval⟩ := h.holds c hc
  exact ⟨hid, (hmem _ (by omega)).trans hval⟩

/-- **The device completes a buffer**, in a slot that nothing pending has. -/
theorem complete (hL : L.Apart) {d len : ℕ} {evt : VirtioInputEvent}
    (hd : d < min 32 q.num) (hopen : d ∉ f.ids) (hslot : ∀ i, f.taken ≤ i → i < f.completed.length →
      ringSlot 65536 q.num i ≠ ringSlot 65536 q.num f.completed.length) :
    InputInv L k (Function.update mem (q.desc d).addr evt) (q.complete d len)
      { f with completed := f.completed ++ [(⟨d, len⟩, evt)] } := by
  have hpending := InputFeed.pending_append h.taken_le (⟨d, len⟩, evt)
  have haddr : (q.desc d).addr = L.virtToPhys (L.event k d) := by rw [h.posts.desc d hd]; rfl
  have hlen : ((f.completed.map Prod.fst).take f.taken).length = f.taken := by
    rw [length_take, length_map, Nat.min_eq_left h.taken_le]
  have hfew := h.length_pending_le
  rw [InputFeed.pending, length_drop] at hfew
  have htaken := h.taken_le
  refine ⟨h.num_pos, h.num_le, ⟨h.posts.le, h.posts.desc, h.posts.link, h.posts.head,
    h.posts.free⟩, ?_, ?_, ?_, ?_⟩
  · rw [length_append]
    exact Nat.le_add_right_of_le h.taken_le
  · have hsend := h.used.send (⟨d, len⟩ : VringUsedElem)
      (by rw [length_map, hlen]; omega)
      (by rw [length_map, hlen]; exact hslot)
    rw [map_append, take_append_of_le_length (by rwa [length_map])]
    exact hsend
  · rw [InputFeed.ids, hpending, map_append, map_singleton, nodup_append]
    refine ⟨h.nodup, nodup_singleton _, fun x hx y hy => ?_⟩
    rw [List.mem_singleton.mp hy]
    rintro rfl
    exact hopen hx
  · intro c hc
    rw [hpending] at hc
    rcases List.mem_append.mp hc with hc | hc
    · obtain ⟨hid, hval⟩ := h.holds c hc
      refine ⟨hid, ?_⟩
      rw [update_of_ne, hval]
      rw [haddr]
      intro heq
      obtain ⟨-, hcd⟩ := hL k k _ _ (by omega) (by omega) heq
      exact hopen (hcd ▸ mem_map_of_mem hc)
    · obtain rfl := List.mem_singleton.mp hc
      refine ⟨hd, ?_⟩
      rw [haddr]
      exact update_self ..

theorem slot_ne (hslots : SlotsApart q.num) {d : ℕ}
    (hd : d < min 32 q.num) (hopen : d ∉ f.ids) (i : ℕ) (hi : f.taken ≤ i)
    (hlt : i < f.completed.length) :
    ringSlot 65536 q.num i ≠ ringSlot 65536 q.num f.completed.length := by
  -- the new descriptor is one more
  have hsub : d :: f.ids ⊆ List.range (min 32 q.num) := by
    intro x hx
    rcases List.mem_cons.mp hx with rfl | hx
    · exact List.mem_range.mpr hd
    · obtain ⟨c, hc, rfl⟩ := List.mem_map.mp hx
      exact List.mem_range.mpr (h.holds c hc).1
  have hle := (subperm_of_subset (List.nodup_cons.mpr ⟨hopen, h.nodup⟩) hsub).length_le
  rw [length_range, length_cons, InputFeed.ids, length_map, InputFeed.pending,
    length_drop] at hle
  exact ringSlot_ne_of_rem (Nat.min_le_right _ _) (by omega) hslots hlt (by omega)

end

end InputInv

end PenOS
