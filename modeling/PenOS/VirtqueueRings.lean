import Mathlib.Algebra.BigOperators.Group.List.Basic
import PenOS.HeapSafe
import PenOS.Lib.Ring
import PenOS.VirtqueueInv

/-!
# The two rings of a virtqueue

A head under way has a chain of its own, so there are never more of them than slots, and no entry is
overwritten before it is read; since the number of slots is a power of two, the 16-bit indices wrap
without a jump.
-/

namespace PenOS

open List

namespace Virtqueue

variable {q q' : Virtqueue} {virtToPhys : ℕ → ℕ} {bufs : List VirtioBufDesc} {inflight : List ℕ}

/-! ## What the calls leave alone -/

/-- The rings and their indices. -/
structure SameRings (q q' : Virtqueue) : Prop where
  availIdx : q'.availIdx = q.availIdx
  availRing : q'.availRing = q.availRing
  usedIdx : q'.usedIdx = q.usedIdx
  usedRing : q'.usedRing = q.usedRing
  lastUsedIdx : q'.lastUsedIdx = q.lastUsedIdx
  num : q'.num = q.num

theorem SameRings.trans {q'' : Virtqueue} (h : SameRings q q') (h' : SameRings q' q'') :
    SameRings q q'' :=
  ⟨h'.availIdx.trans h.availIdx, h'.availRing.trans h.availRing, h'.usedIdx.trans h.usedIdx,
    h'.usedRing.trans h.usedRing, h'.lastUsedIdx.trans h.lastUsedIdx, h'.num.trans h.num⟩

theorem addChainLoop_rings (q : Virtqueue) (virtToPhys : ℕ → ℕ) (curr : ℕ)
    (bufs : List VirtioBufDesc) : SameRings q (addChainLoop virtToPhys q curr bufs) := by
  induction bufs generalizing q curr with
  | nil => exact ⟨rfl, rfl, rfl, rfl, rfl, rfl⟩
  | cons b bs ih =>
    rw [addChainLoop]
    refine SameRings.trans ?_ (ih _ _)
    exact ⟨rfl, rfl, rfl, rfl, rfl, rfl⟩

theorem releaseLoop_rings {fuel curr : ℕ} (h : q.releaseLoop fuel curr = some q') :
    SameRings q q' := by
  induction fuel generalizing q curr with
  | zero => cases h
  | succ fuel ih =>
    rw [releaseLoop] at h
    have hrel : SameRings q (q.release curr) := ⟨rfl, rfl, rfl, rfl, rfl, rfl⟩
    split_ifs at h
    · exact hrel.trans (ih h)
    · cases h
      exact hrel

theorem Inv.addChain_rings {r : ℤ} (hs : q.Inv inflight) (hne : bufs ≠ [])
    (hadd : q.virtqueueAddChain virtToPhys bufs = (q', r)) (hr : r ≠ -1) :
    q'.Inv (r.toNat :: inflight) ∧ 0 < q.numFree ∧
      q'.availRing = Function.update q.availRing (q.availIdx % q.num) r.toNat ∧
      q'.availIdx = (q.availIdx + 1) % 65536 ∧ q'.usedIdx = q.usedIdx ∧
      q'.usedRing = q.usedRing ∧ q'.lastUsedIdx = q.lastUsedIdx ∧ q'.num = q.num := by
  have hinv := hs.addChain_run hne hadd
  rw [if_neg hr] at hinv
  have hlen := List.length_pos_iff.mpr hne
  rw [virtqueueAddChain] at hadd
  split_ifs at hadd with hfree
  · exact absurd (Prod.mk.inj hadd).2.symm hr
  · have hsame := addChainLoop_rings q virtToPhys q.freeHead bufs
    dsimp only at hadd
    cases hadd
    refine ⟨hinv, by omega, ?_, ?_, hsame.usedIdx, hsame.usedRing, hsame.lastUsedIdx, hsame.num⟩
    · simp only [publish, hsame.availRing, hsame.availIdx, hsame.num, Int.toNat_natCast]
    · simp only [publish, hsame.availIdx, u16]

theorem Inv.getBuf_rings (hs : q.Inv inflight) (hne : q.lastUsedIdx ≠ q.usedIdx)
    (hmem : q.nextUsed.id ∈ inflight) :
    ∃ q', q.virtqueueGetBuf = .ok (q', (q.nextUsed.id : ℤ), some q.nextUsed.len) ∧
      q'.Inv (inflight.erase q.nextUsed.id) ∧ q'.availIdx = q.availIdx ∧
      q'.availRing = q.availRing ∧ q'.usedIdx = q.usedIdx ∧ q'.usedRing = q.usedRing ∧
      q'.lastUsedIdx = (q.lastUsedIdx + 1) % 65536 ∧ q'.num = q.num := by
  have hnum : q.num ≤ 128 := hs.num_le
  have hlt := hs.head_lt hmem
  obtain ⟨q1, hrun, hlen, hinv⟩ := hs.release hmem
  have hloop : q.releaseLoop 65536 q.nextUsed.id = some q1 := by
    rw [hrun, if_pos (by omega)]
  have hsame := releaseLoop_rings hloop
  have hint : int32 q.nextUsed.id = (q.nextUsed.id : ℤ) := if_pos (by omega)
  refine ⟨{ q1 with lastUsedIdx := u16 (q.lastUsedIdx + 1) }, ?_,
    ⟨hinv.num_pos, hinv.num_le, hinv.chains, hinv.perm⟩, hsame.availIdx, hsame.availRing,
    hsame.usedIdx, hsame.usedRing, rfl, hsame.num⟩
  rw [virtqueueGetBuf, if_neg hne, u16_of_lt (by omega), hloop, hint]

/-! ## How many heads are under way -/

/-- Each head under way has a descriptor. -/
theorem Inv.length_le (hs : q.Inv inflight) : inflight.length + q.numFree ≤ q.num := by
  have hone : ∀ h ∈ inflight, 1 ≤ (q.chainOf h).length := by
    intro h hh
    obtain ⟨c, hc⟩ := hs.chains h hh
    obtain ⟨-, xs, -, rfl, -⟩ := chase_cons hc
    rw [chainOf, hc]
    exact Nat.succ_pos _
  have hsum : inflight.length ≤ (inflight.flatMap q.chainOf).length := by
    rw [length_flatMap]
    have hle := length_le_sum_of_one_le (inflight.map fun h => (q.chainOf h).length)
      (by simpa using hone)
    rwa [length_map] at hle
  have hlen := hs.perm.length_eq
  rw [length_append, freeList, length_walk, length_range] at hlen
  omega

end Virtqueue

/-! ## Driver and device -/

/-- A queue between its driver and its device, with what has passed through the rings. -/
structure VqTraffic where
  q : Virtqueue
  /-- the index of the device into the available ring -/
  lastAvailIdx : ℕ
  /-- the heads the device has read and not completed -/
  held : List ℕ
  submitted : List ℕ
  read : List ℕ
  completed : List VringUsedElem
  returned : List VringUsedElem

/-- The queue as `virtqueue_init` leaves it. -/
def VqTraffic.start (q : Virtqueue) : VqTraffic := ⟨q, 0, [], [], [], [], []⟩

/-- One action of the driver or of the device. -/
inductive VqStep : VqTraffic → VqTraffic → Prop where
  /-- `virtqueue_add_buf` -/
  | addBuf {w : VqTraffic} {q' : Virtqueue} {r : ℤ} (virtToPhys : ℕ → ℕ) {buf len : ℕ}
      {write : Bool} (h : w.q.virtqueueAddBuf virtToPhys buf len write = (q', r)) :
      VqStep w { w with
        q := q'
        submitted := if r = -1 then w.submitted else w.submitted ++ [r.toNat] }
  /-- `virtqueue_add_chain` of at least one buffer -/
  | addChain {w : VqTraffic} {q' : Virtqueue} {r : ℤ} (virtToPhys : ℕ → ℕ)
      {bufs : List VirtioBufDesc} (hne : bufs ≠ [])
      (h : w.q.virtqueueAddChain virtToPhys bufs = (q', r)) :
      VqStep w { w with
        q := q'
        submitted := if r = -1 then w.submitted else w.submitted ++ [r.toNat] }
  /-- the device reads an entry of the available ring -/
  | consume {w : VqTraffic} (h : w.lastAvailIdx ≠ w.q.availIdx) :
      VqStep w { w with
        lastAvailIdx := u16 (w.lastAvailIdx + 1)
        held := w.q.availRing (w.lastAvailIdx % w.q.num) :: w.held
        read := w.read ++ [w.q.availRing (w.lastAvailIdx % w.q.num)] }
  /-- the device completes a chain it has read -/
  | complete {w : VqTraffic} {id : ℕ} (len : ℕ) (h : id ∈ w.held) :
      VqStep w { w with
        q := { w.q with
          usedRing := Function.update w.q.usedRing (w.q.usedIdx % w.q.num) ⟨id, len⟩
          usedIdx := u16 (w.q.usedIdx + 1) }
        held := w.held.erase id
        completed := w.completed ++ [⟨id, len⟩] }
  /-- `virtqueue_get_buf` -/
  | getBuf {w : VqTraffic} {q' : Virtqueue} {r : ℤ} {len : Option ℕ}
      (h : w.q.virtqueueGetBuf = .ok (q', r, len)) :
      VqStep w { w with
        q := q'
        returned := if r = -1 then w.returned else w.returned ++ [⟨r.toNat, len.getD 0⟩] }

/-- Runs of driver and device. -/
abbrev VqRun : VqTraffic → VqTraffic → Prop := Relation.ReflTransGen VqStep

namespace VqTraffic

variable {w w' : VqTraffic}

/-- The heads under way: not yet read by the device, held by it, or not yet taken back. -/
def underWay (w : VqTraffic) : List ℕ :=
  w.submitted.drop w.read.length ++
    (w.held ++ (w.completed.drop w.returned.length).map VringUsedElem.id)

/-- The invariant of the rings: what is under way has chains of its own, and both rings carry
what was written to them. -/
structure Inv (w : VqTraffic) : Prop where
  dvd : w.q.num ∣ 65536
  chains : w.q.Inv w.underWay
  avail : Carries 65536 w.q.num w.q.availRing w.q.availIdx w.lastAvailIdx w.submitted w.read
  used : Carries 65536 w.q.num w.q.usedRing w.q.usedIdx w.q.lastUsedIdx w.completed w.returned

theorem inv_start (layout : RingLayout) {num : ℕ} (hpos : 0 < num) (hle : num ≤ virtqueueSize)
    (hdvd : num ∣ 65536) : (start (Virtqueue.setup layout num)).Inv :=
  ⟨hdvd, Virtqueue.inv_setup layout hpos hle, Carries.empty (by decide) _,
    Carries.empty (by decide) _⟩

theorem Inv.slot_ne (hw : w.Inv) {i j : ℕ} (hij : i < j) (hj : j < i + w.q.num) :
    ringSlot 65536 w.q.num i ≠ ringSlot 65536 w.q.num j :=
  ringSlot_ne_of_dvd hw.dvd hij hj

theorem Inv.length_underWay (hw : w.Inv) : w.submitted.length - w.read.length + w.held.length +
      (w.completed.length - w.returned.length) + w.q.numFree ≤ w.q.num := by
  have hle := hw.chains.length_le
  rw [underWay] at hle
  simp only [length_append, length_drop, length_map] at hle
  omega

/-- Submitting a chain. -/
theorem Inv.addChain (hw : w.Inv) {q' : Virtqueue} {r : ℤ} {virtToPhys : ℕ → ℕ}
    {bufs : List VirtioBufDesc} (hne : bufs ≠ [])
    (hadd : w.q.virtqueueAddChain virtToPhys bufs = (q', r)) : Inv { w with
      q := q'
      submitted := if r = -1 then w.submitted else w.submitted ++ [r.toNat] } := by
  by_cases hr : r = -1
  · have hsame : q' = w.q := by
      rw [Virtqueue.virtqueueAddChain] at hadd
      split_ifs at hadd
      · exact (Prod.mk.inj hadd).1.symm
      · have := (Prod.mk.inj hadd).2
        omega
    subst hsame
    rw [if_pos hr]
    exact hw
  rw [if_neg hr]
  obtain ⟨hinv, hfree, hring, hidx, huidx, huring, hlast, hnum⟩ :=
    hw.chains.addChain_rings hne hadd hr
  have hroom := hw.length_underWay
  have hle := hw.avail.length_le
  have hbound : w.q.num ≤ 128 := hw.chains.num_le
  refine ⟨hnum ▸ hw.dvd, hinv.of_perm ?_, ?_, ?_⟩
  · rw [underWay, underWay]
    dsimp only
    rw [drop_append_of_le_length hle, append_assoc, singleton_append]
    exact List.perm_middle.symm
  · dsimp only
    rw [hring, hidx, hnum]
    refine hw.avail.send _ (by omega) fun i h1 h2 => hw.slot_ne h2 ?_
    omega
  · dsimp only
    rw [huidx, huring, hlast, hnum]
    exact hw.used

/-- The device reads the available ring. -/
theorem Inv.consume (hw : w.Inv) (hne : w.lastAvailIdx ≠ w.q.availIdx) : Inv { w with
      lastAvailIdx := u16 (w.lastAvailIdx + 1)
      held := w.q.availRing (w.lastAvailIdx % w.q.num) :: w.held
      read := w.read ++ [w.q.availRing (w.lastAvailIdx % w.q.num)] } := by
  obtain ⟨hnext, hcarries⟩ := hw.avail.recv hne
  refine ⟨hw.dvd, hw.chains.of_perm ?_, hcarries, hw.used⟩
  obtain ⟨hlt, hget⟩ := List.getElem?_eq_some_iff.mp hnext
  rw [underWay, underWay]
  dsimp only
  rw [drop_eq_getElem_cons hlt, hget, length_append, length_singleton,
    cons_append, cons_append]
  exact List.perm_middle.symm

/-- The device completes a chain. -/
theorem Inv.complete (hw : w.Inv) {id : ℕ} (len : ℕ) (hid : id ∈ w.held) : Inv { w with
      q := { w.q with
        usedRing := Function.update w.q.usedRing (w.q.usedIdx % w.q.num) ⟨id, len⟩
        usedIdx := u16 (w.q.usedIdx + 1) }
      held := w.held.erase id
      completed := w.completed ++ [⟨id, len⟩] } := by
  have hroom := hw.length_underWay
  have hle := hw.used.length_le
  have hbound : w.q.num ≤ 128 := hw.chains.num_le
  have hpos := length_pos_of_mem hid
  have hchains : w.q.Inv (underWay { w with
      held := w.held.erase id, completed := w.completed ++ [⟨id, len⟩] }) := by
    refine hw.chains.of_perm ?_
    rw [underWay, underWay]
    dsimp only
    refine List.Perm.append_left _ ?_
    rw [drop_append_of_le_length hle, map_append, map_singleton]
    refine ((perm_cons_erase hid).append_right _).trans ?_
    rw [cons_append, ← append_assoc]
    exact (perm_append_singleton id _).symm
  refine ⟨hw.dvd, ⟨hchains.num_pos, hchains.num_le, hchains.chains, hchains.perm⟩, hw.avail, ?_⟩
  refine hw.used.send _ (by omega) fun i h1 h2 => hw.slot_ne h2 ?_
  omega

theorem Inv.getBuf (hw : w.Inv) : ∃ q' r len, w.q.virtqueueGetBuf = .ok (q', r, len) ∧ Inv { w with
      q := q'
      returned := if r = -1 then w.returned else w.returned ++ [⟨r.toNat, len.getD 0⟩] } := by
  by_cases hidx : w.q.lastUsedIdx = w.q.usedIdx
  · exact ⟨w.q, -1, none, if_pos hidx, hw⟩
  obtain ⟨hnext, hcarries⟩ := hw.used.recv hidx
  obtain ⟨hlt, hget⟩ := List.getElem?_eq_some_iff.mp hnext
  have hunder : w.underWay = w.submitted.drop w.read.length ++ w.held ++ w.q.nextUsed.id ::
      (w.completed.drop (w.returned.length + 1)).map VringUsedElem.id := by
    rw [underWay, drop_eq_getElem_cons hlt, hget, map_cons, append_assoc]
    rfl
  obtain ⟨q', hrun, hinv, haidx, haring, huidx, huring, hlast, hnum⟩ :=
    hw.chains.getBuf_rings hidx (by rw [hunder]; simp)
  refine ⟨q', _, _, hrun, hnum ▸ hw.dvd, ?_, ?_, ?_⟩
  · refine hinv.of_perm ?_
    rw [hunder, underWay, if_neg (by omega)]
    dsimp only
    rw [length_append, length_singleton]
    have hperm : (w.submitted.drop w.read.length ++ w.held ++ w.q.nextUsed.id ::
        (w.completed.drop (w.returned.length + 1)).map VringUsedElem.id).Perm
        (w.q.nextUsed.id :: (w.submitted.drop w.read.length ++ (w.held ++
          (w.completed.drop (w.returned.length + 1)).map VringUsedElem.id))) := by
      rw [← append_assoc]
      exact perm_middle
    have := hperm.erase w.q.nextUsed.id
    rwa [erase_cons_head] at this
  · dsimp only
    rw [haidx, haring, hnum]
    exact hw.avail
  · dsimp only
    rw [huidx, huring, hlast, hnum, if_neg (by omega), Int.toNat_natCast]
    exact hcarries

/-- One step keeps the invariant. -/
theorem Inv.step (hw : w.Inv) (hstep : VqStep w w') : w'.Inv := by
  cases hstep with
  | addBuf virtToPhys h =>
    rw [Virtqueue.virtqueueAddBuf_eq] at h
    exact hw.addChain (cons_ne_nil _ _) h
  | addChain virtToPhys hne h => exact hw.addChain hne h
  | consume h => exact hw.consume h
  | complete len h => exact hw.complete len h
  | getBuf h =>
    obtain ⟨q', r, len, hrun, hinv⟩ := hw.getBuf
    obtain ⟨rfl, hrest⟩ := ok_pair (hrun.symm.trans h)
    cases hrest
    exact hinv

theorem Inv.run (hw : w.Inv) (hrun : VqRun w w') : w'.Inv := by
  induction hrun with
  | refl => exact hw
  | tail _ hstep ih => exact ih.step hstep

end VqTraffic

/-- **Both rings deliver everything once and in order**, in every run, for a queue whose size is a
power of two; what is not read yet is in its slots, and `virtqueue_get_buf` always ends. -/
theorem rings_deliver_in_order {D : Type} [Disk D] {heap heap' : Heap D} {reported pfn : ℕ}
    {q : Virtqueue} {w : VqTraffic}
    (hinit : virtqueueInit heap reported = .ok (heap', some (q, pfn))) (hpow : ∃ k, q.num = 2 ^ k)
    (hrun : VqRun (VqTraffic.start q) w) :
    (w.read <+: w.submitted ∧ (w.lastAvailIdx = w.q.availIdx ↔ w.read = w.submitted) ∧
      ∀ i head, w.read.length ≤ i → w.submitted[i]? = some head →
        w.q.availRing (i % w.q.num) = head) ∧
    (w.returned <+: w.completed ∧ (w.q.lastUsedIdx = w.q.usedIdx ↔ w.returned = w.completed)) ∧
    ∃ q' r len, w.q.virtqueueGetBuf = .ok (q', r, len) := by
  obtain ⟨layout, rfl⟩ := virtqueueInit_setup hinit
  obtain ⟨hpos, hle⟩ := queueSizeOf_bounds reported
  have hdvd : queueSizeOf reported ∣ 65536 := by
    obtain ⟨k, hk⟩ := hpow
    have hk' : queueSizeOf reported = 2 ^ k := hk
    have hle16 : k ≤ 16 := by
      by_contra hgt
      have := Nat.pow_le_pow_right (show 0 < 2 by decide) (show 17 ≤ k by omega)
      have hsize : virtqueueSize = 128 := rfl
      omega
    rw [hk']
    exact Nat.pow_dvd_pow 2 hle16
  have hw := (VqTraffic.inv_start layout hpos hle hdvd).run hrun
  refine ⟨⟨hw.avail.sound, hw.avail.eq_iff, fun i head hi hget => ?_⟩,
    ⟨hw.used.sound, hw.used.eq_iff⟩, ?_⟩
  · have hslot := hw.avail.holds i head hi hget
    rwa [ringSlot, Nat.mod_mod_of_dvd _ hw.dvd] at hslot
  · obtain ⟨q', r, len, hget, -⟩ := hw.getBuf
    exact ⟨q', r, len, hget⟩

/-- Two buffers are submitted, and the device reads them in that order. -/
theorem rings_deliver_in_order_two :
    ∃ (q : Virtqueue) (w : VqTraffic), VqRun (VqTraffic.start q) w ∧ w.submitted = [0, 1] ∧
      w.read = [0, 1] ∧ w.read <+: w.submitted := by
  have hrun : (smallHeap.bind fun h => (virtqueueInit h 4).toOption.bind fun out => out.2.map
      fun v => (v.1.num, (v.1.virtqueueAddBuf id 0 8 true).2,
        (fun r : Virtqueue × ℤ => (r.2, [r.1.num, r.1.availIdx, r.1.availRing 0, r.1.availRing 1]))
          ((v.1.virtqueueAddBuf id 0 8 true).1.virtqueueAddBuf id 8 8 false))) =
      some (4, 0, 1, [4, 2, 0, 1]) := by
    decide +kernel
  simp only [Option.bind_eq_some_iff, Option.map_eq_some_iff] at hrun
  obtain ⟨h, -, ⟨heap, o⟩, hinit, ⟨q, pfn⟩, rfl, hvals⟩ := hrun
  rcases hadd : q.virtqueueAddBuf id 0 8 true with ⟨q', r⟩
  rw [hadd] at hvals
  rcases hadd' : q'.virtqueueAddBuf id 8 8 false with ⟨q2, r2⟩
  rw [hadd'] at hvals
  obtain ⟨hnum, rfl, rfl, hnum2, hidx, hring0, hring1⟩ : q.num = 4 ∧ r = 0 ∧ r2 = 1 ∧ q2.num = 4 ∧
      q2.availIdx = 2 ∧ q2.availRing 0 = 0 ∧ q2.availRing 1 = 1 := by simpa using hvals
  have hreach : VqRun (VqTraffic.start q) _ :=
    (((Relation.ReflTransGen.single (VqStep.addBuf id hadd)).tail (VqStep.addBuf id hadd')).tail
      (VqStep.consume (show 0 ≠ q2.availIdx by rw [hidx]; decide))).tail
      (VqStep.consume (show 1 ≠ q2.availIdx by rw [hidx]; decide))
  refine ⟨q, _, hreach, rfl, ?_,
    (rings_deliver_in_order (ok_of_toOption hinit) ⟨2, hnum⟩ hreach).1.1⟩
  simp [VqTraffic.start, hnum2, hring0, hring1, u16]

end PenOS
