import Mathlib.Data.Stream.Init
import PenOS.P9
import PenOS.VirtqueueInv

/-!
# 9P over a virtqueue (`p9_rpc`)

`p9_rpc` submits a chain of two descriptors, the request and room for the reply, and polls the used
ring a limited number of times. Before every poll and between two calls the device may read requests
and complete chains it was given, in any order, each once, with the tag of the request.
-/

namespace PenOS

open Function List

variable {h idx n : ℕ} {bufs : List VirtioBufDesc} {virtToPhys : ℕ → ℕ} {r : ℤ}

/-- Polls of the used ring before `p9_rpc` gives up. -/
abbrev p9Polls : ℕ := 10000000

/-- A chain that the device was given and has not completed. -/
structure Pending where
  head : ℕ
  /-- the request, once the device has read it from `tx_buffer` -/
  request : Option (List UInt8)

/-- What the device does on its own. The chains are numbered in the order in which it
got them. -/
inductive DeviceAct : Type where
  /-- read the request of a chain -/
  | fetch (i : ℕ) : DeviceAct
  /-- answer a chain -/
  | complete (i : ℕ) (type : UInt8) (payload : List UInt8) : DeviceAct

/-- `p9_dev.vq`, the message in `tx_buffer`, and the device; `timing` is what it does in each
interval from now on. -/
structure P9Queue where
  vq : Virtqueue
  /-- `paging_virt_to_phys` -/
  virtToPhys : ℕ → ℕ
  /-- the address of `tx_buffer` -/
  txBuffer : ℕ
  /-- the address of `rx_buffer` -/
  rxBuffer : ℕ
  tx : List UInt8
  pending : List Pending
  timing : Stream' (List DeviceAct)

/-- A reply to a request, cut to the space offered for it. -/
def replyTo (request : List UInt8) (type : UInt8) (payload : List UInt8) : List UInt8 :=
  let payload := payload.take (p9MaxMsgSize - 7)
  writeU32 (7 + payload.length) ++ type :: (tagOf request).1 :: (tagOf request).2 :: payload

/-- Put a completed chain into the used ring. -/
def Virtqueue.pushUsed (q : Virtqueue) (head len : ℕ) : Virtqueue :=
  { q with
    usedRing := Function.update q.usedRing (q.usedIdx % q.num) ⟨head, len⟩
    usedIdx := u16 (q.usedIdx + 1) }

/-- A call of `p9_rpc` that returned 0: what `virtqueue_add_chain` and `virtqueue_get_buf`
returned, and the length received. -/
structure Exchange where
  idx : ℤ
  retIdx : ℤ
  len : ℕ

namespace P9Queue

/-- Read the request of a chain, if it has not been read yet. -/
def fetch (q : P9Queue) (i : ℕ) : P9Queue :=
  { q with pending := q.pending.modify i fun p =>
      { p with request := some (p.request.getD q.tx) } }

/-- Answer a chain. -/
def complete (q : P9Queue) (rx : Mem) (i : ℕ) (type : UInt8) (payload : List UInt8) :
    P9Queue × Mem :=
  match q.pending[i]? with
  | none => (q, rx)
  | some p =>
    let reply := replyTo (p.request.getD q.tx) type payload
    ({ q with
        vq := q.vq.pushUsed p.head reply.length
        pending := q.pending.eraseIdx i },
      rx.paste 0 reply.length fun k => reply.getD k 0)

/-- One act of the device. -/
def act : P9Queue × Mem → DeviceAct → P9Queue × Mem
  | (q, rx), .fetch i => (q.fetch i, rx)
  | (q, rx), .complete i type payload => q.complete rx i type payload

/-- The next interval passes. -/
def elapse (q : P9Queue) (rx : Mem) : P9Queue × Mem :=
  q.timing.head.foldl act ({ q with timing := q.timing.tail }, rx)

/-- The polling loop of `p9_rpc`. -/
def pollLoop : ℕ → P9Queue → Mem → Except Halt (P9Queue × Mem × Option (ℤ × ℕ))
  | 0, q, rx => .ok (q, rx, none)
  | n + 1, q, rx =>
    let (q, rx) := q.elapse rx
    match q.vq.virtqueueGetBuf with
    | .error e => .error e
    | .ok (vq, retIdx, len) =>
      if retIdx ≥ 0 then .ok ({ q with vq := vq }, rx, some (retIdx, len.getD 0))
      else pollLoop n { q with vq := vq } rx

/-- Submit the message as a chain. -/
def submit (q : P9Queue) (msg : List UInt8) : P9Queue × ℤ :=
  let (vq, idx) := q.vq.virtqueueAddChain q.virtToPhys
    [⟨q.txBuffer, msg.length, false⟩, ⟨q.rxBuffer, p9MaxMsgSize, true⟩]
  if idx < 0 then ({ q with vq := vq, tx := msg }, idx)
  else ({ q with vq := vq, tx := msg, pending := q.pending ++ [⟨idx.toNat, none⟩] }, idx)

/-- `p9_rpc`, with what it learns and drops. First the time since the last call passes. -/
def exchange (q : P9Queue) (msg : List UInt8) (rx : Mem) :
    Except Halt (P9Queue × Mem × Option Exchange) :=
  let (q, rx) := q.elapse rx
  let (q, idx) := q.submit msg
  if idx < 0 then .ok (q, rx, none)
  else match pollLoop p9Polls q rx with
    | .error e => .error e
    | .ok (q, rx, none) => .ok (q, rx, none)
    | .ok (q, rx, some (retIdx, len)) => .ok (q, rx, some ⟨idx, retIdx, len⟩)

/-- `p9_rpc` -/
instance : P9Link P9Queue where
  rpc q msg rx :=
    match q.exchange msg rx with
    | .error e => .error e
    | .ok (q, rx, e) => .ok (q, rx, e.map Exchange.len)

end P9Queue

/-! ## Outstanding chains -/

namespace Virtqueue

variable {q q' : Virtqueue} {inflight : List ℕ}

/-- A head lies on its own chain. -/
theorem Inv.head_mem (hs : q.Inv inflight) (hh : h ∈ inflight) : h ∈ q.chainOf h := by
  obtain ⟨c, hc⟩ := hs.chains h hh
  obtain ⟨-, xs, -, rfl, -⟩ := chase_cons hc
  rw [chainOf, hc]
  exact mem_cons_self

/-- Every outstanding chain takes at least one descriptor. -/
theorem Inv.outstanding_le (hs : q.Inv inflight) : q.numFree + inflight.length ≤ q.num := by
  have hlen := hs.perm.length_eq
  rw [length_append, freeList, length_walk, length_range, length_flatMap] at hlen
  have hone : (inflight.map fun h => (q.chainOf h).length).length ≤
      (inflight.map fun h => (q.chainOf h).length).sum := by
    refine length_le_sum_of_one_le _ fun n hn => ?_
    obtain ⟨h, hh, rfl⟩ := List.mem_map.mp hn
    exact length_pos_of_mem (hs.head_mem hh)
  rw [length_map] at hone
  omega

/-- All descriptors are free exactly if no chain is outstanding. -/
theorem Inv.numFree_eq_iff (hs : q.Inv inflight) : q.numFree = q.num ↔ inflight = [] := by
  constructor
  · intro hfree
    have hle := hs.outstanding_le
    exact eq_nil_of_length_eq_zero (by omega)
  · rintro rfl
    have hlen := hs.perm.length_eq
    rwa [flatMap_nil, append_nil, freeList, length_walk, length_range] at hlen

/-- The next head is not the head of an outstanding chain. -/
theorem Inv.freeHead_not_mem (hs : q.Inv inflight) (hfree : 0 < q.numFree) :
    q.freeHead ∉ inflight := by
  intro hh
  obtain ⟨-, -, hdis⟩ := List.nodup_append.mp hs.nodup
  refine hdis q.freeHead ?_ q.freeHead (List.mem_flatMap.mpr ⟨_, hh, hs.head_mem hh⟩) rfl
  obtain ⟨n, hn⟩ := Nat.exists_eq_succ_of_ne_zero (by omega : q.numFree ≠ 0)
  rw [freeList, hn, walk]
  exact mem_cons_self

/-- The used ring and the queue's size are the same. -/
structure SameUsed (q q' : Virtqueue) : Prop where
  num : q'.num = q.num
  usedIdx : q'.usedIdx = q.usedIdx
  usedRing : q'.usedRing = q.usedRing
  lastUsedIdx : q'.lastUsedIdx = q.lastUsedIdx

theorem addChainLoop_sameUsed (virtToPhys : ℕ → ℕ) (bufs : List VirtioBufDesc) (q : Virtqueue)
    (curr : ℕ) : q.SameUsed (addChainLoop virtToPhys q curr bufs) := by
  induction bufs generalizing q curr with
  | nil => exact ⟨rfl, rfl, rfl, rfl⟩
  | cons b bs ih =>
    rw [addChainLoop]
    obtain ⟨hnum, hidx, hring, hlast⟩ := ih _ (q.desc curr).next
    exact ⟨hnum, hidx, hring, hlast⟩

theorem addChain_sameUsed (h : q.virtqueueAddChain virtToPhys bufs = (q', r)) : q.SameUsed q' := by
  rw [virtqueueAddChain] at h
  split_ifs at h
  · obtain ⟨rfl, -⟩ := Prod.mk.inj h
    exact ⟨rfl, rfl, rfl, rfl⟩
  · obtain ⟨rfl, -⟩ := Prod.mk.inj h
    obtain ⟨hnum, hidx, hring, hlast⟩ := addChainLoop_sameUsed virtToPhys bufs q q.freeHead
    exact ⟨hnum, hidx, hring, hlast⟩

theorem addChain_numFree
    (h : q.virtqueueAddChain virtToPhys bufs = (q', r)) (hfree : bufs.length ≤ q.numFree) :
    q'.numFree = q.numFree - bufs.length := by
  have hloop : ∀ (bufs : List VirtioBufDesc) (q : Virtqueue) (curr : ℕ),
      (addChainLoop virtToPhys q curr bufs).numFree = q.numFree := by
    intro bufs
    induction bufs with
    | nil => exact fun _ _ => rfl
    | cons b bs ih => exact fun q curr => ih _ _
  rw [virtqueueAddChain, if_neg (by omega)] at h
  obtain ⟨rfl, -⟩ := Prod.mk.inj h
  change (addChainLoop virtToPhys q q.freeHead bufs).numFree - bufs.length = _
  rw [hloop]

theorem releaseLoop_sameUsed {fuel curr : ℕ} (h : q.releaseLoop fuel curr = some q') :
    q.SameUsed q' := by
  induction fuel generalizing q curr with
  | zero => cases h
  | succ fuel ih =>
    rw [releaseLoop] at h
    split_ifs at h
    · obtain ⟨hnum, hidx, hring, hlast⟩ := ih h
      exact ⟨hnum, hidx, hring, hlast⟩
    · cases h
      exact ⟨rfl, rfl, rfl, rfl⟩

end Virtqueue

namespace P9Queue

variable {q q' : P9Queue} {rx rx' : Mem} {msg : List UInt8} {used : List ℕ}

/-- The chains in flight are those completed and not taken, `used`, and those pending at the
device. -/
structure Served (q : P9Queue) (used : List ℕ) : Prop where
  inv : q.vq.Inv (used ++ q.pending.map Pending.head)
  num_dvd : q.vq.num ∣ 65536
  last_lt : q.vq.lastUsedIdx < 65536
  usedIdx : q.vq.usedIdx = u16 (q.vq.lastUsedIdx + used.length)
  ring : ∀ k h, used[k]? = some h →
    (q.vq.usedRing ((q.vq.lastUsedIdx + k) % q.vq.num)).id = h

theorem Served.slot (hs : q.Served used) (n : ℕ) : u16 n % q.vq.num = n % q.vq.num :=
  Nat.mod_mod_of_dvd n hs.num_dvd

theorem Served.used_lt (hs : q.Served used) : used.length ≤ q.vq.num ∧ q.vq.num ≤ 128 := by
  have hle := hs.inv.outstanding_le
  rw [length_append] at hle
  exact ⟨by omega, hs.inv.num_le⟩

theorem Served.of_eq (hs : q.Served used) (hvq : q'.vq = q.vq)
    (hheads : q'.pending.map Pending.head = q.pending.map Pending.head) : q'.Served used := by
  obtain ⟨hinv, hdvd, hlast, hidx, hring⟩ := hs
  rw [← hvq] at hinv hdvd hlast hidx hring
  rw [← hheads] at hinv
  exact ⟨hinv, hdvd, hlast, hidx, hring⟩

theorem Served.fetch (hs : q.Served used) (i : ℕ) : (q.fetch i).Served used := by
  refine hs.of_eq rfl (ext_getElem? fun k => ?_)
  rw [P9Queue.fetch, List.getElem?_map, List.getElem?_map, List.getElem?_modify]
  split_ifs
  · cases q.pending[k]? <;> rfl
  · cases q.pending[k]? <;> rfl

/-- A completed chain goes to the end of the used ring. -/
theorem Served.complete {i : ℕ} {p : Pending} (hs : q.Served used) (hp : q.pending[i]? = some p)
    (rx : Mem) (type : UInt8) (payload : List UInt8) :
    (q.complete rx i type payload).1.Served (used ++ [p.head]) := by
  obtain ⟨hi, hget⟩ := List.getElem?_eq_some_iff.mp hp
  have hperm : (q.pending.map Pending.head).Perm
      (p.head :: (q.pending.eraseIdx i).map Pending.head) := by
    rw [← map_cons (f := Pending.head), ← hget]
    exact ((getElem_cons_eraseIdx_perm hi).map Pending.head).symm
  have hlt : used.length < q.vq.num := by
    have hle := hs.inv.outstanding_le
    rw [length_append, length_map] at hle
    omega
  rw [P9Queue.complete, hp]
  refine ⟨?_, hs.num_dvd, hs.last_lt, ?_, fun k h hk => ?_⟩
  · have hinv := hs.inv.of_perm (hperm.append_left used)
    rw [append_cons] at hinv
    exact ⟨hinv.num_pos, hinv.num_le, hinv.chains, hinv.perm⟩
  · change u16 (q.vq.usedIdx + 1) = u16 (q.vq.lastUsedIdx + (used ++ [p.head]).length)
    rw [hs.usedIdx, length_append, length_singleton]
    simp only [u16]
    omega
  · change (Function.update q.vq.usedRing (q.vq.usedIdx % q.vq.num) _
      ((q.vq.lastUsedIdx + k) % q.vq.num)).id = h
    rw [hs.usedIdx, hs.slot]
    by_cases hlen : k < used.length
    · -- an older entry: fewer than `num` places before the new one
      rw [List.getElem?_append_left hlen] at hk
      rw [update_of_ne, hs.ring k h hk]
      intro heq
      have hdvd := Nat.dvd_of_mod_eq_zero (Nat.sub_mod_eq_zero_of_mod_eq heq.symm)
      have := Nat.le_of_dvd (by omega) hdvd
      omega
    · rw [List.getElem?_append_right (by omega)] at hk
      obtain ⟨hlast, rfl⟩ := List.getElem?_eq_some_iff.mp hk
      rw [length_singleton] at hlast
      obtain rfl : k = used.length := by omega
      rw [update_self]
      simp

/-- What the device does leaves the descriptors alone and only adds to the used ring. -/
structure Worked (q : P9Queue) (used : List ℕ) (q' : P9Queue) : Prop where
  served : ∃ more, q'.Served (used ++ more)
  numFree : q'.vq.numFree = q.vq.numFree
  num : q'.vq.num = q.vq.num

theorem Served.act (hs : q.Served used) (rx : Mem) (a : DeviceAct) :
    q.Worked used (act (q, rx) a).1 := by
  cases a with
  | fetch i => exact ⟨⟨[], by rw [append_nil]; exact hs.fetch i⟩, rfl, rfl⟩
  | complete i type payload =>
    rcases hp : q.pending[i]? with _ | p
    · simp only [P9Queue.act, P9Queue.complete, hp]
      exact ⟨⟨[], by rwa [append_nil]⟩, rfl, rfl⟩
    · refine ⟨⟨[p.head], hs.complete hp rx type payload⟩, ?_, ?_⟩
      · simp only [P9Queue.act, P9Queue.complete, hp]
        rfl
      · simp only [P9Queue.act, P9Queue.complete, hp]
        rfl

/-- What every act of the device keeps, an interval keeps. -/
theorem elapse_induct (P : P9Queue × Mem → Prop)
    (hstart : P ({ q with timing := q.timing.tail }, rx)) (hact : ∀ x a, P x → P (act x a)) :
    P (q.elapse rx) := by
  rw [elapse]
  exact List.foldlRecOn (motive := P) _ _ hstart fun x hx a _ => hact x a hx

theorem Served.elapse (hs : q.Served used) (rx : Mem) : q.Worked used (q.elapse rx).1 := by
  refine elapse_induct (fun x => q.Worked used x.1) ?_ ?_
  · refine ⟨⟨[], ?_⟩, rfl, rfl⟩
    rw [append_nil]
    exact hs.of_eq rfl rfl
  · rintro ⟨q1, rx1⟩ a ⟨⟨more, hs1⟩, hfree, hnum⟩
    obtain ⟨⟨more', hs2⟩, hfree', hnum'⟩ := hs1.act rx1 a
    exact ⟨⟨more ++ more', by rwa [← append_assoc]⟩, hfree'.trans hfree, hnum'.trans hnum⟩

/-! ## The driver's side -/

theorem submit_full (h : q.vq.numFree < 2) : q.submit msg = ({ q with tx := msg }, -1) := by
  have hadd : ∀ b b', q.vq.virtqueueAddChain q.virtToPhys [b, b'] = (q.vq, -1) :=
    fun b b' => if_pos h
  rw [submit, hadd]
  rfl

theorem Served.submit (hs : q.Served used) (hfree : 2 ≤ q.vq.numFree) (msg : List UInt8) :
    ∃ q', q.submit msg = (q', (q.vq.freeHead : ℤ)) ∧ q'.Served used ∧ q'.tx = msg ∧
      q'.pending = q.pending ++ [⟨q.vq.freeHead, none⟩] ∧ q'.timing = q.timing ∧
      q'.vq.numFree = q.vq.numFree - 2 := by
  have hlen : [(⟨q.txBuffer, msg.length, false⟩ : VirtioBufDesc),
      ⟨q.rxBuffer, p9MaxMsgSize, true⟩].length ≤ q.vq.numFree := hfree
  obtain ⟨vq, hadd, hinv⟩ := hs.inv.addChain q.virtToPhys (cons_ne_nil _ _) hlen
  have hsame := Virtqueue.addChain_sameUsed hadd
  rw [P9Queue.submit, hadd]
  dsimp only
  rw [if_neg (by omega), Int.toNat_natCast]
  refine ⟨_, rfl, ⟨?_, ?_, ?_, ?_, ?_⟩, rfl, rfl, rfl, Virtqueue.addChain_numFree hadd hlen⟩
  · refine hinv.of_perm ?_
    rw [map_append, ← append_assoc]
    exact (perm_append_singleton _ _).symm
  · rw [hsame.num]
    exact hs.num_dvd
  · rw [hsame.lastUsedIdx]
    exact hs.last_lt
  · rw [hsame.usedIdx, hsame.lastUsedIdx]
    exact hs.usedIdx
  · intro k h hk
    rw [hsame.usedRing, hsame.lastUsedIdx, hsame.num]
    exact hs.ring k h hk

theorem Served.getBuf_nil (hs : q.Served []) : q.vq.virtqueueGetBuf = .ok (q.vq, -1, none) := by
  have hidx := hs.usedIdx
  rw [length_nil, Nat.add_zero, u16_of_lt hs.last_lt] at hidx
  rw [Virtqueue.virtqueueGetBuf, if_pos hidx.symm]

/-- The first chain of the used ring is taken back. -/
theorem Served.getBuf_cons (hs : q.Served (h :: used)) :
    ∃ vq len, q.vq.virtqueueGetBuf = .ok (vq, (h : ℤ), some len) ∧
      ({ q with vq := vq } : P9Queue).Served used := by
  have hmem : h ∈ h :: used ++ q.pending.map Pending.head := mem_cons_self
  have hlt := hs.inv.head_lt hmem
  obtain ⟨hlen, hnum⟩ := hs.used_lt
  rw [length_cons] at hlen
  have hidx : q.vq.usedIdx = u16 (q.vq.lastUsedIdx + (used.length + 1)) := hs.usedIdx
  have hid : q.vq.nextUsed.id = h := hs.ring 0 h rfl
  obtain ⟨vq, hrun, hchain, hinv⟩ := hs.inv.release hmem
  have hloop : q.vq.releaseLoop 65536 h = some vq := by rw [hrun, if_pos (by omega)]
  obtain ⟨hvnum, hvidx, hvring, -⟩ := Virtqueue.releaseLoop_sameUsed hloop
  have hne : q.vq.lastUsedIdx ≠ q.vq.usedIdx := by
    simp only [u16] at hidx
    omega
  rw [Virtqueue.virtqueueGetBuf, if_neg hne, hid, u16_of_lt (by omega), hloop]
  have hint : int32 h = (h : ℤ) := if_pos (by omega)
  refine ⟨{ vq with lastUsedIdx := u16 (q.vq.lastUsedIdx + 1) }, q.vq.nextUsed.len,
    by rw [hint], ?_, ?_, Nat.mod_lt _ (by decide), ?_, fun k h' hk => ?_⟩
  · rw [cons_append, erase_cons_head] at hinv
    exact ⟨hinv.num_pos, hinv.num_le, hinv.chains, hinv.perm⟩
  · rw [hvnum]
    exact hs.num_dvd
  · rw [hvidx, hidx]
    simp only [u16]
    omega
  · rw [hvring, hvnum, Nat.add_mod, hs.slot, ← Nat.add_mod, Nat.add_assoc, Nat.add_comm 1 k]
    exact hs.ring (k + 1) h' hk

theorem Served.pollLoop (hs : q.Served used) (rx : Mem) :
    ∃ q' rx' r used', pollLoop n q rx = .ok (q', rx', r) ∧ q'.Served used' := by
  induction n generalizing q rx used with
  | zero => exact ⟨q, rx, none, used, rfl, hs⟩
  | succ n ih =>
    rw [P9Queue.pollLoop]
    obtain ⟨⟨more, hs1⟩, -, -⟩ := hs.elapse rx
    generalize q.elapse rx = x at hs1 ⊢
    obtain ⟨q1, rx1⟩ := x
    dsimp only at hs1 ⊢
    cases hused : used ++ more with
    | nil =>
      rw [hused] at hs1
      rw [hs1.getBuf_nil]
      exact ih hs1 rx1
    | cons h rest =>
      rw [hused] at hs1
      obtain ⟨vq, len, hget, hs2⟩ := hs1.getBuf_cons
      rw [hget]
      dsimp only
      rw [if_pos (by omega)]
      exact ⟨_, _, _, rest, rfl, hs2⟩

theorem Served.exchange (hs : q.Served used) (msg : List UInt8) (rx : Mem) :
    ∃ q' rx' e used', q.exchange msg rx = .ok (q', rx', e) ∧ q'.Served used' := by
  rw [P9Queue.exchange]
  obtain ⟨⟨more, hs1⟩, -, -⟩ := hs.elapse rx
  generalize q.elapse rx = x at hs1 ⊢
  obtain ⟨q1, rx1⟩ := x
  dsimp only at hs1 ⊢
  rcases Nat.lt_or_ge q1.vq.numFree 2 with hfull | hfree
  · rw [submit_full hfull]
    exact ⟨_, _, _, _, rfl, hs1.of_eq rfl rfl⟩
  · obtain ⟨q2, hsub, hs2, -⟩ := hs1.submit hfree msg
    obtain ⟨q3, rx3, r, used3, hpoll, hs3⟩ := hs2.pollLoop (n := p9Polls) rx1
    rw [hsub]
    rw [if_neg (by omega), hpoll]
    rcases r with _ | ⟨retIdx, len⟩
    · exact ⟨_, _, _, _, rfl, hs3⟩
    · exact ⟨_, _, _, _, rfl, hs3⟩

/-! ## Whose reply it is -/

/-- The device works as `timing` says from now on. -/
def retime (q : P9Queue) (timing : Stream' (List DeviceAct)) : P9Queue :=
  { q with timing := timing }

/-- If `p9_rpc` returns 0, it took the completion of the chain it submitted, and the reply has the
tag of the request. -/
def OwnReply (q : P9Queue) (msg : List UInt8) (rx : Mem) : Prop :=
  ∀ q' rx' e, q.exchange msg rx = .ok (q', rx', some e) →
    e.retIdx = e.idx ∧ tagIn rx' = tagOf msg

/-- The chain of the message is the only one outstanding: the device has it, or its reply
is in `rx_buffer`. -/
inductive Alone (msg : List UInt8) (idx : ℕ) : P9Queue × Mem → Prop where
  | waiting {q : P9Queue} {rx : Mem} {request : Option (List UInt8)} (hs : q.Served [])
      (hp : q.pending = [⟨idx, request⟩]) (hreq : request.getD q.tx = msg) :
      Alone msg idx (q, rx)
  | answered {q : P9Queue} {rx : Mem} (hs : q.Served [idx]) (hp : q.pending = [])
      (htag : tagIn rx = tagOf msg) : Alone msg idx (q, rx)

/-- With no chain at the device there is nothing it can do. -/
theorem act_of_none (hp : q.pending = []) (rx : Mem) (a : DeviceAct) : act (q, rx) a = (q, rx) := by
  cases a with
  | fetch i =>
    simp only [act, fetch, hp, modify_nil]
    rw [← hp]
  | complete i type payload => simp only [act, complete, hp, List.getElem?_nil]

theorem tagIn_replyTo (rx : Mem) (request : List UInt8) (type : UInt8) (payload : List UInt8) :
    let reply := replyTo request type payload
    tagIn (rx.paste 0 reply.length fun k => reply.getD k 0) = tagOf request := by
  have hlen : 6 < (replyTo request type payload).length := by
    simp only [replyTo, writeU32, length_append, length_cons, length_nil]
    omega
  simp only [tagIn]
  rw [Mem.paste_of_mem (by omega) (by omega), Mem.paste_of_mem (by omega) (by omega)]
  rfl

theorem Alone.act {x : P9Queue × Mem} (h : Alone msg idx x) (a : DeviceAct) :
    Alone msg idx (act x a) := by
  cases h with
  | @waiting q rx request hs hp hreq =>
    cases a with
    | fetch i =>
      cases i with
      | zero =>
        have hp' : (q.fetch 0).pending = [⟨idx, some msg⟩] := by simp [P9Queue.fetch, hp, hreq]
        exact .waiting (hs.fetch 0) hp' rfl
      | succ i =>
        have hp' : (q.fetch (i + 1)).pending = [⟨idx, request⟩] := by simp [P9Queue.fetch, hp]
        exact .waiting (hs.fetch (i + 1)) hp' hreq
    | complete i type payload =>
      cases i with
      | zero =>
        have hget : q.pending[0]? = some ⟨idx, request⟩ := by rw [hp]; rfl
        have hs' := hs.complete hget rx type payload
        have htag := tagIn_replyTo rx msg type payload
        simp only [P9Queue.act, P9Queue.complete, hget, hreq] at hs' ⊢
        refine .answered hs' ?_ htag
        rw [hp]
        rfl
      | succ i =>
        have hget : q.pending[i + 1]? = none := by rw [hp]; rfl
        simp only [P9Queue.act, P9Queue.complete, hget]
        exact .waiting hs hp hreq
  | answered hs hp htag =>
    rw [act_of_none hp]
    exact .answered hs hp htag

theorem Alone.elapse (h : Alone msg idx (q, rx)) : Alone msg idx (q.elapse rx) := by
  refine elapse_induct (Alone msg idx) ?_ fun x a hx => hx.act a
  cases h with
  | waiting hs hp hreq => exact .waiting (hs.of_eq rfl rfl) hp hreq
  | answered hs hp htag => exact .answered (hs.of_eq rfl rfl) hp htag

theorem Alone.pollLoop {len : ℕ} {retIdx : ℤ} (h : Alone msg idx (q, rx))
    (hrun : pollLoop n q rx = .ok (q', rx', some (retIdx, len))) :
    retIdx = idx ∧ tagIn rx' = tagOf msg := by
  induction n generalizing q rx with
  | zero =>
    rw [P9Queue.pollLoop] at hrun
    cases (Prod.mk.inj (ok_pair hrun).2).2
  | succ n ih =>
    rw [P9Queue.pollLoop] at hrun
    have h1 := h.elapse
    generalize q.elapse rx = x at h1 hrun
    obtain ⟨q1, rx1⟩ := x
    dsimp only at hrun
    cases h1 with
    | waiting hs hp hreq =>
      rw [hs.getBuf_nil] at hrun
      exact ih (.waiting hs hp hreq) hrun
    | answered hs hp htag =>
      obtain ⟨vq, len', hget, -⟩ := hs.getBuf_cons
      rw [hget] at hrun
      dsimp only at hrun
      rw [if_pos (by omega)] at hrun
      obtain ⟨-, hout⟩ := ok_pair hrun
      obtain ⟨rfl, hres⟩ := Prod.mk.inj hout
      obtain ⟨rfl, -⟩ := Prod.mk.inj (Option.some.inj hres)
      exact ⟨rfl, htag⟩

/-- **With nothing outstanding a call gets its own reply**, whatever the device does. -/
theorem Served.ownReply (hs : q.Served []) (hp : q.pending = []) (msg : List UInt8) (rx : Mem) :
    q.OwnReply msg rx := by
  intro q' rx' e hrun
  rw [P9Queue.exchange] at hrun
  -- the device has nothing to do before the request is there
  obtain ⟨hs1, hp1⟩ : (q.elapse rx).1.Served [] ∧ (q.elapse rx).1.pending = [] := by
    refine elapse_induct (fun x => x.1.Served [] ∧ x.1.pending = []) ⟨hs.of_eq rfl rfl, hp⟩ ?_
    rintro ⟨q1, rx1⟩ a ⟨hs1, hp1⟩
    rw [act_of_none hp1]
    exact ⟨hs1, hp1⟩
  generalize q.elapse rx = x at hs1 hp1 hrun
  obtain ⟨q1, rx1⟩ := x
  dsimp only at hs1 hp1 hrun
  rcases Nat.lt_or_ge q1.vq.numFree 2 with hfull | hfree
  · rw [submit_full hfull] at hrun
    cases (Prod.mk.inj (ok_pair hrun).2).2
  · obtain ⟨q2, hsub, hs2, htx, hp2, -⟩ := hs1.submit hfree msg
    rw [hsub] at hrun
    rw [if_neg (by omega)] at hrun
    rw [hp1, nil_append] at hp2
    have halone : Alone msg q1.vq.freeHead (q2, rx1) := .waiting hs2 hp2 htx
    rcases hpoll : P9Queue.pollLoop p9Polls q2 rx1 with err | ⟨q3, rx3, r⟩
    · rw [hpoll] at hrun
      cases hrun
    rw [hpoll] at hrun
    rcases r with _ | ⟨retIdx, len⟩
    · cases (Prod.mk.inj (ok_pair hrun).2).2
    · obtain ⟨-, hout⟩ := ok_pair hrun
      obtain ⟨rfl, hres⟩ := Prod.mk.inj hout
      cases hres
      exact halone.pollLoop hpoll

theorem elapse_idle (h : q.timing.head = []) (rx : Mem) :
    q.elapse rx = ({ q with timing := q.timing.tail }, rx) := by
  rw [elapse, h, foldl_nil]

/-- A device that does nothing lets the polling loop run to its end. -/
theorem Served.pollLoop_idle (hs : q.Served []) (ht : q.timing = Stream'.const []) (n : ℕ)
    (rx : Mem) : P9Queue.pollLoop n q rx = .ok (q, rx, none) := by
  have helapse : q.elapse rx = (q, rx) := by
    rw [elapse_idle (by rw [ht]; rfl), show q.timing.tail = q.timing by rw [ht]; rfl]
  induction n with
  | zero => rfl
  | succ n ih =>
    rw [P9Queue.pollLoop, helapse]
    dsimp only
    rw [hs.getBuf_nil]
    exact ih

/-- A request that is not answered in time stays with the device. -/
theorem Served.timeout (hs : q.Served []) (hfree : 2 ≤ q.vq.numFree) (msg : List UInt8) (rx : Mem) :
    ∃ q', (q.retime (Stream'.const [])).exchange msg rx = .ok (q', rx, none) ∧ q'.Served [] ∧
      q'.pending = q.pending ++ [⟨q.vq.freeHead, none⟩] ∧ q'.vq.numFree = q.vq.numFree - 2 := by
  have hs0 : (q.retime (Stream'.const [])).Served [] := hs.of_eq rfl rfl
  have helapse : (q.retime (Stream'.const [])).elapse rx = (q.retime (Stream'.const []), rx) :=
    elapse_idle rfl rx
  obtain ⟨q1, hsub, hs1, -, hp1, htime1, hfree1⟩ := hs0.submit hfree msg
  rw [P9Queue.exchange, helapse]
  dsimp only
  rw [hsub]
  rw [if_neg (by omega), hs1.pollLoop_idle (htime1.trans rfl)]
  exact ⟨q1, rfl, hs1, hp1, hfree1⟩

/-- The device answers the oldest chain it has at once, and does nothing more. -/
def lateAnswer : Stream' (List DeviceAct) := Stream'.cons [.complete 0 0 []] (Stream'.const [])

theorem Served.elapse_lateAnswer (hs : q.Served used)
    (hout : used ++ q.pending.map Pending.head ≠ []) (rx : Mem) :
    ∃ q' rx' h rest, (q.retime lateAnswer).elapse rx = (q', rx') ∧ q'.Served (h :: rest) ∧
      q'.vq.numFree = q.vq.numFree ∧ q'.timing = Stream'.const [] := by
  have hs0 : (q.retime (Stream'.const [])).Served used := hs.of_eq rfl rfl
  have helapse : (q.retime lateAnswer).elapse rx =
      (q.retime (Stream'.const [])).complete rx 0 0 [] := rfl
  rw [helapse]
  rcases hp : q.pending with _ | ⟨p, ps⟩
  · -- it has been answered before
    rw [hp, map_nil, append_nil] at hout
    obtain ⟨h, rest, rfl⟩ := exists_cons_of_ne_nil hout
    have hget : (q.retime (Stream'.const [])).pending[0]? = none := by
      rw [retime, hp]
      rfl
    rw [P9Queue.complete, hget]
    exact ⟨_, _, h, rest, rfl, hs0, rfl, rfl⟩
  · have hget : (q.retime (Stream'.const [])).pending[0]? = some p := by
      rw [retime, hp]
      rfl
    have hs1 := hs0.complete hget rx 0 []
    obtain ⟨h, rest, hcons⟩ := exists_cons_of_ne_nil
      (append_ne_nil_of_right_ne_nil used (cons_ne_nil p.head []))
    rw [hcons] at hs1
    rw [P9Queue.complete, hget] at hs1 ⊢
    exact ⟨_, _, h, rest, rfl, hs1, rfl, rfl⟩

/-- **A chain left over is taken for the reply** if it is answered before the next request is
submitted. -/
theorem Served.stale (hs : q.Served used) (hout : used ++ q.pending.map Pending.head ≠ [])
    (hfree : 2 ≤ q.vq.numFree) (msg : List UInt8) (rx : Mem) :
    ∃ q' rx' e, (q.retime lateAnswer).exchange msg rx = .ok (q', rx', some e) ∧
      e.retIdx ≠ e.idx := by
  obtain ⟨q1, rx1, h, rest, helapse, hs1, hfree1, htime1⟩ := hs.elapse_lateAnswer hout rx
  rw [← hfree1] at hfree
  obtain ⟨q2, hsub, hs2, -, -, htime2, -⟩ := hs1.submit hfree msg
  have hother : (h : ℤ) ≠ q1.vq.freeHead := by
    intro heq
    refine hs1.inv.freeHead_not_mem (by omega) ?_
    rw [← Int.ofNat_inj.mp heq]
    exact mem_cons_self
  -- the first poll finds the old chain
  have hidle : q2.elapse rx1 = ({ q2 with timing := q2.timing.tail }, rx1) :=
    elapse_idle (by rw [htime2, htime1]; rfl) rx1
  have hs3 : ({ q2 with timing := q2.timing.tail } : P9Queue).Served (h :: rest) :=
    hs2.of_eq rfl rfl
  obtain ⟨vq, len, hget, -⟩ := hs3.getBuf_cons
  have hpoll : P9Queue.pollLoop p9Polls q2 rx1 =
      .ok ({ q2 with timing := q2.timing.tail, vq := vq }, rx1, some ((h : ℤ), len)) := by
    rw [show p9Polls = 9999999 + 1 from rfl, P9Queue.pollLoop, hidle]
    dsimp only at hget ⊢
    rw [hget]
    dsimp only
    rw [if_pos (by omega)]
    rfl
  rw [P9Queue.exchange, helapse]
  dsimp only
  rw [hsub]
  rw [if_neg (by omega), hpoll]
  exact ⟨_, _, _, rfl, hother⟩

end P9Queue

end PenOS
