import PenOS.P9Queue

/-!
# Replies and requests over whole runs

The one way to a chain outstanding is a request that timed out: the replies match as long as every
request is answered in time, and a late answer goes to a later request.
-/

namespace PenOS

variable {b : Bool} {msg : List UInt8} {type : P9Type}

/-- An operation of the client with its arguments. -/
inductive P9Op : Type where
  | version : P9Op
  | attach (uname aname : List UInt8) : P9Op
  | walk (fid newfid : ℕ) (path : Option (List UInt8)) : P9Op
  | lopen (fid flags : ℕ) : P9Op
  | read (fid offset count : ℕ) : P9Op
  | readdir (fid offset count : ℕ) : P9Op
  | clunk (fid : ℕ) : P9Op
  | getFileSize (fid : ℕ) : P9Op

/-- The client after an operation. -/
def P9Op.run {σ : Type} [P9Link σ] (s : P9 σ) : P9Op → Except Halt (P9 σ)
  | .version => s.p9Version.map Prod.fst
  | .attach uname aname => (s.p9Attach uname aname).map Prod.fst
  | .walk fid newfid path => (s.p9Walk fid newfid path).map Prod.fst
  | .lopen fid flags => (s.p9Open fid flags).map Prod.fst
  | .read fid offset count => (s.p9Read fid offset count).map Prod.fst
  | .readdir fid offset count => (s.p9Readdir fid offset count).map Prod.fst
  | .clunk fid => s.p9Clunk fid
  | .getFileSize fid => (s.p9GetFileSize fid).map Prod.fst

/-! ## Every operation is one call of `p9_rpc` -/

section Operations

variable {σ : Type} {s s' : P9 σ}

theorem map_fst_ok {α β : Type} {x : Except Halt (α × β)} {a : α}
    (h : x.map Prod.fst = .ok a) : ∃ b, x = .ok (a, b) := by
  rcases x with e | ⟨a', b⟩
  · cases h
  · cases h
    exact ⟨b, rfl⟩

theorem P9.typeCheck_ok {x : Except Halt (P9 σ × Bool)} {r : ℤ}
    (h : P9.typeCheck type x = .ok (s', r)) : ∃ b, x = .ok (s', b) := by
  rcases x with e | ⟨s1, b⟩
  · cases h
  · cases h
    exact ⟨b, rfl⟩

variable [P9Link σ]

/-- The client `s'` is `s` after a call of `p9_rpc`. -/
def P9.Called (s s' : P9 σ) : Prop :=
  ∃ msg len, P9Link.rpc s.link msg s.rx = .ok (s'.link, s'.rx, len)

theorem P9.rpc_called (h : s.rpc msg = .ok (s', b)) : s.Called s' := by
  unfold P9.rpc at h
  rcases hr : P9Link.rpc s.link msg s.rx with e | ⟨link, rx, len⟩
  · rw [hr] at h
    cases h
  · rw [hr] at h
    cases h
    exact ⟨msg, len, hr⟩

theorem P9.request_called {body : List UInt8}
    (h : s.request type body = .ok (s', b)) : s.Called s' :=
  P9.rpc_called (s := { s with tag := u16 (s.tag + 1) }) h

theorem P9.transfer_called {expected : P9Type} {fid offset count : ℕ} {r : ℤ × List UInt8}
    (h : s.transfer type expected fid offset count = .ok (s', r)) : s.Called s' := by
  unfold P9.transfer at h
  rcases hr : s.request type (writeU32 fid ++ writeU64 offset ++ writeU32 count) with e | ⟨s1, b⟩
  · rw [hr] at h
    cases h
  rw [hr] at h
  dsimp only at h
  have hcall := P9.request_called hr
  split_ifs at h
  · cases h
    exact hcall
  · cases h
    exact hcall

theorem P9Op.run_called {op : P9Op} (h : op.run s = .ok s') : s.Called s' := by
  have hcheck : ∀ {type : P9Type} {x : Except Halt (P9 σ × Bool)},
      (∀ b, x = .ok (s', b) → s.Called s') → (P9.typeCheck type x).map Prod.fst = .ok s' →
      s.Called s' := by
    intro type x hx hrun
    obtain ⟨r, hr⟩ := map_fst_ok hrun
    obtain ⟨b, hb⟩ := P9.typeCheck_ok hr
    exact hx b hb
  cases op with
  | version => exact hcheck (fun _ => P9.rpc_called) h
  | attach uname aname => exact hcheck (fun _ => P9.request_called) h
  | walk fid newfid path => exact hcheck (fun _ => P9.request_called) h
  | lopen fid flags => exact hcheck (fun _ => P9.request_called) h
  | read fid offset count =>
    obtain ⟨r, hr⟩ := map_fst_ok h
    exact P9.transfer_called hr
  | readdir fid offset count =>
    obtain ⟨r, hr⟩ := map_fst_ok h
    exact P9.transfer_called hr
  | clunk fid =>
    simp only [P9Op.run, P9.p9Clunk] at h
    split at h
    · cases h
    · next hr =>
      cases h
      exact P9.request_called hr
  | getFileSize fid =>
    obtain ⟨r, h⟩ := map_fst_ok h
    simp only [P9.p9GetFileSize] at h
    split at h
    · cases h
    · next hr =>
      cases h
      exact P9.request_called hr

end Operations

/-! ## Runs -/

/-- The device works as `timing` says from now on. -/
def P9.retime (s : P9 P9Queue) (timing : Stream' (List DeviceAct)) : P9 P9Queue :=
  { s with link := s.link.retime timing }

/-- The client in use after `virtqueue_init`, with a device that works in any timing. The queue size
is a power of two. -/
inductive P9Run : P9 P9Queue → Prop where
  | init {D : Type} [Disk D] {heap heap' : Heap D} {reported pfn : ℕ} {s : P9 P9Queue}
      (h : virtqueueInit heap reported = .ok (heap', some (s.link.vq, pfn)))
      (hnum : queueSizeOf reported ∣ 65536) (hp : s.link.pending = []) : P9Run s
  | op {s s' : P9 P9Queue} (timing : Stream' (List DeviceAct)) (op : P9Op) (hr : P9Run s)
      (h : op.run (s.retime timing) = .ok s') : P9Run s'

theorem P9Queue.rpc_exchange {q q' : P9Queue} {rx rx' : Mem} {len : Option ℕ}
    (h : P9Link.rpc q msg rx = .ok (q', rx', len)) :
    ∃ e, q.exchange msg rx = .ok (q', rx', e) ∧ len = e.map Exchange.len := by
  simp only [P9Link.rpc] at h
  rcases hr : q.exchange msg rx with err | ⟨q1, rx1, e⟩
  · rw [hr] at h
    cases h
  · rw [hr] at h
    obtain ⟨rfl, hout⟩ := ok_pair h
    cases hout
    exact ⟨e, rfl, rfl⟩

/-- In every state of a run the outstanding chains are accounted for. -/
theorem P9Run.served {s : P9 P9Queue} (hr : P9Run s) : ∃ used, s.link.Served used := by
  induction hr with
  | @init D _ heap heap' reported pfn s h hnum hp =>
    have hinv := (VqReach.init h).inv
    obtain ⟨layout, hvq⟩ := virtqueueInit_setup h
    refine ⟨[], ?_, ?_, ?_, ?_, fun k h hk => ?_⟩
    · rw [hp]
      exact hinv
    · rw [hvq]
      exact hnum
    · rw [hvq]
      exact Nat.zero_lt_succ _
    · rw [hvq]
      rfl
    · cases hk
  | @op s s' timing op hr h ih =>
    obtain ⟨used, hs⟩ := ih
    obtain ⟨msg, len, hcall⟩ := P9Op.run_called h
    obtain ⟨e, hrun, -⟩ := P9Queue.rpc_exchange hcall
    have hs1 : (s.retime timing).link.Served used := hs.of_eq rfl rfl
    obtain ⟨q', rx', e', used', hrun', hs'⟩ := hs1.exchange msg (s.retime timing).rx
    rw [hrun] at hrun'
    obtain ⟨rfl, -⟩ := ok_pair hrun'
    exact ⟨used', hs'⟩

/-- **Replies match requests exactly if nothing is outstanding**: in every run a call of `p9_rpc` is
sure to get its own reply exactly if all descriptors are free; with fewer than two free it fails. -/
theorem own_reply_iff {s : P9 P9Queue} (hr : P9Run s) (msg : List UInt8) :
    (∀ timing, (s.link.retime timing).OwnReply msg s.rx) ↔
      s.link.vq.numFree = s.link.vq.num ∨ s.link.vq.numFree < 2 := by
  obtain ⟨used, hs⟩ := hr.served
  constructor
  · intro hown
    by_contra hnot
    obtain ⟨hbusy, hfree⟩ := not_or.mp hnot
    have hout : used ++ s.link.pending.map Pending.head ≠ [] :=
      fun hnil => hbusy (hs.inv.numFree_eq_iff.mpr hnil)
    obtain ⟨q', rx', e, hrun, hne⟩ := hs.stale hout (by omega) msg s.rx
    exact hne (hown _ q' rx' e hrun).1
  · rintro (hall | hfull) timing
    · obtain ⟨rfl, hp⟩ := List.append_eq_nil_iff.mp (hs.inv.numFree_eq_iff.mp hall)
      have hs1 : (s.link.retime timing).Served [] := hs.of_eq rfl rfl
      exact hs1.ownReply (List.map_eq_nil_iff.mp hp) msg s.rx
    · intro q' rx' e hrun
      have hs1 : (s.link.retime timing).Served used := hs.of_eq rfl rfl
      obtain ⟨-, hnumFree, -⟩ := hs1.elapse s.rx
      rw [P9Queue.exchange] at hrun
      generalize (s.link.retime timing).elapse s.rx = x at hnumFree hrun
      obtain ⟨q1, rx1⟩ := x
      dsimp only at hnumFree hrun
      have hfull1 : q1.vq.numFree < 2 := by
        rw [hnumFree]
        exact hfull
      rw [P9Queue.submit_full hfull1] at hrun
      cases (Prod.mk.inj (ok_pair hrun).2).2

/-- A client that has just set up a queue of four descriptors. -/
theorem first_client : ∃ s : P9 P9Queue, P9Run s ∧ s.link.vq.numFree = 4 ∧ s.link.vq.num = 4 ∧
    s.link.pending = [] := by
  let mb : MultibootInfo := ⟨1024, 64, 0, fun _ => ⟨0, 0, 0, 0⟩⟩
  have hrun : ((pmmInit 1 0 (some mb)).bind fun p =>
      (Paging.boot p (fun _ => 0) (fun _ _ _ => 0) : Paging DiskImage).initDirectory.toOption.bind
        fun s => (virtqueueInit (Heap.boot s).heapInit 4).toOption.map
          fun out => out.2.isSome) = some true := by
    decide +kernel
  simp only [Option.bind_eq_some_iff, Option.map_eq_some_iff] at hrun
  obtain ⟨p, -, paging, -, ⟨heap, o⟩, hinit, hsome⟩ := hrun
  obtain ⟨⟨vq, pfn⟩, rfl⟩ := Option.isSome_iff_exists.mp hsome
  have hinit := ok_of_toOption hinit
  obtain ⟨layout, hvq⟩ := virtqueueInit_setup hinit
  let link : P9Queue := ⟨vq, id, 0, p9MaxMsgSize, [], [], Stream'.const []⟩
  refine ⟨⟨link, 0, 1, false, fun _ => 0⟩, .init hinit (by decide) rfl, ?_, ?_, rfl⟩
  · change vq.numFree = 4
    rw [hvq]
    rfl
  · change vq.num = 4
    rw [hvq]
    rfl

/-- A `p9_clunk` is not answered in time, and `p9_open` takes its completion. -/
theorem late_reply_taken : ∃ s : P9 P9Queue, P9Run s ∧ ∃ timing q' rx' e,
    (s.link.retime timing).exchange (p9Message .tlopen s.tag (writeU32 1 ++ writeU32 0)) s.rx =
      .ok (q', rx', some e) ∧ e.retIdx ≠ e.idx := by
  obtain ⟨s, hr, hfree, hnum, hp⟩ := first_client
  obtain ⟨used, hs⟩ := hr.served
  obtain ⟨rfl, -⟩ := List.append_eq_nil_iff.mp (hs.inv.numFree_eq_iff.mp (by rw [hfree, hnum]))
  obtain ⟨q1, hrun, hs1, hp1, hfree1⟩ :=
    hs.timeout (by omega) (p9Message .tclunk s.tag (writeU32 7)) s.rx
  have hclunk : (P9Op.clunk 7).run (s.retime (Stream'.const [])) =
      .ok { s with link := q1, tag := u16 (s.tag + 1) } := by
    simp only [P9Op.run, P9.p9Clunk, P9.request, P9.rpc, P9Link.rpc, P9.retime, hrun]
  refine ⟨_, .op _ _ hr hclunk, P9Queue.lateAnswer, hs1.stale ?_ (by omega) _ _⟩
  rw [hp1, hp]
  exact List.cons_ne_nil _ _

theorem own_reply_iff_first : ∃ s : P9 P9Queue, P9Run s ∧
    ∀ msg timing, (s.link.retime timing).OwnReply msg s.rx := by
  obtain ⟨s, hr, hfree, hnum, -⟩ := first_client
  exact ⟨s, hr, fun msg => (own_reply_iff hr msg).mpr (.inl (hfree.trans hnum.symm))⟩

end PenOS
