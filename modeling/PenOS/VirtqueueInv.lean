import Mathlib.Data.List.Flatten
import PenOS.Virtqueue

/-!
# The descriptors of a virtqueue

The descriptors are divided between the free list and the chains that the device has not returned.
Submitting cuts a piece off the front of the list; taking a chain back puts its descriptors in front
one by one.
-/

namespace PenOS

open Function List

variable {curr h i num : ℕ} {c l : List ℕ} {r : ℤ}

theorem queueSizeOf_bounds (reported : ℕ) :
    0 < queueSizeOf reported ∧ queueSizeOf reported ≤ virtqueueSize := by
  have hsize : virtqueueSize = 128 := rfl
  unfold queueSizeOf
  split_ifs <;> omega

namespace Virtqueue

variable {q q' : Virtqueue} {virtToPhys : ℕ → ℕ} {bufs : List VirtioBufDesc}

/-- The successor of a descriptor. -/
def nextOf (q : Virtqueue) (i : ℕ) : ℕ := (q.desc i).next

/-- The free list: `num_free` descriptors from `free_head` on. -/
def freeList (q : Virtqueue) : List ℕ := walk q.nextOf q.numFree q.freeHead

/-- The chain from `head` on, while `VRING_DESC_F_NEXT` is set. -/
def chain (q : Virtqueue) (head : ℕ) : Option (List ℕ) := chase q.nextOf q.hasNext q.num head

/-- The descriptors of the chain from `head` on. -/
def chainOf (q : Virtqueue) (head : ℕ) : List ℕ := (q.chain head).getD []

/-! ## What the loops do -/

/-- The descriptors `l` of `q'` may differ from those of `q`, and the list of free
ones; nothing else. -/
structure OnlyDescs (q q' : Virtqueue) (l : List ℕ) : Prop where
  desc : ∀ i, i ∉ l → q'.desc i = q.desc i
  num : q'.num = q.num

theorem OnlyDescs.nextOf (h : q.OnlyDescs q' l) (hi : i ∉ l) :
    q'.nextOf i = q.nextOf i := by rw [Virtqueue.nextOf, h.desc i hi, Virtqueue.nextOf]

theorem OnlyDescs.hasNext (h : q.OnlyDescs q' l) (hi : i ∉ l) :
    q'.hasNext i = q.hasNext i := by rw [Virtqueue.hasNext, h.desc i hi, Virtqueue.hasNext]

theorem OnlyDescs.chain {head : ℕ} (h : q.OnlyDescs q' l)
    (hc : q.chain head = some c) (hdis : ∀ i ∈ c, i ∉ l) : q'.chain head = some c := by
  unfold Virtqueue.chain
  rw [h.num]
  exact chase_congr hc fun i hi => ⟨h.nextOf (hdis i hi), h.hasNext (hdis i hi)⟩

/-- **The loop of `virtqueue_add_chain`** turns the first descriptors of the free
list into a chain, and the free list starts behind them. -/
theorem addChainLoop_spec (virtToPhys : ℕ → ℕ) (hne : bufs ≠ [])
    (hnd : (walk q.nextOf bufs.length curr).Nodup) : let q' := addChainLoop virtToPhys q curr bufs
    q.OnlyDescs q' (walk q.nextOf bufs.length curr) ∧
    chase q'.nextOf q'.hasNext bufs.length curr = some (walk q.nextOf bufs.length curr) ∧
    q'.freeHead = q.nextOf^[bufs.length] curr ∧ q'.numFree = q.numFree := by
  induction bufs generalizing q curr with
  | nil => exact absurd rfl hne
  | cons b bs ih =>
    rw [addChainLoop]
    dsimp only
    generalize hset : ({ q with desc := _, freeHead := _ } : Virtqueue) = q1
    rw [show (q.desc curr).next = q.nextOf curr from rfl]
    have hother : ∀ i, i ≠ curr → q1.desc i = q.desc i := by
      intro i hi
      rw [← hset]
      exact update_of_ne hi ..
    have hself : q1.desc curr =
        { addr := virtToPhys b.buf, len := b.len,
          flags := (if b.write then vringDescFWrite else 0) |||
            (if bs ≠ [] then vringDescFNext else 0),
          next := if bs ≠ [] then (q.desc curr).next else 0 } := by
      rw [← hset]
      exact update_self ..
    cases bs with
    | nil =>
      -- the last descriptor ends the chain
      have hflag : q1.hasNext curr = false := by
        simp only [hasNext, hself]
        cases b.write <;> simp
      rw [addChainLoop]
      refine ⟨⟨fun i hi => ?_, by rw [← hset]⟩, ?_, ?_, by rw [← hset]⟩
      · exact hother i fun h => hi (h ▸ mem_cons_self)
      · rw [length_singleton, chase, hflag]
        rfl
      · rw [← hset]
        rfl
    | cons b' bs =>
      -- the successor is kept, so the walk goes on as before
      have hnext : q1.nextOf = q.nextOf := by
        funext i
        by_cases hi : i = curr
        · subst hi
          rw [nextOf, hself]
          rfl
        · rw [nextOf, hother i hi, nextOf]
      have hflag : q1.hasNext curr = true := by
        simp only [hasNext, hself]
        cases b.write <;> simp
      rw [length_cons, walk] at hnd ⊢
      obtain ⟨hnot, hnd⟩ := List.nodup_cons.mp hnd
      obtain ⟨honly, hchase, hfree, hnumFree⟩ :=
        ih (q := q1) (cons_ne_nil b' bs) (hnext ▸ hnd)
      rw [hnext] at honly hchase hfree hnumFree
      refine ⟨⟨fun i hi => ?_, ?_⟩, ?_, hfree, ?_⟩
      · rw [mem_cons, not_or] at hi
        exact (honly.desc i hi.2).trans (hother i hi.1)
      · rw [honly.num, ← hset]
      · rw [chase, honly.hasNext hnot, hflag, if_pos rfl, honly.nextOf hnot, hnext]
        exact Option.map_eq_some_iff.mpr ⟨_, hchase, rfl⟩
      · rw [hnumFree, ← hset]

/-- **The loop of `virtqueue_get_buf`** ends after one round for each descriptor, with the chain,
reversed, in front of the free list. -/
theorem releaseLoop_spec {n : ℕ} (hc : chase q.nextOf q.hasNext n curr = some c)
    (hnd : (c ++ q.freeList).Nodup) (hlt : q.numFree + c.length < 65536) :
    ∃ q', (∀ fuel, q.releaseLoop fuel curr = if c.length ≤ fuel then some q' else none) ∧
      q.OnlyDescs q' c ∧ q'.freeList = c.reverse ++ q.freeList := by
  induction c generalizing q n curr with
  | nil =>
    obtain ⟨_, _, -, hnil, -⟩ := chase_cons hc
    cases hnil
  | cons x xs ih =>
    obtain ⟨n', ys, rfl, heq, hcase⟩ := chase_cons hc
    obtain ⟨rfl, rfl⟩ := List.cons.inj heq
    rw [cons_append, nodup_cons, mem_append, not_or] at hnd
    obtain ⟨⟨hxs, hxfree⟩, hnd⟩ := hnd
    rw [length_cons] at hlt
    have hrel : q.OnlyDescs (q.release x) [x] :=
      ⟨fun i hi => update_of_ne (by simpa using hi) .., rfl⟩
    -- one more free descriptor, in front
    have hfree : (q.release x).freeList = x :: q.freeList := by
      have hnum : (q.release x).numFree = q.numFree + 1 := u16_of_lt (by omega)
      have hhead : (q.release x).nextOf x = q.freeHead := by simp [nextOf, release, setNext]
      have hrest : walk (q.release x).nextOf q.numFree q.freeHead = q.freeList := by
        refine walk_congr fun i hi => hrel.nextOf ?_
        rintro h
        rw [List.mem_singleton.mp h] at hi
        exact hxfree hi
      rw [freeList, hnum]
      change x :: walk (q.release x).nextOf q.numFree ((q.release x).nextOf x) = _
      rw [hhead, hrest]
    rcases hcase with ⟨hlast, rfl⟩ | ⟨hgo, hrest⟩
    · refine ⟨q.release x, fun fuel => ?_, hrel, by rw [hfree]; rfl⟩
      cases fuel with
      | zero => rfl
      | succ fuel =>
        rw [releaseLoop, hlast, if_neg Bool.false_ne_true]
        simp
    · have hrest1 : chase (q.release x).nextOf (q.release x).hasNext n' (q.nextOf x) = some xs := by
        refine chase_congr hrest fun i hi => ?_
        have hix : i ∉ [x] := by
          rintro h
          rw [List.mem_singleton.mp h] at hi
          exact hxs hi
        exact ⟨hrel.nextOf hix, hrel.hasNext hix⟩
      have hnd1 : (xs ++ (q.release x).freeList).Nodup := by
        rw [hfree]
        refine (List.perm_middle.nodup_iff).mpr (List.nodup_cons.mpr ⟨?_, hnd⟩)
        rw [mem_append, not_or]
        exact ⟨hxs, hxfree⟩
      have hlt1 : (q.release x).numFree + xs.length < 65536 := by
        have : (q.release x).numFree = q.numFree + 1 := u16_of_lt (by omega)
        omega
      obtain ⟨q', hrun, honly, hfree'⟩ := ih hrest1 hnd1 hlt1
      refine ⟨q', fun fuel => ?_, ⟨fun i hi => ?_, ?_⟩, ?_⟩
      · cases fuel with
        | zero => rfl
        | succ fuel =>
          rw [releaseLoop, hgo, if_pos rfl]
          change (q.release x).releaseLoop fuel (q.nextOf x) = _
          rw [hrun fuel]
          simp
      · rw [mem_cons, not_or] at hi
        rw [honly.desc i hi.2, hrel.desc i (by simpa using hi.1)]
      · rw [honly.num, hrel.num]
      · rw [hfree', hfree, reverse_cons, append_assoc, singleton_append]

/-! ## The partition -/

/-- The descriptors are divided between the free list and the chains from the heads
`inflight`. -/
structure Inv (q : Virtqueue) (inflight : List ℕ) : Prop where
  num_pos : 0 < q.num
  num_le : q.num ≤ virtqueueSize
  chains : ∀ h ∈ inflight, ∃ c, q.chain h = some c
  perm : (q.freeList ++ inflight.flatMap q.chainOf).Perm (List.range q.num)

variable {inflight : List ℕ}

theorem Inv.of_perm (hs : q.Inv inflight) (hp : inflight.Perm l) : q.Inv l :=
  ⟨hs.num_pos, hs.num_le, fun h hh => hs.chains h (hp.mem_iff.mpr hh),
    ((hp.symm.flatMap_right q.chainOf).append_left q.freeList).trans hs.perm⟩

theorem Inv.nodup (hs : q.Inv inflight) : (q.freeList ++ inflight.flatMap q.chainOf).Nodup :=
  hs.perm.nodup_iff.mpr nodup_range

theorem Inv.numFree_le (hs : q.Inv inflight) : q.numFree ≤ q.num := by
  have hlen := hs.perm.length_eq
  rw [length_append, freeList, length_walk, length_range] at hlen
  omega

/-- Chains outside the changed descriptors are kept. -/
theorem Inv.keep_chains (hs : q.Inv inflight) (honly : q.OnlyDescs q' l)
    {kept : List ℕ} (hsub : ∀ h ∈ kept, h ∈ inflight) (hdis : ∀ i ∈ kept.flatMap q.chainOf, i ∉ l) :
    (∀ h ∈ kept, ∃ c, q'.chain h = some c) ∧ kept.flatMap q'.chainOf = kept.flatMap q.chainOf := by
  have hkeep : ∀ h ∈ kept, ∃ c, q.chain h = some c ∧ q'.chain h = some c := by
    intro h hh
    obtain ⟨c, hc⟩ := hs.chains h (hsub h hh)
    refine ⟨c, hc, honly.chain hc fun i hi => hdis i (List.mem_flatMap.mpr ⟨h, hh, ?_⟩)⟩
    rw [chainOf, hc]
    exact hi
  refine ⟨fun h hh => ?_, flatMap_congr fun h hh => ?_⟩
  · obtain ⟨c, -, hc⟩ := hkeep h hh
    exact ⟨c, hc⟩
  · obtain ⟨c, hc, hc'⟩ := hkeep h hh
    rw [chainOf, hc', chainOf, hc]

theorem setup_next (layout : RingLayout) (hi : i + 1 < num) :
    ((setup layout num).desc i).next = i + 1 := by
  have hloop : ∀ (n : ℕ) (desc : ℕ → VringDesc) (i : ℕ), i < n →
      ((List.range n).foldl (fun desc i => setNext desc i (i + 1)) desc i).next = i + 1 := by
    intro n
    induction n with
    | zero => exact fun _ i hi => absurd hi (Nat.not_lt_zero i)
    | succ n ih =>
      intro desc i hi
      rw [range_succ, foldl_append, foldl_cons, foldl_nil, setNext]
      by_cases hin : i = n
      · rw [hin, update_self]
      · rw [update_of_ne hin]
        exact ih desc i (by omega)
  change (linkDescs _ num i).next = i + 1
  rw [linkDescs, setNext, update_of_ne (by omega)]
  exact hloop (num - 1) _ i (by omega)

theorem inv_setup (layout : RingLayout) (hpos : 0 < num) (hle : num ≤ virtqueueSize) :
    (setup layout num).Inv [] := by
  refine ⟨hpos, hle, fun h hh => absurd hh not_mem_nil, ?_⟩
  have hfree : (setup layout num).freeList = List.range' 0 num := by
    refine walk_eq_range' fun i _ hi => setup_next layout ?_
    change i + 1 < 0 + num at hi
    omega
  rw [hfree, flatMap_nil, append_nil, ← range_eq_range']
  exact List.Perm.refl _

/-- **Submitting a chain** with enough free descriptors moves them from the free list to a chain. -/
theorem Inv.addChain (hs : q.Inv inflight) (virtToPhys : ℕ → ℕ) (hne : bufs ≠ [])
    (hfree : bufs.length ≤ q.numFree) :
    ∃ q', q.virtqueueAddChain virtToPhys bufs = (q', (q.freeHead : ℤ)) ∧
      q'.Inv (q.freeHead :: inflight) := by
  have hnd := hs.nodup
  have hle := hs.numFree_le
  -- the free list is the new chain and what is left
  have hsplit : q.freeList = walk q.nextOf bufs.length q.freeHead ++
      walk q.nextOf (q.numFree - bufs.length) (q.nextOf^[bufs.length] q.freeHead) := by
    rw [← walk_add, Nat.add_sub_cancel' hfree, freeList]
  have hperm := hs.perm
  rw [hsplit] at hnd hperm
  generalize hl : walk q.nextOf bufs.length q.freeHead = l at hnd hperm
  generalize hrest : walk q.nextOf (q.numFree - bufs.length)
    (q.nextOf^[bufs.length] q.freeHead) = rest at hnd hperm
  obtain ⟨hndfree, -, hdisfree⟩ := List.nodup_append.mp hnd
  obtain ⟨hndl, -, hdisl⟩ := List.nodup_append.mp hndfree
  obtain ⟨honly, hchase, hhead, hnumFree⟩ :=
    addChainLoop_spec virtToPhys hne (hl ▸ hndl)
  rw [hl] at honly hchase
  rw [virtqueueAddChain, if_neg (by omega)]
  dsimp only
  generalize addChainLoop virtToPhys q q.freeHead bufs = q1 at *
  refine ⟨_, rfl, ?_⟩
  generalize hq' : publish { q1 with numFree := q1.numFree - bufs.length } q.freeHead = q'
  have hdesc : q'.desc = q1.desc := hq' ▸ rfl
  have hnum : q'.num = q1.num := hq' ▸ rfl
  have hnext : q'.nextOf = q1.nextOf := by
    funext i
    rw [nextOf, hdesc, nextOf]
  have hmore : q'.hasNext = q1.hasNext := by
    funext i
    rw [hasNext, hdesc, hasNext]
  have honly' : q.OnlyDescs q' l := ⟨fun i hi => hdesc ▸ honly.desc i hi, hnum.trans honly.num⟩
  have hchain : q'.chain q.freeHead = some l := by
    rw [chain, hnext, hmore, hnum, honly.num]
    exact chase_mono hchase (by omega)
  have hfree' : q'.freeList = rest := by
    have h1 : q'.numFree = q.numFree - bufs.length := by rw [← hq', ← hnumFree]; rfl
    have h2 : q'.freeHead = q.nextOf^[bufs.length] q.freeHead := by rw [← hhead, ← hq']; rfl
    rw [freeList, h1, h2, ← hrest]
    refine walk_congr fun i hi => honly'.nextOf fun hil => ?_
    exact hdisl i hil i (hrest ▸ hi) rfl
  obtain ⟨hkeep, hflat⟩ := hs.keep_chains honly' (fun _ hh => hh) fun i hi hil =>
    hdisfree i (mem_append_left _ hil) i hi rfl
  refine ⟨by rw [honly'.num]; exact hs.num_pos, by rw [honly'.num]; exact hs.num_le, ?_, ?_⟩
  · intro h hh
    rcases List.mem_cons.mp hh with rfl | hh
    · exact ⟨l, hchain⟩
    · exact hkeep h hh
  · rw [hfree', flatMap_cons, hflat, chainOf, hchain, honly'.num]
    refine List.Perm.trans ?_ hperm
    rw [Option.getD_some, ← append_assoc]
    exact List.perm_append_comm.append_right _

/-- `virtqueue_add_buf` submits a chain of one descriptor. -/
theorem virtqueueAddBuf_eq (buf len : ℕ) (write : Bool) :
    q.virtqueueAddBuf virtToPhys buf len write =
      q.virtqueueAddChain virtToPhys [⟨buf, len, write⟩] := by
  unfold virtqueueAddBuf virtqueueAddChain
  rw [length_singleton]
  by_cases h0 : q.numFree = 0
  · rw [if_pos h0, if_pos (by omega)]
  · rw [if_neg h0, if_neg (show ¬ q.numFree < 1 by omega)]
    simp [addChainLoop]

/-- **Taking a chain back.** The loop ends after one round for each descriptor, and
the chain is free. -/
theorem Inv.release (hs : q.Inv inflight) (hh : h ∈ inflight) :
    ∃ q', (∀ fuel, q.releaseLoop fuel h = if (q.chainOf h).length ≤ fuel then some q' else none) ∧
      (q.chainOf h).length ≤ q.num ∧ q'.Inv (inflight.erase h) := by
  obtain ⟨c, hc⟩ := hs.chains h hh
  have hof : q.chainOf h = c := by rw [chainOf, hc, Option.getD_some]
  have hinperm : (inflight.flatMap q.chainOf).Perm
      (c ++ (inflight.erase h).flatMap q.chainOf) := by
    have := (perm_cons_erase hh).flatMap_right q.chainOf
    rwa [flatMap_cons, hof] at this
  have hperm := (hinperm.symm.append_left q.freeList).trans hs.perm
  have hnd := hperm.nodup_iff.mpr nodup_range
  obtain ⟨hndfree, hndrest, hdis⟩ := List.nodup_append.mp hnd
  obtain ⟨hndc, -, hdisc⟩ := List.nodup_append.mp hndrest
  have hlen := hperm.length_eq
  rw [length_append, length_append, freeList, length_walk, length_range] at hlen
  have hnum : q.num ≤ 128 := hs.num_le
  have hndcf : (c ++ q.freeList).Nodup := by
    refine List.nodup_append.mpr ⟨hndc, hndfree, fun i hi j hj hij => ?_⟩
    exact hdis j hj i (mem_append_left _ hi) hij.symm
  obtain ⟨q', hrun, honly, hfree⟩ := releaseLoop_spec hc hndcf (by omega)
  refine ⟨q', hof.symm ▸ hrun, by rw [hof]; omega, ?_⟩
  obtain ⟨hkeep, hflat⟩ := hs.keep_chains honly (fun _ hk => mem_of_mem_erase hk)
    fun i hi hic => hdisc i hic i hi rfl
  refine ⟨by rw [honly.num]; exact hs.num_pos, by rw [honly.num]; exact hs.num_le, hkeep, ?_⟩
  rw [hfree, hflat, honly.num]
  refine List.Perm.trans ?_ hperm
  rw [← append_assoc]
  refine List.Perm.append_right _ ?_
  exact (reverse_perm c).append_right _ |>.trans perm_append_comm

end Virtqueue

/-! ## Runs -/

/-- The queue in use, with the heads that have not come back. The device may write the used ring at
any time; a completion found is one of these heads. -/
inductive VqReach : List ℕ → Virtqueue → Prop where
  | init {D : Type} [Disk D] {heap heap' : Heap D} {reported pfn : ℕ} {q : Virtqueue}
      (h : virtqueueInit heap reported = .ok (heap', some (q, pfn))) : VqReach [] q
  | addBuf {inflight : List ℕ} {q q' : Virtqueue} {r : ℤ} (virtToPhys : ℕ → ℕ) {buf len : ℕ}
      {write : Bool} (h : VqReach inflight q)
      (hadd : q.virtqueueAddBuf virtToPhys buf len write = (q', r)) :
      VqReach (if r = -1 then inflight else r.toNat :: inflight) q'
  | addChain {inflight : List ℕ} {q q' : Virtqueue} {r : ℤ} (virtToPhys : ℕ → ℕ)
      {bufs : List VirtioBufDesc} (h : VqReach inflight q) (hne : bufs ≠ [])
      (hadd : q.virtqueueAddChain virtToPhys bufs = (q', r)) :
      VqReach (if r = -1 then inflight else r.toNat :: inflight) q'
  | device {inflight : List ℕ} {q : Virtqueue} (usedIdx : ℕ) (usedRing : ℕ → VringUsedElem)
      (h : VqReach inflight q) :
      VqReach inflight { q with usedIdx := usedIdx, usedRing := usedRing }
  | getBuf {inflight : List ℕ} {q q' : Virtqueue} {r : ℤ} {len : Option ℕ}
      (h : VqReach inflight q)
      (hdev : q.lastUsedIdx ≠ q.usedIdx → q.nextUsed.id ∈ inflight)
      (hget : q.virtqueueGetBuf = .ok (q', r, len)) :
      VqReach (if r = -1 then inflight else inflight.erase r.toNat) q'

namespace Virtqueue

variable {q q' : Virtqueue} {virtToPhys : ℕ → ℕ} {bufs : List VirtioBufDesc} {inflight : List ℕ}

theorem Inv.addChain_run (hs : q.Inv inflight) (hne : bufs ≠ [])
    (hadd : q.virtqueueAddChain virtToPhys bufs = (q', r)) :
    q'.Inv (if r = -1 then inflight else r.toNat :: inflight) := by
  by_cases hfree : bufs.length ≤ q.numFree
  · obtain ⟨q1, hrun, hinv⟩ := hs.addChain virtToPhys hne hfree
    rw [hrun] at hadd
    cases hadd
    rw [if_neg (by omega), Int.toNat_natCast]
    exact hinv
  · rw [virtqueueAddChain, if_pos (by omega)] at hadd
    cases hadd
    exact hs

/-- Heads are descriptor numbers. -/
theorem Inv.head_lt (hs : q.Inv inflight) (hh : h ∈ inflight) : h < q.num := by
  obtain ⟨c, hc⟩ := hs.chains h hh
  obtain ⟨-, xs, -, rfl, -⟩ := chase_cons hc
  refine List.mem_range.mp (hs.perm.mem_iff.mp (mem_append_right _ ?_))
  refine List.mem_flatMap.mpr ⟨h, hh, ?_⟩
  rw [chainOf, hc]
  exact mem_cons_self

theorem Inv.getBuf_run {len : Option ℕ} (hs : q.Inv inflight)
    (hdev : q.lastUsedIdx ≠ q.usedIdx → q.nextUsed.id ∈ inflight)
    (hget : q.virtqueueGetBuf = .ok (q', r, len)) :
    q'.Inv (if r = -1 then inflight else inflight.erase r.toNat) := by
  unfold virtqueueGetBuf at hget
  split_ifs at hget with hidx
  · obtain ⟨rfl, hr⟩ := ok_pair hget
    obtain ⟨rfl, -⟩ := Prod.mk.inj hr
    exact hs
  · have hmem := hdev hidx
    have hnum : q.num ≤ 128 := hs.num_le
    have hlt := hs.head_lt hmem
    obtain ⟨q1, hrun, hlen, hinv⟩ := hs.release hmem
    rw [u16_of_lt (by omega), hrun, if_pos (by omega)] at hget
    obtain ⟨rfl, hr⟩ := ok_pair hget
    obtain ⟨rfl, -⟩ := Prod.mk.inj hr
    have hint : int32 q.nextUsed.id = (q.nextUsed.id : ℤ) := if_pos (by omega)
    rw [hint, if_neg (by omega), Int.toNat_natCast]
    exact ⟨hinv.num_pos, hinv.num_le, hinv.chains, hinv.perm⟩

end Virtqueue

theorem virtqueueInit_setup {D : Type} [Disk D] {heap heap' : Heap D} {reported pfn : ℕ}
    {q : Virtqueue} (h : virtqueueInit heap reported = .ok (heap', some (q, pfn))) :
    ∃ layout, q = Virtqueue.setup layout (queueSizeOf reported) := by
  unfold virtqueueInit at h
  dsimp only at h
  rcases hk : heap.kmalloc (ringBytes (queueSizeOf reported) + 4096) with e | ⟨heap1, raw⟩
  · rw [hk] at h
    cases h
  rw [hk] at h
  dsimp only at h
  split_ifs at h
  · cases (ok_pair h).2
  · obtain ⟨rfl, -⟩ := Prod.mk.inj (Option.some.inj (ok_pair h).2)
    exact ⟨_, rfl⟩

theorem VqReach.inv {inflight : List ℕ} {q : Virtqueue} (h : VqReach inflight q) :
    q.Inv inflight := by
  induction h with
  | @init D _ heap heap' reported pfn q h =>
    obtain ⟨layout, rfl⟩ := virtqueueInit_setup h
    obtain ⟨hpos, hle⟩ := queueSizeOf_bounds reported
    exact Virtqueue.inv_setup layout hpos hle
  | addBuf virtToPhys _ hadd ih =>
    rw [Virtqueue.virtqueueAddBuf_eq] at hadd
    exact ih.addChain_run (cons_ne_nil _ _) hadd
  | addChain virtToPhys _ hne hadd ih => exact ih.addChain_run hne hadd
  | device usedIdx usedRing _ ih => exact ⟨ih.num_pos, ih.num_le, ih.chains, ih.perm⟩
  | getBuf _ hdev hget ih => exact ih.getBuf_run hdev hget

/-- **The descriptors are partitioned**, in every run, into the free list and the chains in flight,
each of which the walk along its flags finds complete. Submitting fails exactly if too few
descriptors are free; taking back a chain ends after one round for each. -/
theorem virtqueue_partition {inflight : List ℕ} {q : Virtqueue} (hr : VqReach inflight q) :
    (∀ h ∈ inflight, ∃ c, q.chain h = some c) ∧
    (q.freeList ++ inflight.flatMap q.chainOf).Perm (List.range q.num) ∧
    q.freeList.length = q.numFree ∧ (∀ virtToPhys buf len write,
      if q.freeList.length = 0 then q.virtqueueAddBuf virtToPhys buf len write = (q, -1)
      else (q.virtqueueAddBuf virtToPhys buf len write).2 ≠ -1) ∧ (∀ virtToPhys bufs, bufs ≠ [] →
      if q.freeList.length < bufs.length then q.virtqueueAddChain virtToPhys bufs = (q, -1)
      else (q.virtqueueAddChain virtToPhys bufs).2 ≠ -1) ∧
    ∀ h ∈ inflight, ∃ q', ∀ fuel, q.releaseLoop fuel h =
      if (q.chainOf h).length ≤ fuel then some q' else none := by
  have hs := hr.inv
  have hlen : q.freeList.length = q.numFree := length_walk ..
  refine ⟨hs.chains, hs.perm, hlen, fun virtToPhys buf len write => ?_,
    fun virtToPhys bufs hne => ?_, fun h hh => ?_⟩
  · rw [hlen]
    split_ifs with h0
    · exact if_pos h0
    · rw [Virtqueue.virtqueueAddBuf, if_neg h0]
      dsimp only
      omega
  · rw [hlen]
    split_ifs with hlt
    · exact if_pos hlt
    · rw [Virtqueue.virtqueueAddChain, if_neg hlt]
      dsimp only
      omega
  · obtain ⟨q', hrun, -⟩ := hs.release hh
    exact ⟨q', hrun⟩

theorem virtqueue_partition_one : ∃ q : Virtqueue, VqReach [0] q ∧
    (q.freeList ++ [0].flatMap q.chainOf).Perm (List.range q.num) := by
  let mb : MultibootInfo := ⟨1024, 64, 0, fun _ => ⟨0, 0, 0, 0⟩⟩
  have hrun : ((pmmInit 1 0 (some mb)).bind fun p =>
      (Paging.boot p (fun _ => 0) (fun _ _ _ => 0) : Paging DiskImage).initDirectory.toOption.bind
        fun s => (virtqueueInit (Heap.boot s).heapInit 3).toOption.bind fun out => out.2.map
          fun v => (v.1.virtqueueAddChain id [⟨0, 8, false⟩, ⟨8, 8, true⟩]).2) = some 0 := by
    decide +kernel
  simp only [Option.bind_eq_some_iff, Option.map_eq_some_iff] at hrun
  obtain ⟨p, -, s, -, ⟨heap, o⟩, hinit, ⟨q, pfn⟩, rfl, hadd⟩ := hrun
  rcases hout : q.virtqueueAddChain id [⟨0, 8, false⟩, ⟨8, 8, true⟩] with ⟨q', r⟩
  rw [hout] at hadd
  obtain rfl : r = 0 := hadd
  have hr : VqReach [0] q' :=
    (VqReach.init (ok_of_toOption hinit)).addChain id (cons_ne_nil _ _) hout
  exact ⟨q', hr, (virtqueue_partition hr).2.1⟩

end PenOS
