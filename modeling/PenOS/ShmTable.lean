import PenOS.ShmFrames

/-!
# The table of regions

`shm_get` makes a region only for a key that no region has, and numbers the regions one after
the other. There are at most 128 and none is removed, so the numbers do not wrap around.
-/

namespace PenOS

open Finset Function

variable {D : Type}

namespace Shm

/-- The entries in use. -/
def usedSlots (t : Shm D) : Finset ℕ :=
  (Finset.range shmMaxRegions).filter fun k => (t.shmTable k).used = true

/-- Keys and ids tell the regions apart; the ids are the numbers below `next_shm_id`, and no
region is empty. -/
structure TableOk (t : Shm D) : Prop where
  key_inj : ∀ i ∈ t.usedSlots, ∀ j ∈ t.usedSlots, (t.shmTable i).key = (t.shmTable j).key → i = j
  id_inj : ∀ i ∈ t.usedSlots, ∀ j ∈ t.usedSlots, (t.shmTable i).id = (t.shmTable j).id → i = j
  id_lt : ∀ i ∈ t.usedSlots, 0 < (t.shmTable i).id ∧ (t.shmTable i).id < t.nextShmId
  next : t.nextShmId = t.usedSlots.card + 1
  pages_pos : ∀ i ∈ t.usedSlots, 0 < (t.shmTable i).pages

variable {t s : Shm D} {k key id : ℕ}

theorem mem_usedSlots : k ∈ t.usedSlots ↔ k < shmMaxRegions ∧ (t.shmTable k).used = true := by
  simp [usedSlots]

theorem TableOk.next_le (ht : t.TableOk) : t.nextShmId ≤ 129 := by
  have hcard : t.usedSlots.card ≤ shmMaxRegions :=
    (card_filter_le _ _).trans_eq (card_range _)
  rw [ht.next]
  exact Nat.succ_le_succ hcard

theorem TableOk.congr (ht : t.TableOk) (htable : ∀ k, (t.shmTable k).SameFrames (s.shmTable k))
    (hnext : s.nextShmId = t.nextShmId) : s.TableOk := by
  have hslots : s.usedSlots = t.usedSlots :=
    filter_congr fun k _ => by rw [(htable k).used]
  refine ⟨?_, ?_, ?_, ?_, ?_⟩ <;> rw [hslots]
  · intro i hi j hj heq
    rw [(htable i).key, (htable j).key] at heq
    exact ht.key_inj i hi j hj heq
  · intro i hi j hj heq
    rw [(htable i).id, (htable j).id] at heq
    exact ht.id_inj i hi j hj heq
  · intro i hi
    rw [(htable i).id, hnext]
    exact ht.id_lt i hi
  · rw [hnext]
    exact ht.next
  · intro i hi
    rw [(htable i).pages]
    exact ht.pages_pos i hi

theorem TableOk.add (ht : t.TableOk) (hk : k < shmMaxRegions) (hfree : (t.shmTable k).used = false)
    {region : ShmRegion} (hused : region.used = true) (hid : region.id = t.nextShmId)
    (hpages : 0 < region.pages) (hkey : ∀ i ∈ t.usedSlots, (t.shmTable i).key ≠ region.key)
    (h : Heap D) : TableOk ⟨h, Function.update t.shmTable k region, u32 (t.nextShmId + 1)⟩ := by
  have hnext := ht.next_le
  have hnew : k ∉ t.usedSlots := by
    rw [mem_usedSlots, hfree]
    simp
  have hslots : usedSlots ⟨h, Function.update t.shmTable k region, u32 (t.nextShmId + 1)⟩ =
      insert k t.usedSlots := by
    ext i
    rw [mem_usedSlots, mem_insert, mem_usedSlots]
    rcases eq_or_ne i k with rfl | hne
    · simp [hk, hused]
    · simp [hne]
  have hself : Function.update t.shmTable k region k = region := update_self ..
  have hother : ∀ i ∈ t.usedSlots, Function.update t.shmTable k region i = t.shmTable i :=
    fun i hi => update_of_ne (ne_of_mem_of_not_mem hi hnew) _ _
  refine ⟨?_, ?_, ?_, ?_, ?_⟩ <;> rw [hslots] <;> dsimp only
  · intro i hi j hj heq
    rcases Finset.mem_insert.mp hi with hi' | hi' <;> rcases Finset.mem_insert.mp hj with hj' | hj'
    · rw [hi', hj']
    · rw [hi', hself, hother j hj'] at heq
      exact absurd heq.symm (hkey j hj')
    · rw [hj', hself, hother i hi'] at heq
      exact absurd heq (hkey i hi')
    · rw [hother i hi', hother j hj'] at heq
      exact ht.key_inj i hi' j hj' heq
  · intro i hi j hj heq
    rcases Finset.mem_insert.mp hi with hi' | hi' <;> rcases Finset.mem_insert.mp hj with hj' | hj'
    · rw [hi', hj']
    · rw [hi', hself, hother j hj', hid] at heq
      exact absurd heq.symm (Nat.ne_of_lt (ht.id_lt j hj').2)
    · rw [hj', hself, hother i hi', hid] at heq
      exact absurd heq (Nat.ne_of_lt (ht.id_lt i hi').2)
    · rw [hother i hi', hother j hj'] at heq
      exact ht.id_inj i hi' j hj' heq
  · intro i hi
    rw [u32_of_lt (by omega)]
    rcases Finset.mem_insert.mp hi with hi' | hi'
    · rw [hi', hself, hid, ht.next]
      omega
    · rw [hother i hi']
      obtain ⟨hpos, hlt⟩ := ht.id_lt i hi'
      omega
  · rw [u32_of_lt (by omega), card_insert_of_notMem hnew, ht.next]
  · intro i hi
    rcases Finset.mem_insert.mp hi with hi' | hi'
    · rw [hi', hself]
      exact hpages
    · rw [hother i hi']
      exact ht.pages_pos i hi'

/-! ## Looking up a region -/

theorem findRegion_none {p : ShmRegion → Bool} (h : t.findRegion p = none)
    (hk : k < shmMaxRegions) :
    p (t.shmTable k) = false := by
  rw [findRegion, List.find?_eq_none] at h
  simpa using h k (List.mem_range.mpr hk)

theorem key_ne_of_none (h : t.findRegionByKey key = none) (hk : k ∈ t.usedSlots) :
    (t.shmTable k).key ≠ key := by
  obtain ⟨hlt, hused⟩ := mem_usedSlots.mp hk
  have hno := findRegion_none h hlt
  rw [hused, Bool.true_and] at hno
  simpa using hno

/-- The entry found by a key. -/
theorem of_findRegionByKey (h : t.findRegionByKey key = some k) :
    k ∈ t.usedSlots ∧ (t.shmTable k).key = key := by
  obtain ⟨hk, hp⟩ := ShmKernel.findRegion_some h
  rw [Bool.and_eq_true, beq_iff_eq] at hp
  exact ⟨mem_usedSlots.mpr ⟨hk, hp.1⟩, hp.2⟩

/-- The entry found by a number. -/
theorem of_findRegionById (h : t.findRegionById id = some k) :
    k ∈ t.usedSlots ∧ (t.shmTable k).id = id := by
  obtain ⟨hk, hp⟩ := ShmKernel.findRegion_some h
  rw [Bool.and_eq_true, beq_iff_eq] at hp
  exact ⟨mem_usedSlots.mpr ⟨hk, hp.1⟩, hp.2⟩

theorem TableOk.findRegionByKey (ht : t.TableOk) (hk : k ∈ t.usedSlots)
    (hkey : (t.shmTable k).key = key) : t.findRegionByKey key = some k := by
  rcases hfind : t.findRegionByKey key with _ | j
  · exact absurd hkey (key_ne_of_none hfind hk)
  · obtain ⟨hj, hj'⟩ := of_findRegionByKey hfind
    rw [ht.key_inj j hj k hk (hj'.trans hkey.symm)]

/-! ## The calls -/

variable [Disk D]

/-- **`shm_get`** -/
theorem TableOk.shmGet (ht : t.TableOk) {size flags r : ℕ}
    (h : t.shmGet key size flags = .ok (s, r)) : s.TableOk := by
  rcases ShmKernel.shmGet_cases h with ⟨-, -, rfl, -⟩ | ⟨hnone, ⟨rfl, -⟩ | ⟨k, hfind, hnew⟩⟩
  · exact ht
  · exact ht
  obtain ⟨hk, hfree⟩ := ShmKernel.findRegion_some hfind
  have hsame : ∀ h : Heap D, TableOk { t with heap := h } := fun h =>
    ht.congr (fun _ => .refl _) rfl
  obtain ⟨h1, p, hmalloc, ⟨-, -, rfl⟩ | ⟨hp, h2, ⟨i, h3, -, -, -, rfl⟩ | ⟨-, -, rfl⟩⟩⟩ :=
    ShmKernel.createRegion_cases hnew
  · exact hsame h1
  · exact hsame h3
  · refine ht.add hk (by simpa using hfree) rfl rfl ?_ (fun i => key_ne_of_none hnone) h2
    -- no block is given out for an empty list
    refine Nat.pos_of_ne_zero fun hzero => hp ?_
    dsimp only at hzero
    rw [hzero, Nat.zero_mul, Heap.kmalloc, if_pos rfl] at hmalloc
    exact (ok_pair hmalloc).2.symm

/-- **`shm_attach`** -/
theorem TableOk.shmAttach (ht : t.TableOk) {addr r : ℕ} (h : t.shmAttach id addr = .ok (s, r)) :
    s.TableOk := by
  rw [Shm.shmAttach] at h
  split at h
  · cases h
    exact ht
  dsimp only at h
  split at h
  · cases h
  cases h
  refine ht.congr (fun i => ?_) rfl
  dsimp only
  rw [update_apply]
  split
  · rename_i heq
    subst heq
    exact ⟨rfl, rfl, rfl, rfl, rfl⟩
  · exact .refl _

end Shm

/-- **The table in every run.** -/
theorem ShmRun.tableOk [Disk D] {P : ShmKernel D → ShmOp → Prop} {a b : ShmKernel D}
    (ht : a.toShm.TableOk) (hrun : ShmRun P a b) : b.toShm.TableOk := by
  induction hrun with
  | start => exact ht
  | @step b b' c _ _ _ h ih =>
    cases c with
    | get key size flags =>
      obtain ⟨⟨s, r⟩, hrun, rfl⟩ := map_ok h
      exact ih.shmGet hrun
    | attach id addr =>
      obtain ⟨⟨s, r⟩, hrun, rfl⟩ := map_ok h
      exact ih.shmAttach hrun
    | create =>
      obtain ⟨k, -, rfl⟩ := map_ok h
      exact ih.congr (fun _ => .refl _) rfl
    | switch pd =>
      rw [ShmKernel.exec] at h
      obtain ⟨k, -, rfl⟩ := map_ok h
      exact ih.congr (fun _ => .refl _) rfl
    | destroy pd =>
      rw [ShmKernel.exec] at h
      obtain ⟨k, -, rfl⟩ := map_ok h
      exact ih.congr (fun _ => .refl _) rfl

theorem Shm.tableOk_shmInit (h : Heap D) (table : ℕ → ShmRegion) :
    (Shm.shmInit ⟨h, table, 1⟩).TableOk := by
  have hempty : (Shm.shmInit ⟨h, table, 1⟩).usedSlots = ∅ := by
    simp [Shm.usedSlots, Shm.shmInit]
  refine ⟨?_, ?_, ?_, ?_, ?_⟩ <;> rw [hempty]
  · simp
  · simp
  · simp
  · rfl
  · simp

end PenOS
