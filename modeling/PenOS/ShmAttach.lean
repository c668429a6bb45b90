import PenOS.ShmGet

/-!
# Regions at their default addresses

`shm_attach` without an address maps region `id` from `0xA0000000 + id * 1 MiB` on: a region of
more than 256 pages reaches into the place of the next one, and one of 384 MiB into the kernel
half.
-/

namespace PenOS

open Finset List

variable {D : Type}
variable {i n virt : ℕ} {I : Finset ℕ} {done : List ℕ} {p : Paging D} {t0 : Shm D}

/-! ## One call -/

namespace Paging

variable {s s' : Paging D} {live : List ℕ} {own : ℕ → Role}

/-- The pages from `virt` on show the frames `phys`, and no other page of the loaded directory
has changed. -/
structure Attached (s s' : Paging D) (virt n : ℕ) (phys : ℕ → ℕ) : Prop where
  currentPd : s'.currentPd = s.currentPd
  shown : ∀ k < n, s'.pte s.currentPd (pdIndex (virt + k * 4096)) (ptIndex (virt + k * 4096)) =
    pageEntry (phys k) (pageUser ||| pageRw ||| pagePresent)
  kept : ∀ v, pdIndex v < 1023 → (∀ k < n, v / 4096 ≠ (virt + k * 4096) / 4096) →
    s'.pte s.currentPd (pdIndex v) (ptIndex v) = s.pte s.currentPd (pdIndex v) (ptIndex v)

variable [Disk D]

/-- **The loop of `shm_attach`**, with room for the tables it needs. -/
theorem TableInv.attached (hs : s.TableInv live own) (hcur : s.currentPd ∈ live)
    {phys : ℕ → ℕ} (hlow : virt + n * 4096 ≤ kernelVirtBase)
    (hI : ∀ i ∈ I, i < 1023) (hmem : ∀ k < n, pdIndex (virt + k * 4096) ∈ I)
    (hroom : s.RoomFor (s.absentTables I).card)
    (h : (List.range n).foldlM (fun s k => s.pagingMap (u32 (virt + k * 4096)) (phys k)
      (pageUser ||| pageRw ||| pagePresent)) s = .ok s') :
    s.Attached s' virt n phys ∧ (∃ own', s'.TableInv live own') ∧
      s'.RoomFor (s'.absentTables I).card := by
  have hbase := kernelVirtBase_eq
  refine foldlM_range_induct (P := fun m q => s.Attached q virt m phys ∧
    (∃ own', q.TableInv live own') ∧ q.RoomFor (q.absentTables I).card) ?_ ?_ h
  · exact ⟨⟨rfl, fun _ hk => absurd hk (Nat.not_lt_zero _), fun _ _ _ => rfl⟩, ⟨own, hs⟩, hroom⟩
  rintro m hm q q' ⟨hat, ⟨own1, hq⟩, hroom1⟩ hmap
  rw [u32_of_lt (by omega)] at hmap
  have hcur1 : q.currentPd ∈ live := hat.currentPd ▸ hcur
  obtain ⟨own2, hmapped, hroom2⟩ := hq.mapped_of_absent hcur1 (hmem m hm) hI hroom1 hmap
  have hself := hmapped.pte_current hcur1
  have hother : ∀ v, pdIndex v < 1023 → v / 4096 ≠ (virt + m * 4096) / 4096 →
      q'.pte s.currentPd (pdIndex v) (ptIndex v) = q.pte s.currentPd (pdIndex v) (ptIndex v) := by
    intro v hv hne
    refine hmapped.pte_other _ hcur _ hv _ (ptIndex_lt v) ?_
    by_contra hno
    push Not at hno
    exact hne ((same_page_iff v _).mp hno)
  rw [hat.currentPd] at hself
  refine ⟨⟨hmapped.currentPd.trans hat.currentPd, fun k hk => ?_, fun v hv hne => ?_⟩,
    ⟨own2, hmapped.inv⟩, hroom2⟩
  · rcases Nat.lt_succ_iff_lt_or_eq.mp hk with hk | rfl
    · rw [hother _ (by rw [pdIndex]; omega) (by omega)]
      exact hat.shown k hk
    · exact hself
  · rw [hother v hv (hne m (by omega))]
    exact hat.kept v hv fun k hk => hne k (by omega)

/-- With frames enough the loop ends. -/
theorem TableInv.attach_ok (hs : s.TableInv live own) (hcur : s.currentPd ∈ live)
    (phys : ℕ → ℕ) (hlow : virt + n * 4096 ≤ kernelVirtBase) (hfree : n ≤ s.pmm.freeSet.card) :
    ∃ s', (List.range n).foldlM (fun s k => s.pagingMap (u32 (virt + k * 4096)) (phys k)
        (pageUser ||| pageRw ||| pagePresent)) s = .ok s' ∧
      (∃ own', s'.TableInv live own') ∧ s'.currentPd = s.currentPd ∧
      s.pmm.freeSet.card ≤ s'.pmm.freeSet.card + n := by
  have hbase := kernelVirtBase_eq
  refine foldlM_range_ok (P := fun m (q : Paging D) => (∃ own', q.TableInv live own') ∧
    q.currentPd = s.currentPd ∧ s.pmm.freeSet.card ≤ q.pmm.freeSet.card + m)
    ⟨⟨own, hs⟩, rfl, le_rfl⟩ ?_
  rintro m hm q ⟨⟨own1, hq⟩, hcur1, hcard⟩
  rw [u32_of_lt (by omega)]
  have hpd : pdIndex (virt + m * 4096) < 1023 := by
    rw [pdIndex]
    omega
  obtain ⟨q', own2, hmap, hmapped⟩ := hq.pagingMap (hcur1 ▸ hcur) hpd (phys m)
    (pageUser ||| pageRw ||| pagePresent) (.inr (card_pos.mp (by omega)))
  refine ⟨q', hmap, ⟨own2, hmapped.inv⟩, hmapped.currentPd.trans hcur1, ?_⟩
  by_cases hp : q.entry q.currentPd (pdIndex (virt + m * 4096)) % 2 = 1
  · rw [hmapped.pmm_kept hp]
    omega
  · obtain ⟨f, hf, heq⟩ := hmapped.pmm_taken hp
    have hone := card_erase_add_one hf
    rw [heq]
    omega

end Paging

namespace Shm

theorem attachStart_default {id : ℕ} (hid : id ≤ 128) :
    attachStart id 0 = 0xA0000000 + id * 0x100000 := by
  rw [attachStart, if_neg (by simp), u32_of_lt (show id * 0x100000 < 4294967296 by omega),
    u32_of_lt (by omega), and_pageMask (by omega)]
  omega

variable [Disk D]

/-- `shm_attach(id, NULL, flags)` for every id of a list, one call after the other. -/
def attachAll (t : Shm D) (ids : List ℕ) : Except Halt (Shm D) :=
  ids.foldlM (fun t id => (t.shmAttach id 0).map Prod.fst) t

omit [Disk D]

/-- **Each region has its own pages**: below the kernel half, each translating to its frame, and
none in two regions. -/
structure OwnPages (t : Shm D) (p : Paging D) (ids : List ℕ) : Prop where
  low : ∀ id ∈ ids, ∀ k, t.findRegionById id = some k → ∀ i < (t.shmTable k).pages,
    u32 (attachStart id 0 + i * 4096) < kernelVirtBase
  shown : ∀ id ∈ ids, ∀ k, t.findRegionById id = some k → ∀ i < (t.shmTable k).pages,
    p.pagingVirtToPhys (u32 (attachStart id 0 + i * 4096)) / 4096 =
      t.physPage (t.shmTable k) i / 4096
  apart : ∀ id ∈ ids, ∀ id' ∈ ids, id ≠ id' → ∀ k k', t.findRegionById id = some k →
    t.findRegionById id' = some k' → ∀ i < (t.shmTable k).pages, ∀ i' < (t.shmTable k').pages,
    u32 (attachStart id 0 + i * 4096) ≠ u32 (attachStart id' 0 + i' * 4096)

/-- Each region ends below the kernel half and before the place of the next region attached. -/
def FitDefaults (t : Shm D) (ids : List ℕ) : Prop :=
  ∀ id ∈ ids, ∀ k, t.findRegionById id = some k →
    0xA0000000 + id * 0x100000 + (t.shmTable k).pages * 4096 ≤ kernelVirtBase ∧
    ∀ id' ∈ ids, ∀ k', t.findRegionById id' = some k' → id < id' →
      (t.shmTable k).pages ≤ 256 * (id' - id)

/-- The numbers of the page tables in which the regions are mapped. -/
def attachTables (t : Shm D) (ids : List ℕ) : Finset ℕ :=
  ids.toFinset.biUnion fun id =>
    (Finset.range ((t.findRegionById id).elim 0 fun k => (t.shmTable k).pages)).image fun i =>
      pdIndex (attachStart id 0 + i * 4096)

/-- The words of the pages of the regions, as `shm_attach` has written them. -/
def Shown (t : Shm D) (p : Paging D) (ids : List ℕ) : Prop :=
  ∀ id ∈ ids, ∀ k, t.findRegionById id = some k → ∀ i < (t.shmTable k).pages,
    p.pte p.currentPd (pdIndex (attachStart id 0 + i * 4096))
        (ptIndex (attachStart id 0 + i * 4096)) =
      pageEntry (t.physPage (t.shmTable k) i) (pageUser ||| pageRw ||| pagePresent)

/-- The regions of `t` are those of `s`, with the same lists. -/
def SameRegions (t s : Shm D) : Prop :=
  s.heap.window = t.heap.window ∧ ∀ k, (t.shmTable k).SameFrames (s.shmTable k)

variable {t s : Shm D} {ids : List ℕ}

theorem SameRegions.trans {r : Shm D} (h : t.SameRegions s) (h' : s.SameRegions r) :
    t.SameRegions r := by
  refine ⟨h'.1.trans h.1, fun k => ⟨?_, ?_, ?_, ?_, ?_⟩⟩
  · rw [(h'.2 k).used, (h.2 k).used]
  · rw [(h'.2 k).id, (h.2 k).id]
  · rw [(h'.2 k).key, (h.2 k).key]
  · rw [(h'.2 k).physStart, (h.2 k).physStart]
  · rw [(h'.2 k).pages, (h.2 k).pages]

theorem sameRegions_attached (t : Shm D) (p : Paging D) (k n : ℕ) :
    t.SameRegions ⟨{ t.heap with paging := p }, Function.update t.shmTable k
      { t.shmTable k with refCount := n }, t.nextShmId⟩ := by
  refine ⟨rfl, fun i => ?_⟩
  dsimp only
  rw [Function.update_apply]
  split
  · rename_i heq
    subst heq
    exact ⟨rfl, rfl, rfl, rfl, rfl⟩
  · exact .refl _

theorem SameRegions.findRegionById (h : t.SameRegions s) (id : ℕ) :
    s.findRegionById id = t.findRegionById id := by
  simp only [Shm.findRegionById, findRegion, (h.2 _).used, (h.2 _).id]

theorem SameRegions.physPage (h : t.SameRegions s) (k i : ℕ) :
    s.physPage (s.shmTable k) i = t.physPage (t.shmTable k) i := by
  rw [Shm.physPage, Shm.physPage, h.1, (h.2 k).physStart]

theorem FitDefaults.ne (hfit : t.FitDefaults ids) {id id' k k' i' : ℕ} (hid : id ∈ ids)
    (hid' : id' ∈ ids) (hk : t.findRegionById id = some k) (hk' : t.findRegionById id' = some k')
    (hne : id ≠ id') (hi : i < (t.shmTable k).pages) (hi' : i' < (t.shmTable k').pages) :
    (0xA0000000 + id * 0x100000 + i * 4096) / 4096 ≠
      (0xA0000000 + id' * 0x100000 + i' * 4096) / 4096 := by
  rcases lt_or_gt_of_ne hne with hlt | hlt
  · have hle := (hfit id hid k hk).2 id' hid' k' hk' hlt
    omega
  · have hle := (hfit id' hid' k' hk').2 id hid k hk hlt
    omega

theorem mem_attachTables {j : ℕ} : j ∈ t.attachTables ids ↔
    ∃ id ∈ ids, ∃ k, t.findRegionById id = some k ∧ ∃ i < (t.shmTable k).pages,
      j = pdIndex (attachStart id 0 + i * 4096) := by
  rw [attachTables, mem_biUnion]
  refine exists_congr fun id => and_congr mem_toFinset ?_
  rcases hk : t.findRegionById id with _ | k <;> simp [eq_comm]

variable [Disk D] {live : List ℕ} {own : ℕ → Role} {id k r : ℕ}

theorem attachAll_cons (h : t.shmAttach id 0 = .ok (s, r)) (ids : List ℕ) :
    t.attachAll (id :: ids) = s.attachAll ids := by
  rw [attachAll, foldlM_cons, h]
  rfl

/-- **`shm_attach`** of a region at its default address. -/
theorem shmAttach_attached (hs : t.heap.paging.TableInv live own)
    (hcur : t.heap.paging.currentPd ∈ live) (hk : t.findRegionById id = some k)
    (hlow : attachStart id 0 + (t.shmTable k).pages * 4096 ≤ kernelVirtBase)
    (hI : ∀ i ∈ I, i < 1023)
    (hmem : ∀ i < (t.shmTable k).pages, pdIndex (attachStart id 0 + i * 4096) ∈ I)
    (hroom : t.heap.paging.RoomFor (t.heap.paging.absentTables I).card)
    (h : t.shmAttach id 0 = .ok (s, r)) :
    t.SameRegions s ∧ t.heap.paging.Attached s.heap.paging (attachStart id 0)
        (t.shmTable k).pages (t.physPage (t.shmTable k)) ∧
      (∃ own', s.heap.paging.TableInv live own') ∧
      s.heap.paging.RoomFor (s.heap.paging.absentTables I).card := by
  rw [shmAttach, hk] at h
  dsimp only at h
  split at h
  · cases h
  rename_i p hloop
  cases h
  exact ⟨sameRegions_attached t p k _, hs.attached hcur hlow hI hmem hroom hloop⟩

omit [Disk D] in
theorem Shown.attach (hshown : t0.Shown t.heap.paging done)
    (hfit : t0.FitDefaults (done ++ [id])) (hk : t0.findRegionById id = some k)
    (hids : ∀ id k, t0.findRegionById id = some k → id ≤ 128)
    (hat : t.heap.paging.Attached s.heap.paging (attachStart id 0) (t0.shmTable k).pages
      (t0.physPage (t0.shmTable k))) : t0.Shown s.heap.paging (done ++ [id]) := by
  have hself : id ∈ done ++ [id] := by simp
  intro id1 hmem k1 hk1 i hi
  rw [hat.currentPd]
  rcases eq_or_ne id1 id with rfl | hne
  · obtain rfl := Option.some.inj (hk.symm.trans hk1)
    exact hat.shown i hi
  · have hdone : id1 ∈ done := by simpa [hne] using hmem
    have hend := (hfit id1 hmem k1 hk1).1
    rw [hat.kept _ ?_ fun j hj => ?_]
    · exact hshown id1 hdone k1 hk1 i hi
    · rw [attachStart_default (hids _ _ hk1), pdIndex]
      have hbase := kernelVirtBase_eq
      omega
    · rw [attachStart_default (hids _ _ hk1), attachStart_default (hids _ _ hk)]
      exact hfit.ne hmem hself hk1 hk hne hi hj

/-- **The regions attached so far are shown** at their places, whatever is attached next. -/
theorem attachAll_shown (hfit : t0.FitDefaults (done ++ ids))
    (hids : ∀ id k, t0.findRegionById id = some k → id ≤ 128) (hsame : t0.SameRegions t)
    (hs : t.heap.paging.TableInv live own) (hcur : t.heap.paging.currentPd ∈ live)
    (hI : ∀ i ∈ I, i < 1023) (hsub : t0.attachTables (done ++ ids) ⊆ I)
    (hroom : t.heap.paging.RoomFor (t.heap.paging.absentTables I).card)
    (hshown : t0.Shown t.heap.paging done) (h : t.attachAll ids = .ok s) :
    t0.Shown s.heap.paging (done ++ ids) := by
  induction ids generalizing t own done with
  | nil =>
    cases h
    rw [append_nil]
    exact hshown
  | cons id ids ih =>
    rw [attachAll, foldlM_cons] at h
    obtain ⟨t1, hstep, hrest⟩ := bind_ok h
    obtain ⟨⟨t2, r⟩, hcall, rfl⟩ := map_ok hstep
    have hself : id ∈ done ++ id :: ids := by simp
    have hassoc : done ++ id :: ids = (done ++ [id]) ++ ids := by simp
    rcases hk : t0.findRegionById id with _ | k
    · -- there is no such region
      rw [shmAttach, hsame.findRegionById, hk] at hcall
      cases hcall
      rw [hassoc] at hfit hsub ⊢
      refine ih hfit hsame hs hcur hsub hroom (fun id1 hmem k1 hk1 => ?_) hrest
      rcases mem_append.mp hmem with hdone | hlast
      · exact hshown id1 hdone k1 hk1
      · obtain rfl := List.mem_singleton.mp hlast
        cases hk.symm.trans hk1
    · have hpages := (hsame.2 k).pages
      have hphys : t.physPage (t.shmTable k) = t0.physPage (t0.shmTable k) :=
        funext (hsame.physPage k)
      have hend := (hfit id hself k hk).1
      have hstart := attachStart_default (hids id k hk)
      obtain ⟨hsame1, hat, ⟨own1, hs1⟩, hroom1⟩ := shmAttach_attached hs hcur
        ((hsame.findRegionById id).trans hk) (by rw [hpages, hstart]; exact hend) hI
        (fun i hi => hsub (mem_attachTables.mpr ⟨_, hself, k, hk, i, hpages ▸ hi, rfl⟩))
        hroom hcall
      rw [hpages, hphys] at hat
      rw [hassoc] at hfit hsub ⊢
      refine ih hfit (hsame.trans hsame1) hs1 (hat.currentPd ▸ hcur) hsub hroom1 ?_ hrest
      exact hshown.attach (fun id1 hmem k1 hk1 => ⟨(hfit id1 (mem_append_left _ hmem) k1 hk1).1,
        fun id2 hmem2 => (hfit id1 (mem_append_left _ hmem) k1 hk1).2 id2
          (mem_append_left _ hmem2)⟩) hk hids hat

omit [Disk D] in
theorem OwnPages.fitDefaults (ht : t.TableOk)
    (hids : ∀ id k, t.findRegionById id = some k → id ≤ 128) (hown : t.OwnPages p ids) :
    t.FitDefaults ids := by
  have hbase := kernelVirtBase_eq
  intro id hid k hk
  have hle := hids id k hk
  have hstart := attachStart_default hle
  refine ⟨?_, fun id' hid' k' hk' hlt => ?_⟩
  · -- the page at the start of the kernel half
    by_contra hover
    have hlow := hown.low id hid k hk
      ((0x60000000 - (0x40000000 + id * 0x100000)) / 4096) (by omega)
    rw [hstart, u32_of_lt (by omega)] at hlow
    omega
  · -- the first page of the other region
    by_contra hover
    have hle' := hids id' k' hk'
    have hpos := ht.pages_pos k' (of_findRegionById hk').1
    refine hown.apart id hid id' hid' (ne_of_lt hlt) k k' hk hk'
      (256 * (id' - id)) (by omega) 0 hpos ?_
    rw [hstart, attachStart_default hle',
      show 0xA0000000 + id * 0x100000 + 256 * (id' - id) * 4096 =
      0xA0000000 + id' * 0x100000 + 0 * 4096 by omega]

omit [Disk D] in
theorem FitDefaults.ownPages (hfit : t.FitDefaults ids)
    (hids : ∀ id k, t.findRegionById id = some k → id ≤ 128) (hshown : t.Shown p ids) :
    t.OwnPages p ids := by
  have hbase := kernelVirtBase_eq
  -- the addresses do not wrap around
  have haddr : ∀ id ∈ ids, ∀ k, t.findRegionById id = some k → ∀ i < (t.shmTable k).pages,
      u32 (attachStart id 0 + i * 4096) = 0xA0000000 + id * 0x100000 + i * 4096 ∧
        0xA0000000 + id * 0x100000 + i * 4096 < kernelVirtBase := by
    intro id hid k hk i hi
    have hend := (hfit id hid k hk).1
    rw [attachStart_default (hids id k hk)]
    exact ⟨u32_of_lt (by omega), by omega⟩
  refine ⟨fun id hid k hk i hi => ?_, fun id hid k hk i hi => ?_,
    fun id hid id' hid' hne k k' hk hk' i hi i' hi' heq => ?_⟩
  · obtain ⟨heq, hlt⟩ := haddr id hid k hk i hi
    rw [heq]
    exact hlt
  · have hword := hshown id hid k hk i hi
    obtain ⟨heq, -⟩ := haddr id hid k hk i hi
    rw [attachStart_default (hids id k hk)] at hword
    have hphys : t.physPage (t.shmTable k) i < 4294967296 := Mem.load32_lt _ _
    rw [heq, Paging.pagingVirtToPhys_eq, hword, if_pos (pageEntry_mod_two _ _), pageEntry_div hphys]
    omega
  · obtain ⟨h1, -⟩ := haddr id hid k hk i hi
    obtain ⟨h2, -⟩ := haddr id' hid' k' hk' i' hi'
    rw [h1, h2] at heq
    exact hfit.ne hid hid' hk hk' hne hi hi' (congrArg (· / 4096) heq)

end Shm

/-- The ids of the regions. -/
theorem ShmRun.id_le {syms : Paging.LinkerSymbols} [Disk D] {P : ShmKernel D → ShmOp → Prop}
    {s a : ShmKernel D} (hstart : ShmStart syms s) (hrun : ShmRun P s a) :
    a.toShm.TableOk ∧ ∀ id k, a.findRegionById id = some k → id ≤ 128 := by
  have hs : s.toShm.TableOk := by
    obtain ⟨hk, table⟩ := hstart
    exact Shm.tableOk_shmInit _ table
  have ht := hrun.tableOk hs
  refine ⟨ht, fun id k hk => ?_⟩
  obtain ⟨hmem, rfl⟩ := Shm.of_findRegionById hk
  have hlt := (ht.id_lt k hmem).2
  have hle := ht.next_le
  omega

/-! ## Calls that return -/

section Return

variable [Disk D]

theorem Shm.shmAttach_ok {t : Shm D} {live : List ℕ} {own : ℕ → Role}
    (hs : t.heap.paging.TableInv live own) (hcur : t.heap.paging.currentPd ∈ live) {id k : ℕ}
    (hk : t.findRegionById id = some k)
    (hlow : attachStart id 0 + (t.shmTable k).pages * 4096 ≤ kernelVirtBase)
    (hfree : (t.shmTable k).pages ≤ t.heap.paging.pmm.freeSet.card) :
    ∃ s : Shm D, t.shmAttach id 0 = .ok (s, attachStart id 0) ∧ t.SameRegions s ∧
      (∃ own', s.heap.paging.TableInv live own') ∧
      s.heap.paging.currentPd = t.heap.paging.currentPd ∧
      t.heap.paging.pmm.freeSet.card ≤ s.heap.paging.pmm.freeSet.card + (t.shmTable k).pages := by
  obtain ⟨p, hloop, hinv, hcur', hcard⟩ :=
    hs.attach_ok hcur (t.physPage (t.shmTable k)) hlow hfree
  refine ⟨⟨{ t.heap with paging := p }, Function.update t.shmTable k
    { t.shmTable k with refCount := u32 ((t.shmTable k).refCount + 1) }, t.nextShmId⟩, ?_,
    sameRegions_attached t p k _, hinv, hcur', hcard⟩
  rw [shmAttach, hk]
  dsimp only
  rw [hloop]

end Return

/-- **Regions at their default addresses**: if after `shm_attach` of the regions `ids` each has its
own pages, then each ends before the next one and below the kernel half. The other way round the
page tables that are missing need frames, now and for the calls before. -/
theorem default_attachments_apart_iff {syms : Paging.LinkerSymbols} [Disk D] {s a : ShmKernel D}
    (hstart : ShmStart syms s) (hrun : ShmRun (fun _ _ => True) s a) {ids : List ℕ} {b : Shm D}
    (hcalls : a.toShm.attachAll ids = .ok b) :
    (a.toShm.OwnPages b.heap.paging ids → a.toShm.FitDefaults ids) ∧
      (ShmRun ShmKernel.Safe s a ∧
          a.paging.RoomFor (a.paging.absentTables (a.toShm.attachTables ids)).card ∧
          a.toShm.FitDefaults ids →
        a.toShm.OwnPages b.heap.paging ids) := by
  obtain ⟨ht, hids⟩ := ShmRun.id_le hstart hrun
  refine ⟨Shm.OwnPages.fitDefaults ht hids, ?_⟩
  rintro ⟨hsafe, hroom, hfit⟩
  refine hfit.ownPages hids ?_
  obtain ⟨own, hs0⟩ := hstart.inv
  obtain ⟨⟨own1, hs⟩, -⟩ := hs0.run hsafe
  have hbase := kernelVirtBase_eq
  have hI : ∀ i ∈ a.toShm.attachTables ids, i < 1023 := by
    intro i hi
    obtain ⟨id, hid, k, hk, j, hlt, rfl⟩ := Shm.mem_attachTables.mp hi
    have hend := (hfit id hid k hk).1
    rw [Shm.attachStart_default (hids id k hk), pdIndex]
    omega
  have hfit' : a.toShm.FitDefaults ([] ++ ids) := hfit
  exact Shm.attachAll_shown hfit' hids ⟨rfl, fun _ => .refl _⟩ hs.pages.toTableInv
    hs.current hI (Finset.Subset.refl _) hroom (by simp [Shm.Shown]) hcalls

/-- Two regions of one page, both attached. -/
theorem default_attachments_apart_iff_two : ∃ s a : ShmKernel DiskImage, ∃ b : Shm DiskImage,
    ShmStart Paging.smallImage s ∧ ShmRun ShmKernel.Safe s a ∧
      a.paging.RoomFor (a.paging.absentTables (a.toShm.attachTables [1, 2])).card ∧
      a.toShm.attachAll [1, 2] = .ok b ∧ a.toShm.FitDefaults [1, 2] ∧
      a.toShm.OwnPages b.heap.paging [1, 2] := by
  obtain ⟨s, a, hstart, hrun, hfind, hpages, hfind2, hpages2, hcard⟩ :=
    exists_wide_regions (D := DiskImage) (n := 1) (fun _ _ _ => 0) (by decide)
  have hsafe := hrun.mono fun _ _ hc => hc.1
  obtain ⟨own, hs0⟩ := hstart.inv
  obtain ⟨⟨own1, hs⟩, -⟩ := hs0.run hsafe
  have hcard' : 300 ≤ a.toShm.heap.paging.pmm.freeSet.card := hcard
  obtain ⟨t, hattach, hsame, ⟨own2, hinv⟩, hcur, hcard2⟩ := Shm.shmAttach_ok hs.pages.toTableInv
    hs.current hfind (by rw [hpages]; decide) (by omega)
  obtain ⟨b, hattach2, -⟩ := Shm.shmAttach_ok hinv (hcur ▸ hs.current)
    ((hsame.findRegionById 2).trans hfind2) (by rw [(hsame.2 1).pages, hpages2]; decide)
    (by rw [(hsame.2 1).pages, hpages2]; omega)
  have hcalls : a.toShm.attachAll [1, 2] = .ok b := by
    rw [Shm.attachAll_cons hattach, Shm.attachAll_cons hattach2]
    rfl
  have hone : ∀ id ∈ [1, 2], ∀ k, a.toShm.findRegionById id = some k →
      (a.shmTable k).pages = 1 := by
    intro id hid k hk
    rcases List.mem_pair.mp hid with rfl | rfl
    · obtain rfl := Option.some.inj (hk.symm.trans hfind)
      exact hpages
    · obtain rfl := Option.some.inj (hk.symm.trans hfind2)
      exact hpages2
  have hroom : a.paging.RoomFor (a.paging.absentTables (a.toShm.attachTables [1, 2])).card := by
    -- both places are in the same 4 MiB
    have hsub : a.toShm.attachTables [1, 2] ⊆ {640} := by
      intro i hi
      obtain ⟨id, hid, k, hk, j, hlt, rfl⟩ := Shm.mem_attachTables.mp hi
      rw [hone id hid k hk] at hlt
      obtain rfl : j = 0 := by omega
      rcases List.mem_pair.mp hid with rfl | rfl <;> decide
    refine .inr ((card_filter_le _ _).trans ((card_le_card hsub).trans ?_))
    rw [hs.pages.pmm.count, card_singleton]
    omega
  have hfit : a.toShm.FitDefaults [1, 2] := by
    have hbase := kernelVirtBase_eq
    intro id hid k hk
    have hp := hone id hid k hk
    have hle : id ≤ 2 := by
      rcases List.mem_pair.mp hid with rfl | rfl <;> decide
    exact ⟨by omega, fun id' _ k' _ hlt => by omega⟩
  exact ⟨s, a, b, hstart, hsafe, hroom, hcalls, hfit, (default_attachments_apart_iff hstart
    (hrun.mono fun _ _ _ => trivial) hcalls).2 ⟨hsafe, hroom, hfit⟩⟩

/-- Regions of 257 pages and of one page: the last page of the first is the place of the second. -/
theorem default_attachments_overlap : ∃ s a : ShmKernel DiskImage, ∃ b : Shm DiskImage,
    ShmStart Paging.smallImage s ∧ ShmRun ShmKernel.Safe s a ∧ a.toShm.attachAll [1, 2] = .ok b ∧
      a.findRegionById 1 = some 0 ∧ 256 < (a.shmTable 0).pages ∧
      b.heap.paging.pagingVirtToPhys (Shm.attachStart 1 0 + 256 * 4096) / 4096 ≠
        a.physPage (a.shmTable 0) 256 / 4096 := by
  obtain ⟨s, a, hstart, hrun, hfind, hpages, hfind2, hpages2, hcard⟩ :=
    exists_wide_regions (D := DiskImage) (n := 257) (fun _ _ _ => 0) (by decide)
  replace hrun := hrun.mono fun _ _ hc => hc.1
  obtain ⟨own, hs0⟩ := hstart.inv
  obtain ⟨⟨own1, hs⟩, -⟩ := hs0.run hrun
  -- region 1
  obtain ⟨t, hattach, hsame, ⟨own2, hinv⟩, hcur, hcard2⟩ := Shm.shmAttach_ok hs.pages.toTableInv
    hs.current hfind (by rw [hpages]; decide) (by rw [hpages]; exact le_trans (by decide) hcard)
  rw [hpages] at hcard2
  have hmem : t.heap.paging.currentPd ∈ a.live := hcur ▸ hs.current
  have hfree : 1 ≤ t.heap.paging.pmm.freeSet.card := by
    have hcard' : 300 ≤ a.toShm.heap.paging.pmm.freeSet.card := hcard
    omega
  -- region 2
  have hfind' : t.findRegionById 2 = some 1 := (hsame.findRegionById 2).trans hfind2
  have hpages' : (t.shmTable 1).pages = 1 := (hsame.2 1).pages.trans hpages2
  have hlow : Shm.attachStart 2 0 + (t.shmTable 1).pages * 4096 ≤ kernelVirtBase := by
    rw [hpages']
    decide
  obtain ⟨b, hattach2, -⟩ := Shm.shmAttach_ok hinv hmem hfind' hlow (by rw [hpages']; exact hfree)
  obtain ⟨-, hat, -⟩ := Shm.shmAttach_attached hinv hmem hfind'
    (I := {pdIndex (Shm.attachStart 2 0)}) hlow (by decide) (by
      intro i hi
      obtain rfl : i = 0 := by omega
      exact Finset.mem_singleton_self _) (.inr (by
        rw [hinv.pmm.count]
        exact ((card_filter_le _ _).trans (card_singleton _).le).trans hfree)) hattach2
  have hword := hat.shown 0 (by omega)
  refine ⟨s, a, b, hstart, hrun, ?_, hfind, by omega, ?_⟩
  · rw [Shm.attachAll_cons hattach, Shm.attachAll_cons hattach2]
    rfl
  · -- the word of the page is that of the other region
    have hphys : t.physPage (t.shmTable 1) 0 < 4294967296 := Mem.load32_lt _ _
    rw [hsame.physPage] at hword hphys
    have hpage : Shm.attachStart 1 0 + 256 * 4096 = Shm.attachStart 2 0 + 0 * 4096 := by decide
    rw [hpage, Paging.pagingVirtToPhys_eq, hat.currentPd, hword, if_pos (pageEntry_mod_two _ _),
      pageEntry_div hphys]
    -- and its frame is not listed by the first
    have hdisj := Shm.frames_disjoint hs.inv.held_nodup
      (Shm.of_findRegionById hfind).1 (Shm.of_findRegionById hfind2).1 (by decide)
    have hin1 : a.physPage (a.shmTable 0) 256 / 4096 ∈ a.frames 0 :=
      mem_map.mpr ⟨256, mem_range'_1.mpr ⟨Nat.zero_le _, by omega⟩, rfl⟩
    have hin2 : a.physPage (a.shmTable 1) 0 / 4096 ∈ a.frames 1 :=
      mem_map.mpr ⟨0, mem_range'_1.mpr ⟨Nat.zero_le _, by omega⟩, rfl⟩
    intro heq
    refine hdisj hin1 ?_
    rw [← heq]
    convert hin2 using 1
    omega

end PenOS
