import Mathlib.Data.Fintype.Pigeonhole
import Mathlib.Logic.Relation
import Mathlib.Tactic.WLOG
import PenOS.PmmSet

/-!
# Which frames become free

`pmm_init` releases the available regions, with both ends rounded outward.
-/

namespace PenOS

open Pmm

variable {f fuel : ℕ}

/-! ## The entries of a map -/

/-- The entries a walk over the memory map visits from `offset` on; `none` when it has not ended. -/
def MultibootInfo.entriesFrom (mb : MultibootInfo) : ℕ → ℕ → Option (List MmapEntry)
  | 0, _ => none
  | fuel + 1, offset =>
    if offset < mb.mmapLength then
      (mb.entriesFrom fuel (u32 (offset + u32 ((mb.entryAt offset).size + 4)))).map
        (mb.entryAt offset :: ·)
    else some []

/-- The entries of the memory map. -/
def MultibootInfo.entries (mb : MultibootInfo) (fuel : ℕ) : Option (List MmapEntry) :=
  mb.entriesFrom fuel 0

theorem mmapWalk_eq {α : Type} {mb : MultibootInfo} {body : α → MmapEntry → α} :
    ∀ {offset : ℕ} {es : List MmapEntry} (acc : α), mb.entriesFrom fuel offset = some es →
      mmapWalk mb body fuel offset acc = some (es.foldl body acc) := by
  induction fuel with
  | zero =>
    intro _ _ _ h
    cases h
  | succ fuel ih =>
    intro offset es acc h
    rw [MultibootInfo.entriesFrom] at h
    rw [mmapWalk]
    split_ifs at h ⊢
    · obtain ⟨rest, hrest, rfl⟩ := Option.map_eq_some_iff.mp h
      exact ih _ hrest
    · cases h
      rfl

/-- The byte `x` is in the region. -/
def MmapEntry.Covers (e : MmapEntry) (x : ℕ) : Prop := e.addr ≤ x ∧ x < e.addr + e.len

/-- The frame `f` is available: each of its bytes is in a region of type 1, and none is in a
region of another type. -/
def WhollyAvailable (es : List MmapEntry) (f : ℕ) : Prop :=
  ∀ x, f * 4096 ≤ x → x < (f + 1) * 4096 →
    (∃ e ∈ es, e.type = 1 ∧ e.Covers x) ∧ ∀ e ∈ es, e.type ≠ 1 → ¬ e.Covers x

/-- An available region reaches into the frame `f`. (A region that stops within the last page of the
64-bit space is skipped.) -/
def MmapEntry.ReachesInto (e : MmapEntry) (f : ℕ) : Prop :=
  e.type = 1 ∧ (∃ x, f * 4096 ≤ x ∧ x < (f + 1) * 4096 ∧ e.Covers x) ∧
    e.addr + e.len + 4095 < 18446744073709551616

/-- `max_addr` of `pmm_init`, by the entries of the map. -/
def MultibootInfo.maxAddr (mb : MultibootInfo) (es : List MmapEntry) : ℕ :=
  let highest := es.foldl (fun maxAddr entry =>
    let entryEnd := u64 (entry.addr + entry.len)
    if entryEnd > maxAddr then entryEnd else maxAddr) 0
  if highest = 0 then u64 ((mb.memLower + mb.memUpper) * 1024) else highest

/-- The frames between the end of the kernel and the end of memory, as `pmm_init` has them. -/
def Managed (kernelEnd : ℕ) (mb : MultibootInfo) (es : List MmapEntry) (f : ℕ) : Prop :=
  reserveFloor kernelEnd ≤ f ∧ f < clampFrames (reserveFloor kernelEnd) (mb.maxAddr es)

/-- No managed frame is shared between an available region and other memory; a map without entries
gives no frames. -/
def MapSeparates (kernelEnd : ℕ) (mb : MultibootInfo) (es : List MmapEntry) : Prop :=
  ∀ f, Managed kernelEnd mb es f → mb.mmapLength = 0 ∨ (∃ e ∈ es, e.ReachesInto f) →
    WhollyAvailable es f

/-! ## What `pmm_init` releases -/

/-- The frames `release_region` visits for the entry. -/
def MmapEntry.Releases (e : MmapEntry) (f : ℕ) : Prop :=
  e.type = 1 ∧ e.len ≠ 0 ∧ e.addr / 4096 ≤ f ∧ f < u64 (e.addr + e.len + 4096 - 1) / 4096

theorem reachesInto_iff {e : MmapEntry} (hwf : e.addr + e.len < 18446744073709551616) (f : ℕ) :
    e.ReachesInto f ↔ e.Releases f := by
  rw [MmapEntry.ReachesInto, MmapEntry.Releases, u64]
  refine and_congr_right fun _ => ?_
  constructor
  · rintro ⟨⟨x, h1, h2, h3, h4⟩, hend⟩
    omega
  · rintro ⟨hlen, h1, h2⟩
    -- a sum that wraps is less than a page
    have hend : e.addr + e.len + 4095 < 18446744073709551616 := by omega
    refine ⟨⟨max e.addr (f * 4096), le_max_right _ _, ?_, le_max_left _ _, ?_⟩, hend⟩
    · omega
    · omega

theorem mem_freeSet_releaseEntries {es : List MmapEntry} : ∀ {s : Pmm}, s.totalFrames ≤ 1048576 →
      (∀ g, g ∈ (es.foldl (fun s entry =>
          if entry.type = 1 then s.releaseRegion entry.addr entry.len else s) s).freeSet ↔
        g ∈ s.freeSet ∨ (s.baseUsableFrame ≤ g ∧ g < s.totalFrames) ∧ ∃ e ∈ es, e.Releases g) ∧
      (es.foldl (fun s entry =>
          if entry.type = 1 then s.releaseRegion entry.addr entry.len else s) s).baseUsableFrame =
        s.baseUsableFrame ∧ (es.foldl (fun s entry =>
          if entry.type = 1 then s.releaseRegion entry.addr entry.len else s) s).totalFrames =
        s.totalFrames := by
  induction es with
  | nil => exact fun _ => ⟨fun g => by simp, rfl, rfl⟩
  | cons e es ih =>
    intro s htotal
    obtain ⟨hmem, hbase, htot⟩ := mem_freeSet_releaseRegion htotal e.addr e.len
    rw [List.foldl_cons]
    by_cases htype : e.type = 1
    · obtain ⟨hmem', hbase', htot'⟩ := ih (htot ▸ htotal)
      rw [if_pos htype]
      refine ⟨fun g => ?_, hbase'.trans hbase, htot'.trans htot⟩
      rw [hmem', hmem, hbase, htot, or_assoc, List.exists_mem_cons_iff]
      refine or_congr_right ⟨?_, ?_⟩
      · rintro (⟨hlen, hb, ht, h1, h2⟩ | ⟨hrange, hex⟩)
        · exact ⟨⟨hb, ht⟩, Or.inl ⟨htype, hlen, h1, h2⟩⟩
        · exact ⟨hrange, Or.inr hex⟩
      · rintro ⟨⟨hb, ht⟩, ⟨-, hlen, h1, h2⟩ | hex⟩
        · exact Or.inl ⟨hlen, hb, ht, h1, h2⟩
        · exact Or.inr ⟨⟨hb, ht⟩, hex⟩
    · obtain ⟨hmem', hbase', htot'⟩ := ih htotal
      rw [if_neg htype]
      refine ⟨fun g => ?_, hbase', htot'⟩
      have hnot : ¬ e.Releases g := fun hr => htype hr.1
      rw [hmem', List.exists_mem_cons_iff, or_iff_right hnot]

theorem MultibootInfo.entries_eq_nil {mb : MultibootInfo} {es : List MmapEntry}
    (hes : mb.entries fuel = some es) : es = [] ↔ mb.mmapLength = 0 := by
  rw [MultibootInfo.entries] at hes
  cases fuel with
  | zero => cases hes
  | succ fuel =>
    rw [MultibootInfo.entriesFrom] at hes
    split_ifs at hes with hlen
    · obtain ⟨rest, -, rfl⟩ := Option.map_eq_some_iff.mp hes
      exact iff_of_false (List.cons_ne_nil _ _) hlen.ne'
    · cases hes
      exact iff_of_true rfl (Nat.eq_zero_of_not_pos hlen)

/-- **What `pmm_init` leaves**: the size of memory, and the frames of the managed range that some
entry releases. -/
theorem pmmInit_of_entries {mb : MultibootInfo} {es : List MmapEntry} (kernelEnd : ℕ)
    (hes : mb.entries fuel = some es) : ∃ s, pmmInit fuel kernelEnd (some mb) = some s ∧
      s.baseUsableFrame = reserveFloor kernelEnd ∧
      s.totalFrames = clampFrames (reserveFloor kernelEnd) (mb.maxAddr es) ∧
      ∀ f, f ∈ s.freeSet ↔ Managed kernelEnd mb es f ∧ (es = [] ∨ ∃ e ∈ es, e.Releases f) := by
  obtain ⟨hfloor, hmax⟩ := reserveFloor_bounds kernelEnd
  obtain ⟨hle, htotal⟩ := clampFrames_bounds hmax (mb.maxAddr es)
  have hnil := MultibootInfo.entries_eq_nil hes
  by_cases hlen : mb.mmapLength = 0
  · obtain rfl := hnil.mpr hlen
    obtain ⟨s, hs, hbase, htot, hfree⟩ := pmmInit_of_noMap hlen fuel kernelEnd
    refine ⟨s, hs, hbase, htot, fun f => ?_⟩
    rw [hfree, Finset.mem_Ico, hbase, htot]
    exact ⟨fun hr => ⟨hr, Or.inl rfl⟩, fun hr => hr.1⟩
  · set s0 : Pmm := ⟨clampFrames (reserveFloor kernelEnd) (mb.maxAddr es), 0,
      reserveFloor kernelEnd, reserveFloor kernelEnd, fun _ => 0xFF#8⟩ with hs0
    have hempty := (initInv_reserved hfloor hle htotal).freeFrames_eq_zero.mp rfl
    have hs : pmmInit fuel kernelEnd (some mb) = some (es.foldl (fun s entry =>
        if entry.type = 1 then s.releaseRegion entry.addr entry.len else s) s0) := by
      rw [pmmInit, highestAddressFromMmap, if_neg hlen, mmapWalk_eq 0 hes]
      simp only [Option.bind_eq_bind, Option.bind_some, processAvailableRegions]
      rw [if_neg hlen]
      exact mmapWalk_eq s0 hes
    obtain ⟨hmem, hbase, htot⟩ := @mem_freeSet_releaseEntries es s0 htotal
    refine ⟨_, hs, hbase, htot, fun f => ?_⟩
    rw [hmem, hempty]
    constructor
    · rintro (hf | ⟨hrange, hex⟩)
      · exact absurd hf (Finset.notMem_empty f)
      · exact ⟨hrange, Or.inr hex⟩
    · rintro ⟨hrange, hex⟩
      exact Or.inr ⟨hrange, hex.resolve_left (hlen ∘ hnil.mp)⟩

theorem Pmm.Inv.clear_iff {s : Pmm} (hs : s.Inv) (hf : f < pmmMaxFrames) :
    s.testFrame f = false ↔ f ∈ s.freeSet := by
  refine ⟨fun hbit => ?_, fun hmem => (mem_freeSet.mp hmem).2.2⟩
  by_contra hnot
  have hout : f < s.baseUsableFrame ∨ s.totalFrames ≤ f := by
    by_contra hin
    exact hnot (mem_freeSet.mpr ⟨by omega, by omega, hbit⟩)
  exact absurd (hs.outside f hf hout) (by simp [hbit])

/-- **The frames that become free**: those of the managed range that an available region
reaches into. -/
theorem pmmInit_clear_iff {mb : MultibootInfo} {es : List MmapEntry} (kernelEnd : ℕ)
    (hes : mb.entries fuel = some es) (hwf : ∀ e ∈ es, e.addr + e.len < 18446744073709551616) :
    ∃ s, pmmInit fuel kernelEnd (some mb) = some s ∧ ∀ f < pmmMaxFrames,
      (s.testFrame f = false ↔ Managed kernelEnd mb es f ∧
        (mb.mmapLength = 0 ∨ ∃ e ∈ es, e.ReachesInto f)) := by
  obtain ⟨s, hs, -, -, hmem⟩ := pmmInit_of_entries kernelEnd hes
  refine ⟨s, hs, fun f hf => ?_⟩
  rw [(pmmInit_inv hs).clear_iff hf, hmem, MultibootInfo.entries_eq_nil hes]
  refine and_congr_right fun _ => or_congr_right (exists_congr fun e => ?_)
  exact and_congr_right fun he => (reachesInto_iff (hwf e he) f).symm

theorem Managed.above {kernelEnd : ℕ} {mb : MultibootInfo} {es : List MmapEntry}
    (h : Managed kernelEnd mb es f) (hkernel : kernelEnd + 4095 < 4294967296) :
    kernelEnd ≤ f * 4096 ∧ 0x00100000 ≤ f * 4096 := by
  have hfloor := (reserveFloor_bounds kernelEnd).1
  have hle := h.1
  have halign : alignFrameUp kernelEnd = (kernelEnd + 4095) / 4096 := by
    rw [alignFrameUp, show kernelEnd + 4096 - 1 = kernelEnd + 4095 by omega, u32_of_lt hkernel]
  have hkernel' : alignFrameUp kernelEnd ≤ reserveFloor kernelEnd := by
    rw [reserveFloor]
    split_ifs <;> omega
  omega

/-- **Only available frames**: the frames that are clear after `pmm_init` are wholly available, and
behind the kernel and the first MiB, exactly when the map separates available regions from other
memory on frame boundaries. -/
theorem pmmInit_available_iff {fuel kernelEnd : ℕ} {mb : MultibootInfo} {es : List MmapEntry}
    (hkernel : kernelEnd + 4095 < 4294967296) (hes : mb.entries fuel = some es)
    (hwf : ∀ e ∈ es, e.addr + e.len < 18446744073709551616) :
    ∃ s, pmmInit fuel kernelEnd (some mb) = some s ∧ ((∀ f < pmmMaxFrames, s.testFrame f = false →
        WhollyAvailable es f ∧ kernelEnd ≤ f * 4096 ∧ 0x00100000 ≤ f * 4096) ↔
      MapSeparates kernelEnd mb es) := by
  obtain ⟨s, hs, hclear⟩ := pmmInit_clear_iff kernelEnd hes hwf
  refine ⟨s, hs, fun h f hman hreach => ?_, fun h f hf hbit => ?_⟩
  · have hlt : f < pmmMaxFrames :=
      hman.2.trans_le (clampFrames_bounds (reserveFloor_bounds kernelEnd).2 _).2
    exact (h f hlt ((hclear f hlt).mpr ⟨hman, hreach⟩)).1
  · obtain ⟨hman, hreach⟩ := (hclear f hf).mp hbit
    exact ⟨h f hman hreach, hman.above hkernel⟩

/-- One available region of 2 MiB. -/
theorem pmmInit_available_iff_one :
    ∃ s, pmmInit 2 0 (some ⟨640, 1024, 24, fun _ => ⟨20, 0, 0x200000, 1⟩⟩) = some s ∧
      ∀ f < pmmMaxFrames, s.testFrame f = false →
        WhollyAvailable [⟨20, 0, 0x200000, 1⟩] f ∧ 0 ≤ f * 4096 ∧ 0x00100000 ≤ f * 4096 := by
  obtain ⟨s, hs, hiff⟩ := @pmmInit_available_iff 2 0
    ⟨640, 1024, 24, fun _ => ⟨20, 0, 0x200000, 1⟩⟩ [⟨20, 0, 0x200000, 1⟩]
    (by decide) (by decide) (by decide)
  refine ⟨s, hs, hiff.mpr fun f hman _ x h1 h2 => ⟨⟨_, List.mem_singleton_self _, rfl, ?_⟩, ?_⟩⟩
  · have htop : clampFrames (reserveFloor 0) (MultibootInfo.maxAddr
        ⟨640, 1024, 24, fun _ => ⟨20, 0, 0x200000, 1⟩⟩ [⟨20, 0, 0x200000, 1⟩]) = 512 := by decide
    have hlt := hman.2
    rw [htop] at hlt
    exact ⟨Nat.zero_le _, by dsimp only; omega⟩
  · intro e he htype
    rw [List.mem_singleton.mp he] at htype
    exact absurd rfl htype

/-- An available region that ends in the middle of frame 257, with reserved memory behind it:
the frame becomes free. -/
theorem pmmInit_frees_shared_frame :
    ∃ (mb : MultibootInfo) (es : List MmapEntry) (s : Pmm), mb.entries 3 = some es ∧
      (∀ e ∈ es, e.addr + e.len < 18446744073709551616) ∧ pmmInit 3 0 (some mb) = some s ∧
      ∃ f < pmmMaxFrames, s.testFrame f = false ∧ ¬ WhollyAvailable es f := by
  let mb : MultibootInfo := ⟨640, 392, 48, fun offset =>
    if offset = 0 then ⟨20, 0, 0x101800, 1⟩ else ⟨20, 0x101800, 0x800, 2⟩⟩
  have hrun : ((pmmInit 3 0 (some mb)).map fun s => s.testFrame 257) = some false := by
    decide +kernel
  obtain ⟨s, hs, hbit⟩ := Option.map_eq_some_iff.mp hrun
  refine ⟨mb, [⟨20, 0, 0x101800, 1⟩, ⟨20, 0x101800, 0x800, 2⟩], s, by decide, by decide, hs, 257,
    by decide, hbit, fun hall => ?_⟩
  have hother := (hall 0x101800 (by decide) (by decide)).2 ⟨20, 0x101800, 0x800, 2⟩ (by simp)
    (by decide)
  exact hother ⟨by decide, by decide⟩

/-! ## Walks that end -/

namespace MultibootInfo

variable {mb : MultibootInfo}

/-- The offset behind an entry. -/
def next (mb : MultibootInfo) (offset : ℕ) : ℕ := u32 (offset + u32 ((mb.entryAt offset).size + 4))

/-- The map has an entry at `offset`, and its size field leads to `offset'`. -/
def Leads (mb : MultibootInfo) (offset offset' : ℕ) : Prop :=
  offset < mb.mmapLength ∧ offset' = mb.next offset

/-- The loops over the map end: each runs its body, whatever it is, on the entries at some offsets
within the map. -/
def WalksEnd (mb : MultibootInfo) : Prop :=
  ∃ (visited : List ℕ) (rounds : ℕ), (∀ offset ∈ visited, offset < mb.mmapLength) ∧
    ∀ fuel, rounds < fuel →
      (∀ (α : Type) (body : α → MmapEntry → α) (acc : α), mmapWalk mb body fuel 0 acc =
        some ((visited.map mb.entryAt).foldl body acc)) ∧
      (highestAddressFromMmap fuel (some mb)).isSome ∧
      ∀ s, (processAvailableRegions fuel s (some mb)).isSome

/-- A walk that comes to the end of the map after `n` steps ends. -/
theorem walk_of_exit (n : ℕ) : ∀ {offset : ℕ}, mb.mmapLength ≤ mb.next^[n] offset →
    ∃ visited : List ℕ, (∀ o ∈ visited, o < mb.mmapLength) ∧
      ∀ fuel, n < fuel → ∀ (α : Type) (body : α → MmapEntry → α) (acc : α),
        mmapWalk mb body fuel offset acc = some ((visited.map mb.entryAt).foldl body acc) := by
  induction n with
  | zero =>
    intro offset hexit
    refine ⟨[], by simp, fun fuel hfuel α body acc => ?_⟩
    obtain ⟨fuel, rfl⟩ := Nat.exists_eq_succ_of_ne_zero hfuel.ne'
    exact if_neg (not_lt.mpr hexit)
  | succ n ih =>
    intro offset hexit
    obtain ⟨visited, hbelow, hwalk⟩ := @ih (mb.next offset) hexit
    by_cases hin : offset < mb.mmapLength
    · refine ⟨offset :: visited, List.forall_mem_cons.mpr ⟨hin, hbelow⟩, ?_⟩
      intro fuel hfuel α body acc
      obtain ⟨fuel, rfl⟩ := Nat.exists_eq_succ_of_ne_zero (by omega : fuel ≠ 0)
      rw [mmapWalk, if_pos hin]
      exact hwalk fuel (by omega) α body _
    · refine ⟨[], by simp, fun fuel hfuel α body acc => ?_⟩
      obtain ⟨fuel, rfl⟩ := Nat.exists_eq_succ_of_ne_zero (by omega : fuel ≠ 0)
      exact if_neg hin

/-- A walk never ends on a cycle. -/
theorem walk_of_cycle (fuel : ℕ) : ∀ {offset : ℕ}, Relation.TransGen mb.Leads offset offset →
    mmapWalk mb (fun _ _ => ()) fuel offset () = none := by
  induction fuel with
  | zero => exact fun _ => rfl
  | succ fuel ih =>
    intro offset hcycle
    obtain ⟨o, ⟨hin, rfl⟩, hback⟩ := Relation.TransGen.head'_iff.mp hcycle
    rw [mmapWalk, if_pos hin]
    exact ih (Relation.TransGen.tail' hback ⟨hin, rfl⟩)

/-- A walk that ends ends from every offset that it comes to. -/
theorem walk_reaches {offset : ℕ} (hreach : Relation.ReflTransGen mb.Leads 0 offset)
    (h : (mmapWalk mb (fun _ _ => ()) fuel 0 ()).isSome) :
    ∃ fuel', (mmapWalk mb (fun _ _ => ()) fuel' offset ()).isSome := by
  induction hreach with
  | refl => exact ⟨fuel, h⟩
  | tail _ hstep ih =>
    obtain ⟨hin, rfl⟩ := hstep
    obtain ⟨_ | fuel, h⟩ := ih
    · simp [mmapWalk] at h
    · rw [mmapWalk, if_pos hin] at h
      exact ⟨fuel, h⟩

/-- Steps within the map. -/
theorem leads_iterate (hin : ∀ n, mb.next^[n] 0 < mb.mmapLength) (n k : ℕ) :
    Relation.ReflTransGen mb.Leads (mb.next^[n] 0) (mb.next^[n + k] 0) := by
  induction k with
  | zero => exact .refl
  | succ k ih => exact ih.tail ⟨hin _, Function.iterate_succ_apply' ..⟩

/-- Steps that stay within the map come to an offset twice, since the offsets have 32 bits. -/
theorem exists_cycle (hin : ∀ n, mb.next^[n] 0 < mb.mmapLength) :
    ∃ offset, Relation.ReflTransGen mb.Leads 0 offset ∧
      Relation.TransGen mb.Leads offset offset := by
  have hword : ∀ n, mb.next^[n] 0 < 4294967296 := by
    rintro (_ | n)
    · exact Nat.zero_lt_succ _
    · rw [Function.iterate_succ_apply']
      exact Nat.mod_lt _ (by decide)
  obtain ⟨i, j, hne, hij⟩ :=
    Finite.exists_ne_map_eq_of_infinite fun n => (⟨_, hword n⟩ : Fin 4294967296)
  replace hij : mb.next^[i] 0 = mb.next^[j] 0 := congrArg Fin.val hij
  wlog hlt : i < j generalizing i j
  · exact this j i hne.symm hij.symm (by omega)
  refine ⟨mb.next^[i] 0, by simpa using leads_iterate hin 0 i, ?_⟩
  have hstep : mb.Leads (mb.next^[i] 0) (mb.next^[i + 1] 0) :=
    ⟨hin i, Function.iterate_succ_apply' ..⟩
  have hrest := leads_iterate hin (i + 1) (j - (i + 1))
  rw [show i + 1 + (j - (i + 1)) = j by omega, ← hij] at hrest
  exact Relation.TransGen.head' hstep hrest

end MultibootInfo

/-- **The loops over the memory map end, visit the same entries and read only entries within the
map, exactly when the size fields lead from the first entry into no cycle.** -/
theorem mmap_walks_end_iff (mb : MultibootInfo) : mb.WalksEnd ↔
    ∀ offset, Relation.ReflTransGen mb.Leads 0 offset →
      ¬Relation.TransGen mb.Leads offset offset := by
  constructor
  · rintro ⟨visited, rounds, -, hends⟩ offset hreach hcycle
    have hwalk := (hends (rounds + 1) (by omega)).1 Unit (fun _ _ => ()) ()
    obtain ⟨fuel, hsome⟩ := MultibootInfo.walk_reaches hreach (Option.isSome_of_eq_some hwalk)
    rw [MultibootInfo.walk_of_cycle fuel hcycle] at hsome
    cases hsome
  · intro hacyclic
    have hexit : ∃ n, mb.mmapLength ≤ mb.next^[n] 0 := by
      by_contra! hin
      obtain ⟨offset, hreach, hcycle⟩ := MultibootInfo.exists_cycle hin
      exact hacyclic offset hreach hcycle
    obtain ⟨n, hexit⟩ := hexit
    obtain ⟨visited, hbelow, hwalk⟩ := MultibootInfo.walk_of_exit n hexit
    refine ⟨visited, n, hbelow, fun fuel hfuel => ⟨hwalk fuel hfuel, ?_, fun s => ?_⟩⟩
    · simp only [highestAddressFromMmap]
      split_ifs
      · rfl
      · rw [hwalk fuel hfuel]
        rfl
    · simp only [processAvailableRegions]
      split_ifs
      · rfl
      · rw [hwalk fuel hfuel]
        rfl

/-- A size field of `0xFFFFFFFC` leads from the first entry back to it. -/
theorem mmap_walk_stays : ∃ mb : MultibootInfo, mb.mmapLength = 24 ∧ ¬mb.WalksEnd := by
  refine ⟨⟨0, 0, 24, fun _ => ⟨0xFFFFFFFC, 0, 0, 0⟩⟩, rfl, ?_⟩
  rintro ⟨visited, rounds, -, hends⟩
  have hwalk := (hends (rounds + 1) (by omega)).1 Unit (fun _ _ => ()) ()
  rw [MultibootInfo.walk_of_cycle] at hwalk
  · cases hwalk
  · exact .single ⟨by decide, by decide⟩

end PenOS
