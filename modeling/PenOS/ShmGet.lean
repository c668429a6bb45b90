import PenOS.ShmTable
import PenOS.LastFrame

/-!
# `shm_get`, all or nothing

`shm_get` takes a block for the list of frames, then the frames, and enters the region last. If the
frames run out, all is given back.
-/

namespace PenOS

open Finset Function List

variable {D : Type}
variable {flags i m n want : ℕ} {h1 h₁ : Heap D} {out : Heap D × Option ℕ} {fs : List ℕ}

/-! ## The frames of a region -/

namespace Heap

variable {h h' : Heap D} {p : ℕ}

/-- The loop of `shm_get` has taken the frames `fs` and written them to the list at `p`, from word
`i` on; it was to take `n`. -/
structure FramesTaken (h : Heap D) (out : Heap D × Option ℕ) (p n i : ℕ) (fs : List ℕ) : Prop where
  nodup : fs.Nodup
  fresh : ∀ f ∈ fs, f ∈ h.paging.pmm.freeSet
  pmm : out.1.paging.pmm.Inv
  range : out.1.paging.pmm.baseUsableFrame = h.paging.pmm.baseUsableFrame ∧
    out.1.paging.pmm.totalFrames = h.paging.pmm.totalFrames
  free : ∀ f, f ∈ out.1.paging.pmm.freeSet ↔ f ∈ h.paging.pmm.freeSet ∧ f ∉ fs
  same : out.1 = { h.withPmm out.1.paging.pmm with window := out.1.window }
  bytes : ∀ x, x < p + 4 * i ∨ p + 4 * (i + n) ≤ x → out.1.window.bytes x = h.window.bytes x
  words : out.1.wordFrames p i fs.length = fs
  result : out.2 = none ∧ fs.length = n ∨
    out.2 = some (i + fs.length) ∧ fs.length < n ∧ out.1.paging.pmm.freeSet = ∅

/-- **The loop over the frames** takes all it needs, or all there are. -/
theorem takeFrames_taken (n i : ℕ) (hpmm : h.paging.pmm.Inv) :
    ∃ fs, h.FramesTaken (h.takeFrames p n i) p n i fs := by
  induction n generalizing h i with
  | zero =>
    exact ⟨[], nodup_nil, by simp, hpmm, ⟨rfl, rfl⟩, by simp [takeFrames], rfl, fun _ _ => rfl, rfl,
      .inl ⟨rfl, rfl⟩⟩
  | succ n ih =>
    rw [takeFrames]
    rcases h.paging.pmm.freeSet.eq_empty_or_nonempty with he | hne
    · rw [pmmAllocFrame_of_empty hpmm he]
      exact ⟨[], nodup_nil, by simp, hpmm, ⟨rfl, rfl⟩, by simp [withPmm], rfl, fun _ _ => rfl, rfl,
        .inr ⟨rfl, Nat.succ_pos n, he⟩⟩
    have hmin := min'_mem _ hne
    obtain ⟨hbase, htotal, -⟩ := Pmm.mem_freeSet.mp hmin
    have hfloor := hpmm.floor
    have hle := hpmm.total_le
    obtain ⟨hzero, hlt, hdiv⟩ : (pmmAllocFrame h.paging.pmm).2 ≠ 0 ∧
        (pmmAllocFrame h.paging.pmm).2 < 4294967296 ∧
        (pmmAllocFrame h.paging.pmm).2 / 4096 = h.paging.pmm.freeSet.min' hne := by
      have haddr : (pmmAllocFrame h.paging.pmm).2 = 4096 * h.paging.pmm.freeSet.min' hne := by
        rw [pmmAllocFrame_of_nonempty hpmm hne]
        exact hpmm.address_eq hmin
      omega
    have hset : (pmmAllocFrame h.paging.pmm).1.freeSet =
        h.paging.pmm.freeSet.erase (h.paging.pmm.freeSet.min' hne) := by
      rw [pmmAllocFrame_of_nonempty hpmm hne, Pmm.freeSet_takeFrame]
    rw [if_neg hzero]
    obtain ⟨fs, htaken⟩ := ih (h := h.storeFrame (p + 4 * i) (pmmAllocFrame h.paging.pmm)) (i + 1)
      (pmmAllocFrame_inv hpmm)
    have hrange := pmmAllocFrame_range h.paging.pmm
    -- what the rest of the loop takes was free beside this frame
    have hrest : ∀ f ∈ fs, f ≠ h.paging.pmm.freeSet.min' hne ∧ f ∈ h.paging.pmm.freeSet := by
      intro f hf
      have hmem : f ∈ (pmmAllocFrame h.paging.pmm).1.freeSet := htaken.fresh f hf
      rw [hset] at hmem
      exact ⟨ne_of_mem_erase hmem, Finset.mem_of_mem_erase hmem⟩
    refine ⟨h.paging.pmm.freeSet.min' hne :: fs,
      nodup_cons.mpr ⟨fun hmem => (hrest _ hmem).1 rfl, htaken.nodup⟩, ?_, htaken.pmm,
      ⟨htaken.range.1.trans hrange.1, htaken.range.2.trans hrange.2⟩, fun f => ?_, htaken.same,
      fun x hx => ?_, ?_, ?_⟩
    · intro f hf
      rcases mem_cons.mp hf with rfl | hf
      · exact hmin
      · exact (hrest f hf).2
    · rw [htaken.free f]
      change f ∈ (pmmAllocFrame h.paging.pmm).1.freeSet ∧ f ∉ fs ↔ _
      rw [hset, mem_erase, List.mem_cons, not_or]
      tauto
    · exact (htaken.bytes x (by omega)).trans (Mem.store32_of_not_mem (by omega))
    · -- the loop goes on behind this word
      have hload : (takeFrames p n (i + 1) (h.storeFrame (p + 4 * i)
          (pmmAllocFrame h.paging.pmm))).1.window.load32 (p + 4 * i) =
            (pmmAllocFrame h.paging.pmm).2 :=
        (Mem.load32_congr fun x hx hx' => htaken.bytes x (by omega)).trans
          ((Mem.load32_store32_self _ _ _).trans (u32_of_lt hlt))
      rw [length_cons, wordFrames_succ, hload, hdiv, htaken.words]
    · rw [length_cons]
      rcases htaken.result with ⟨hnone, hlen⟩ | ⟨hsome, hlen, hempty⟩
      · exact .inl ⟨hnone, by omega⟩
      · exact .inr ⟨by rw [hsome]; exact congrArg some (by omega), by omega, hempty⟩

/-- **The rollback** frees the frames of the list. -/
theorem dropFrames_free {c : ℕ} (hpmm : h.paging.pmm.Inv) (hmanaged : ∀ f ∈ h.wordFrames p 0 c,
      h.paging.pmm.baseUsableFrame ≤ f ∧ f < h.paging.pmm.totalFrames) :
    ∃ pmm : Pmm, h.dropFrames p c = h.withPmm pmm ∧ pmm.Inv ∧
      ∀ f, f ∈ pmm.freeSet ↔ f ∈ h.paging.pmm.freeSet ∨ f ∈ h.wordFrames p 0 c := by
  have hloop := foldl_range'_induct (n := c)
    (f := fun h j => h.withPmm (pmmFreeFrame h.paging.pmm (h.window.load32 (p + 4 * j))))
    (P := fun k h' => ∃ pmm : Pmm, h' = h.withPmm pmm ∧ pmm.Inv ∧
      pmm.baseUsableFrame = h.paging.pmm.baseUsableFrame ∧
      pmm.totalFrames = h.paging.pmm.totalFrames ∧
      ∀ f, f ∈ pmm.freeSet ↔ f ∈ h.paging.pmm.freeSet ∨ f ∈ h.wordFrames p 0 k) 0
    ⟨h.paging.pmm, rfl, hpmm, rfl, rfl, by simp [wordFrames]⟩ ?_
  · obtain ⟨pmm, hres, hinv, -, -, hfree⟩ := hloop
    rw [dropFrames, range_eq_range']
    exact ⟨pmm, hres, hinv, hfree⟩
  rintro k hk h' ⟨pmm, rfl, hinv, hbase, htotal, hfree⟩
  rw [zero_add]
  have hword : h.window.load32 (p + 4 * k) / 4096 ∈ h.wordFrames p 0 c :=
    mem_map.mpr ⟨k, mem_range'_1.mpr ⟨Nat.zero_le k, by omega⟩, rfl⟩
  have hrange := hmanaged _ hword
  refine ⟨_, rfl, pmmFreeFrame_inv hinv _, ?_, ?_, fun f => ?_⟩
  · exact (pmmFreeFrame_base _ _).trans hbase
  · exact (pmmFreeFrame_total _ _).trans htotal
  · change f ∈ (pmmFreeFrame pmm (h.window.load32 (p + 4 * k))).freeSet ↔ _
    rw [freeSet_pmmFreeFrame hinv (hbase ▸ hrange.1) (htotal ▸ hrange.2), mem_insert, hfree f,
      wordFrames, wordFrames, range'_concat, map_append, mem_append]
    simp only [zero_add, one_mul, List.map_cons, map_nil, List.mem_singleton]
    tauto

theorem FramesTaken.card_le (ht : h.FramesTaken out p n i fs) :
    h.paging.pmm.freeSet.card ≤ out.1.paging.pmm.freeSet.card + n := by
  have hsub : h.paging.pmm.freeSet ⊆ out.1.paging.pmm.freeSet ∪ fs.toFinset := by
    intro f hf
    by_cases hin : f ∈ fs
    · exact Finset.mem_union_right _ (mem_toFinset.mpr hin)
    · exact mem_union_left _ ((ht.free f).mpr ⟨hf, hin⟩)
  have hle := (card_le_card hsub).trans (card_union_le _ _)
  have hlen := toFinset_card_le fs
  rcases ht.result with ⟨-, hn⟩ | ⟨-, hn, -⟩ <;> omega

theorem FramesTaken.undone (ht : h.FramesTaken out p n 0 fs) :
    ∃ pmm : Pmm, out.1.dropFrames p fs.length = out.1.withPmm pmm ∧ pmm.Inv ∧
      pmm.freeSet = h.paging.pmm.freeSet := by
  obtain ⟨pmm, hdrop, hinv, hfree⟩ := dropFrames_free ht.pmm (by
    rw [ht.words, ht.range.1, ht.range.2]
    intro f hf
    obtain ⟨h1, h2, -⟩ := Pmm.mem_freeSet.mp (ht.fresh f hf)
    exact ⟨h1, h2⟩)
  refine ⟨pmm, hdrop, hinv, ext fun f => ?_⟩
  rw [hfree f, ht.words, ht.free f]
  constructor
  · rintro (⟨hf, -⟩ | hf)
    · exact hf
    · exact ht.fresh f hf
  · intro hf
    by_cases hmem : f ∈ fs
    · exact .inr hmem
    · exact .inl ⟨hf, hmem⟩

theorem Sound.mapped_eq (hs : h.Sound) (hs' : h'.Sound) (heq : h'.liveBlocks = h.liveBlocks) :
    h'.heapMappedEnd = h.heapMappedEnd := by
  obtain ⟨cs, hinv⟩ := hs
  obtain ⟨ds, hinv'⟩ := hs'
  rw [hinv.liveBlocks_eq, hinv'.liveBlocks_eq] at heq
  obtain rfl := hinv'.settled.eq_of_usedAt hinv.settled heq
  rw [hinv'.mapped, hinv.mapped, hinv'.curr, hinv.curr]

end Heap

/-! ## Other states of the frame manager -/

namespace Paging

variable {s s' : Paging D} {U V : Finset ℕ} {e₀ e : ℕ} {pmm : Pmm}

theorem Kept.withPmm (hs : s.Kept U) (hpmm : pmm.Inv) (hdir : s.currentPd / 4096 ∈ V)
    (hused : ∀ f ∈ V, f ∉ pmm.freeSet) : Kept { s with pmm := pmm } V :=
  ⟨hpmm, hs.hand, hs.aligned, hdir, hused⟩

theorem Orderly.withPmm (hs : s.Orderly e) (pmm : Pmm) : Orderly { s with pmm := pmm } e :=
  ⟨hs.apart, hs.tables⟩

theorem Wiped.withPmm (hs : s.Wiped e) (hsub : pmm.freeSet ⊆ s.pmm.freeSet) :
    Wiped { s with pmm := pmm } e :=
  ⟨(card_le_card hsub).trans hs.card, hs.user, hs.last⟩

theorem Grew.withPmm (hs : s.Grew s' U e₀ e) (hpmm : pmm.Inv)
    (heq : pmm.freeSet = s'.pmm.freeSet) : s.Grew { s' with pmm := pmm } U e₀ e := by
  refine ⟨hs.currentPd, hs.kept.withPmm hpmm hs.kept.dir (heq ▸ hs.kept.used), ?_, hs.spares, ?_⟩
  · rw [heq]
    exact hs.free
  · rcases hs.mode with ho | hsp
    · exact .inl (ho.withPmm pmm)
    · exact .inr ⟨heq.trans hsp.free, hsp.user, hsp.first, hsp.last, hsp.table,
        hsp.index, hsp.before⟩

end Paging

/-! ## One call -/

namespace Shm

open ShmKernel (pagesNeeded)

/-- What a call that returns `-1` leaves: table, numbers and live blocks, and the frames that were
free when the loop began. -/
structure Undone (t s : Shm D) [Disk D] (size : ℕ) : Prop where
  table : s.shmTable = t.shmTable
  next : s.nextShmId = t.nextShmId
  blocks : s.heap.liveBlocks = t.heap.liveBlocks
  frames : s = t ∨ ∃ h₁ p h₂ i, t.heap.kmalloc (pagesNeeded size * 4) = .ok (h₁, p) ∧
    h₁.takeFrames p (pagesNeeded size) 0 = (h₂, some i) ∧
    h₁.paging.pmm.freeSet ⊆ s.heap.paging.pmm.freeSet

/-- The frames in use: the directory and those listed. -/
def usedFrames (t : Shm D) : Finset ℕ := insert (t.heap.paging.currentPd / 4096) t.listed.toFinset

/-- No frame is listed twice or free, and the lists are in live blocks. -/
structure Guarded (t : Shm D) : Prop where
  sound : t.heap.Sound
  kept : t.heap.paging.Kept t.usedFrames
  mode : t.heap.paging.Orderly t.heap.heapMappedEnd ∨ t.heap.paging.Wiped t.heap.heapMappedEnd
  nodup : t.listed.Nodup
  blocks : ∀ k < shmMaxRegions, (t.shmTable k).used = true →
    ∃ n, 4 * (t.shmTable k).pages ≤ n ∧ ((t.shmTable k).physStart, n) ∈ t.heap.liveBlocks

variable {t s : Shm D} {k key size r : ℕ}

theorem Guarded.withHeap (hs : t.Guarded) {h : Heap D} (hsound : h.Sound)
    (hkeep : t.heap.KeepsBlocks h) (hcur : h.paging.currentPd = t.heap.paging.currentPd)
    (hkept : h.paging.Kept t.usedFrames)
    (hmode : h.paging.Orderly h.heapMappedEnd ∨ h.paging.Wiped h.heapMappedEnd) :
    Guarded { t with heap := h } := by
  have hlisted : listed { t with heap := h } = t.listed := by
    refine listed_congr (fun _ _ => rfl) fun k hk hu => ?_
    exact frames_eq (hs.blocks k hk hu) hkeep rfl rfl
  refine ⟨hsound, ?_, hmode, hlisted ▸ hs.nodup, fun k hk hu => ?_⟩
  · rw [usedFrames, hlisted]
    rw [hcur]
    exact hkept
  · obtain ⟨n, hn, hmem⟩ := hs.blocks k hk hu
    exact ⟨n, hn, (hkeep _ hmem).1⟩

theorem Guarded.addRegion (hs : t.Guarded) (hk : k < shmMaxRegions)
    (hfree : (t.shmTable k).used = false) (hnew : (s.shmTable k).used = true)
    (hother : ∀ i, i ≠ k → s.shmTable i = t.shmTable i) (hsound : s.heap.Sound)
    (hkeep : t.heap.KeepsBlocks s.heap) (hblock : ∃ n, 4 * (s.shmTable k).pages ≤ n ∧
      ((s.shmTable k).physStart, n) ∈ s.heap.liveBlocks)
    (hnodup : (s.frames k).Nodup) (hfresh : ∀ f ∈ s.frames k, f ∉ t.usedFrames)
    (hcur : s.heap.paging.currentPd = t.heap.paging.currentPd)
    (hkept : s.heap.paging.Kept (t.usedFrames ∪ (s.frames k).toFinset))
    (hmode : s.heap.paging.Orderly s.heap.heapMappedEnd ∨
      s.heap.paging.Wiped s.heap.heapMappedEnd) : s.Guarded := by
  have hne : ∀ i, (t.shmTable i).used = true → i ≠ k := by
    rintro i hu rfl
    rw [hfree] at hu
    cases hu
  have hperm : s.listed.Perm (s.frames k ++ t.listed) :=
    listed_perm hk hfree hnew (fun i _ hi => by rw [hother i hi]) fun i hi hu =>
      frames_eq (hs.blocks i hi hu)
        hkeep (by rw [hother i (hne i hu)]) (by rw [hother i (hne i hu)])
  have hset : s.usedFrames = t.usedFrames ∪ (s.frames k).toFinset := by
    rw [usedFrames, usedFrames, hcur, toFinset_eq_of_perm _ _ hperm, toFinset_append,
      insert_union, union_comm]
  refine ⟨hsound, hset ▸ hkept, hmode, hperm.nodup_iff.mpr ?_, fun i hi hu => ?_⟩
  · refine nodup_append.mpr ⟨hnodup, hs.nodup, ?_⟩
    rintro f hf g hg rfl
    exact hfresh f hf (Finset.mem_insert_of_mem (mem_toFinset.mpr hg))
  · rcases eq_or_ne i k with rfl | hik
    · exact hblock
    · rw [hother i hik] at hu ⊢
      obtain ⟨n, hn, hmem⟩ := hs.blocks i hi hu
      exact ⟨n, hn, (hkeep _ hmem).1⟩

variable [Disk D]

theorem Guarded.kmalloc_grew (hs : t.Guarded) {p : ℕ} (hwant : want ≤ heapSize)
    (hsound : h1.Sound) (hmalloc : t.heap.kmalloc want = .ok (h1, p)) :
    ∃ n, h1.heapMappedEnd = t.heap.heapMappedEnd + n * 4096 ∧ heapStart ≤ t.heap.heapMappedEnd ∧
      t.heap.heapMappedEnd % 4096 = 0 ∧ t.heap.heapMappedEnd + n * 4096 ≤ heapEnd ∧
      (t.heap.paging.Grew h1.paging t.usedFrames t.heap.heapMappedEnd
          (t.heap.heapMappedEnd + n * 4096) ∨
        n = 0 ∧ h1.paging = t.heap.paging ∧ t.heap.paging.Wiped t.heap.heapMappedEnd) := by
  have hlayout := heap_layout
  obtain ⟨cs, hinv⟩ := hs.sound
  obtain ⟨ds, hinv1⟩ := hsound
  obtain ⟨n, hgrow, hend, -⟩ := Heap.kmalloc_paging hinv hwant hmalloc
  obtain ⟨hlo, -, halign⟩ := hinv.mapped_range
  obtain ⟨-, hhi, -⟩ := hinv1.mapped_range
  rw [hend] at hhi
  exact ⟨n, hend, hlo, by omega, hhi,
    Paging.growUp_grew hs.kept hs.mode hlo hhi (by omega) hgrow⟩

theorem keeps_list {p : ℕ} (hsound : t.heap.Sound) (hwant : want ≤ heapSize)
    (hmalloc : t.heap.kmalloc want = .ok (h₁, p)) (hsound1 : h₁.Sound) (htook : t.heap.Took h₁ p m)
    (hm : 4 * n ≤ m) (ht : h₁.FramesTaken out p n 0 fs) :
    out.1.Sound ∧ out.1.liveBlocks = h₁.liveBlocks ∧
      ∀ u ∈ t.heap.liveBlocks, u ∈ out.1.liveBlocks ∧ u ≠ (p, m) ∧
        ∀ x, u.1 ≤ x → x < u.1 + u.2 → out.1.window.bytes x = t.heap.window.bytes x := by
  have hown : h₁.Owned p (4 * n) := .inr ⟨(p, m), htook.mem, le_rfl, by dsimp only; omega⟩
  obtain ⟨hwritten, hblocks⟩ := hsound1.write hown fun x hx => ht.bytes x (by omega)
  have hlive : out.1.liveBlocks = h₁.liveBlocks := by
    rw [ht.same]
    exact hblocks
  refine ⟨?_, hlive, fun u hu => ?_⟩
  · rw [ht.same]
    exact hwritten.withPaging { h₁.paging with pmm := out.1.paging.pmm }
  have hu1 := htook.subset u hu
  have hne : u ≠ (p, m) := fun heq => htook.fresh hsound1 hu (by rw [heq])
  have hapart := hsound1.live_apart hu1 htook.mem hne
  refine ⟨hlive ▸ hu1, hne, fun x h1 h2 => ?_⟩
  exact (ht.bytes x (by omega)).trans (hsound.kmalloc_bytes hwant hmalloc hu h1 h2)

/-- **The rollback** of `shm_get`. -/
theorem Guarded.rollback (hs : t.Guarded) {p : ℕ} {h₂ h3 : Heap D}
    (hwant : want ≤ heapSize) (hmalloc : t.heap.kmalloc want = .ok (h₁, p)) (hsound1 : h₁.Sound)
    (htook : t.heap.Took h₁ p m) (hm : 4 * n ≤ m) (htake : h₁.takeFrames p n 0 = (h₂, some i))
    (hkfree : (h₂.dropFrames p i).kfree p = .ok h3) :
    Guarded { t with heap := h3 } ∧ h3.liveBlocks = t.heap.liveBlocks ∧
      h₁.paging.pmm.freeSet ⊆ h3.paging.pmm.freeSet := by
  obtain ⟨c, hend, hlo, halign, hhi, hgrow⟩ := hs.kmalloc_grew hwant hsound1 hmalloc
  have hpmm1 : h₁.paging.pmm.Inv := by
    rcases hgrow with hg | ⟨-, heq, -⟩
    · exact hg.kept.pmm
    · exact heq ▸ hs.kept.pmm
  obtain ⟨fs, htaken⟩ := Heap.takeFrames_taken n 0 hpmm1
  rw [htake] at htaken
  have hi : i = fs.length := by
    rcases htaken.result with ⟨hnone, -⟩ | ⟨hsome, -⟩
    · cases hnone
    · rw [Option.some.inj hsome, zero_add]
  obtain ⟨hsound2, hlive2, hkeep⟩ := keeps_list hs.sound hwant hmalloc hsound1 htook hm htaken
  obtain ⟨pmm, hdrop, hpmm, hfree⟩ := htaken.undone
  rw [hi, hdrop] at hkfree
  -- the heap before the block is given back
  have hsame : (h₂.withPmm pmm).paging = { h₁.paging with pmm := pmm } := by
    have hsame := htaken.same
    dsimp only at hsame
    rw [hsame]
    rfl
  have hend2 : (h₂.withPmm pmm).heapMappedEnd = h₁.heapMappedEnd := by
    have hsame := htaken.same
    dsimp only at hsame
    rw [hsame]
    rfl
  have hsound2' : (h₂.withPmm pmm).Sound := hsound2.withPaging { h₂.paging with pmm := pmm }
  have hmem : (p, m) ∈ (h₂.withPmm pmm).liveBlocks := by
    change (p, m) ∈ h₂.liveBlocks
    rw [hlive2]
    exact htook.mem
  obtain ⟨hsound3, hlive3⟩ := hsound2'.kfree hmem hkfree
  have hblocks : h3.liveBlocks = t.heap.liveBlocks := by
    rw [hlive3]
    change h₂.liveBlocks.erase (p, m) = _
    rw [hlive2]
    exact htook.erase hsound1
  -- the pages that are given back are those of this call
  have hmapped := hs.sound.mapped_eq hsound3 hblocks
  obtain ⟨c', hshrink, hend3⟩ : ∃ c', h3.paging =
      Paging.shrinkDown c' (h₂.withPmm pmm).paging (h₂.withPmm pmm).heapMappedEnd ∧
        h3.heapMappedEnd + c' * 4096 = (h₂.withPmm pmm).heapMappedEnd := by
    obtain ⟨ds, hinv2⟩ := hsound2'
    obtain ⟨es, hinv3⟩ := hsound3
    exact Heap.kfree_paging hinv2 hinv3 hkfree
  obtain rfl : c' = c := by
    rw [hmapped, hend2, hend] at hend3
    omega
  rw [hsame, hend2, hend] at hshrink
  have hkeeps : t.heap.KeepsBlocks h3 := by
    intro u hu
    obtain ⟨hu2, -, hbytes⟩ := hkeep u hu
    refine ⟨hblocks ▸ hu, fun x h1 h2 => ?_⟩
    exact (hsound2'.kfree_bytes hmem hkfree hu2 h1 h2).trans (hbytes x h1 h2)
  rcases hgrow with hg | ⟨rfl, heq, hw⟩
  · obtain ⟨hgave, hmode⟩ := (hg.withPmm hpmm hfree).shrinkDown hlo hhi halign
    rw [← hshrink] at hgave hmode
    refine ⟨hs.withHeap hsound3 hkeeps ?_ hgave.kept (hmapped ▸ hmode), hblocks, ?_⟩
    · exact hgave.currentPd.trans hg.currentPd
    · exact hfree ▸ hgave.free
  · rw [Paging.shrinkDown, heq] at hshrink
    rw [heq] at hfree
    refine ⟨hs.withHeap hsound3 hkeeps ?_ ?_ (.inr ?_), hblocks, ?_⟩
    · rw [hshrink]
    · rw [hshrink]
      exact hs.kept.withPmm hpmm hs.kept.dir (hfree ▸ hs.kept.used)
    · rw [hmapped, hshrink]
      exact hw.withPmm hfree.subset
    · rw [hshrink, heq]
      exact hfree.symm.subset

/-- **The region is entered** once all frames are there. -/
theorem Guarded.enter (hs : t.Guarded) {p : ℕ} {h2 : Heap D} {region : ShmRegion}
    (hwant : want ≤ heapSize) (hmalloc : t.heap.kmalloc want = .ok (h1, p)) (hsound1 : h1.Sound)
    (htook : t.heap.Took h1 p m) (hm : 4 * n ≤ m) (hn : 0 < n)
    (htake : h1.takeFrames p n 0 = (h2, none)) (hk : k < shmMaxRegions)
    (hfree : (t.shmTable k).used = false) (hused : region.used = true)
    (hlist : region.physStart = p) (hpages : region.pages = n) (next : ℕ) :
    Guarded ⟨h2, Function.update t.shmTable k region, next⟩ := by
  obtain ⟨c, hend, hlo, halign, hhi, hgrow⟩ := hs.kmalloc_grew hwant hsound1 hmalloc
  have hkept1 : h1.paging.Kept t.usedFrames := by
    rcases hgrow with hg | ⟨-, heq, -⟩
    · exact hg.kept
    · exact heq ▸ hs.kept
  have hcur1 : h1.paging.currentPd = t.heap.paging.currentPd := by
    rcases hgrow with hg | ⟨-, heq, -⟩
    · exact hg.currentPd
    · rw [heq]
  obtain ⟨fs, htaken⟩ := Heap.takeFrames_taken n 0 hkept1.pmm
  rw [htake] at htaken
  have hlen : fs.length = n := by
    rcases htaken.result with ⟨-, hlen⟩ | ⟨hsome, -⟩
    · exact hlen
    · cases hsome
  obtain ⟨hsound2, hlive2, hkeep⟩ := keeps_list hs.sound hwant hmalloc hsound1 htook hm htaken
  have hsame := htaken.same
  have hpmm2 := htaken.pmm
  have hwords := htaken.words
  have hfree2 := htaken.free
  dsimp only at hsame hsound2 hlive2 hkeep hpmm2 hwords hfree2
  have hpaging : h2.paging = { h1.paging with pmm := h2.paging.pmm } := by
    rw [hsame]
    rfl
  have hend2 : h2.heapMappedEnd = h1.heapMappedEnd := by
    rw [hsame]
    rfl
  have hself : update t.shmTable k region k = region := update_self ..
  have hframes : frames ⟨h2, update t.shmTable k region, next⟩ k = fs := by
    rw [frames]
    dsimp only
    rw [hself, hlist, hpages, ← hlen]
    exact hwords
  refine hs.addRegion hk hfree (by dsimp only; rw [hself]; exact hused)
    (fun i hi => update_of_ne hi _ _) hsound2
    (fun u hu => ⟨(hkeep u hu).1, (hkeep u hu).2.2⟩) ⟨m, ?_, ?_⟩ ?_ ?_ ?_ ?_ ?_
  · dsimp only
    rw [hself, hpages]
    exact hm
  · dsimp only
    rw [hself, hlist, hlive2]
    exact htook.mem
  · rw [hframes]
    exact htaken.nodup
  · rw [hframes]
    exact fun f hf hU => hkept1.used f hU (htaken.fresh f hf)
  · rw [hpaging]
    exact hcur1
  · rw [hframes]
    rw [hpaging]
    refine hkept1.withPmm hpmm2 (mem_union_left _ hkept1.dir) fun f hf hmem => ?_
    obtain ⟨hfree1, hnot⟩ := (hfree2 f).mp hmem
    rcases mem_union.mp hf with hU | hnew
    · exact hkept1.used f hU hfree1
    · exact hnot (mem_toFinset.mp hnew)
  · rw [hend2, hend, hpaging]
    rcases hgrow with hg | ⟨rfl, heq, hw⟩
    · rcases hg.mode with ho | hsp
      · exact .inl (ho.withPmm _)
      · -- no frame was left for the region
        cases fs with
        | nil =>
          rw [length_nil] at hlen
          omega
        | cons f fs =>
          have hf := htaken.fresh f mem_cons_self
          rw [hsp.free] at hf
          exact absurd hf (notMem_empty f)
    · rw [heq, zero_mul, add_zero]
      refine .inr (hw.withPmm fun f hf => ?_)
      exact heq ▸ ((hfree2 f).mp hf).1

/-- **A new region**, or none: then all is as before. -/
theorem Guarded.createRegion (hs : t.Guarded) (hk : k < shmMaxRegions)
    (hfree : (t.shmTable k).used = false) (h : t.createRegion k key size = .ok (s, r)) :
    s.Guarded ∧ (r = shmError ∧ t.Undone s size ∨ r = t.nextShmId ∧ 0 < pagesNeeded size ∧
      ∃ p, s.shmTable = Function.update t.shmTable k
        ⟨t.nextShmId, key, p, size, pagesNeeded size, 0, 0, true⟩) := by
  have hlayout := heap_layout
  have hwant : pagesNeeded size * 4 ≤ heapSize := by
    have hsmall : u32 (size + 4095) < 4294967296 := Nat.mod_lt _ (by decide)
    rw [pagesNeeded]
    omega
  obtain ⟨h1, p, hmalloc, hcase⟩ := ShmKernel.createRegion_cases h
  rcases hs.sound.kmalloc hwant hmalloc with ⟨rfl, rfl⟩ | ⟨hp, hsound1, m, hm, htook⟩
  · -- no memory for the list
    obtain ⟨-, rfl, rfl⟩ := hcase.resolve_right fun hne => hne.1 rfl
    exact ⟨hs, .inl ⟨rfl, rfl, rfl, rfl, .inl rfl⟩⟩
  obtain ⟨-, h2, hcase⟩ := hcase.resolve_left fun h0 => hp h0.1
  rcases hcase with ⟨i, h3, htake, hkfree, rfl, rfl⟩ | ⟨htake, rfl, rfl⟩
  · obtain ⟨hguard, hblocks, hfrees⟩ :=
      hs.rollback hwant hmalloc hsound1 htook (by omega) htake hkfree
    exact ⟨hguard, .inl ⟨rfl, rfl, rfl, hblocks, .inr ⟨h1, p, h2, i, hmalloc, htake, hfrees⟩⟩⟩
  · have hpos : 0 < pagesNeeded size := by
      -- no block is given out for an empty list
      refine Nat.pos_of_ne_zero fun hzero => hp ?_
      rw [hzero, zero_mul, Heap.kmalloc, if_pos rfl] at hmalloc
      exact (ok_pair hmalloc).2.symm
    exact ⟨hs.enter hwant hmalloc hsound1 htook (by omega) hpos htake hk hfree rfl rfl rfl _,
      .inr ⟨rfl, hpos, p, rfl⟩⟩

theorem createRegion_ok (t : Shm D) (k key size : ℕ) {p : ℕ}
    (hmalloc : t.heap.kmalloc (pagesNeeded size * 4) = .ok (h1, p)) (hp : p ≠ 0)
    (hpmm : h1.paging.pmm.Inv) (hcard : pagesNeeded size ≤ h1.paging.pmm.freeSet.card) :
    ∃ h2 fs, h1.FramesTaken (h2, none) p (pagesNeeded size) 0 fs ∧
      t.createRegion k key size = .ok (⟨h2, Function.update t.shmTable k
        ⟨t.nextShmId, key, p, size, pagesNeeded size, 0, 0, true⟩, u32 (t.nextShmId + 1)⟩,
          t.nextShmId) := by
  have hsmall : u32 (size + 4095) < 4294967296 := Nat.mod_lt _ (by decide)
  obtain ⟨fs, htaken⟩ := Heap.takeFrames_taken (pagesNeeded size) 0 hpmm
  rcases htake : h1.takeFrames p (pagesNeeded size) 0 with ⟨h2, out⟩
  rw [htake] at htaken
  obtain rfl : out = none := by
    rcases htaken.result with ⟨hnone, -⟩ | ⟨-, hlen, hempty⟩
    · exact hnone
    -- the loop stops early only when it has taken every frame
    have hsub : h1.paging.pmm.freeSet ⊆ fs.toFinset := by
      intro f hf
      by_contra hno
      have hmem := (htaken.free f).mpr ⟨hf, fun hin => hno (mem_toFinset.mpr hin)⟩
      rw [hempty] at hmem
      exact notMem_empty f hmem
    have hle := (card_le_card hsub).trans (toFinset_card_le fs)
    omega
  refine ⟨h2, fs, htaken, ?_⟩
  rw [createRegion, u32_of_lt (show u32 (size + 4095) / 4096 * 4 < 4294967296 by omega)]
  simp only [hmalloc, if_neg hp, htake]

/-- **`shm_get`**: the regions there are stay, and the call fails without a trace or names a
region with the key. -/
theorem Guarded.shmGet (hs : t.Guarded) (ht : t.TableOk)
    (h : t.shmGet key size flags = .ok (s, r)) :
    s.Guarded ∧ (∀ i ∈ t.usedSlots, i ∈ s.usedSlots ∧ s.shmTable i = t.shmTable i) ∧
      (r = shmError ∧ t.Undone s size ∨
        r ≠ shmError ∧ ∃ k ∈ s.usedSlots, (s.shmTable k).key = key ∧ (s.shmTable k).id = r) ∧
      ∀ i ∈ s.usedSlots, i ∉ t.usedSlots → 0 < pagesNeeded size ∧ (s.shmTable i).size = size ∧
        (s.shmTable i).pages = pagesNeeded size := by
  have hnext := ht.next_le
  have herror : shmError = 4294967295 := rfl
  have hself : t.Undone t size := ⟨rfl, rfl, rfl, .inl rfl⟩
  have hsame : (∀ i ∈ t.usedSlots, i ∈ t.usedSlots ∧ t.shmTable i = t.shmTable i) ∧
      ∀ i ∈ t.usedSlots, i ∉ t.usedSlots → 0 < pagesNeeded size ∧ (t.shmTable i).size = size ∧
        (t.shmTable i).pages = pagesNeeded size :=
    ⟨fun i hi => ⟨hi, rfl⟩, fun i hi hno => absurd hi hno⟩
  rcases ShmKernel.shmGet_cases h with ⟨k, hfind, rfl, hr⟩ | ⟨hnone, ⟨rfl, rfl⟩ | ⟨k, hfind, hnew⟩⟩
  · -- the key has a region
    obtain ⟨hk, hkey⟩ := of_findRegionByKey hfind
    have hid := (ht.id_lt k hk).2
    refine ⟨hs, hsame.1, ?_, hsame.2⟩
    split_ifs at hr with hexcl
    · exact .inl ⟨hr, hself⟩
    · exact .inr ⟨by omega, k, hk, hkey, hr.symm⟩
  · exact ⟨hs, hsame.1, .inl ⟨rfl, hself⟩, hsame.2⟩
  obtain ⟨hk, hfree⟩ := ShmKernel.findRegion_some hfind
  rw [Bool.not_eq_true'] at hfree
  have hout : k ∉ t.usedSlots := by
    rw [mem_usedSlots, hfree]
    simp
  obtain ⟨hguard, ⟨rfl, hundone⟩ | ⟨rfl, hpos, p, htable⟩⟩ := hs.createRegion hk hfree hnew
  · have hslots : s.usedSlots = t.usedSlots := by rw [usedSlots, usedSlots, hundone.table]
    rw [hslots, hundone.table]
    exact ⟨hguard, hsame.1, .inl ⟨rfl, hundone⟩, hsame.2⟩
  · have hnew : s.shmTable k = ⟨t.nextShmId, key, p, size, pagesNeeded size, 0, 0, true⟩ := by
      rw [htable, update_self]
    have hother : ∀ i, i ≠ k → s.shmTable i = t.shmTable i := fun i hi => by
      rw [htable, update_of_ne hi]
    have hmem : k ∈ s.usedSlots := mem_usedSlots.mpr ⟨hk, by rw [hnew]⟩
    refine ⟨hguard, fun i hi => ?_, .inr ⟨by omega, k, hmem, by rw [hnew], by rw [hnew]⟩,
      fun i hi hno => ?_⟩
    · have heq := hother i (ne_of_mem_of_not_mem hi hout)
      rw [mem_usedSlots, heq]
      exact ⟨mem_usedSlots.mp hi, rfl⟩
    · obtain rfl : i = k := by
        by_contra hne
        rw [mem_usedSlots, hother i hne] at hi
        exact hno (mem_usedSlots.mpr hi)
      rw [hnew]
      exact ⟨hpos, rfl, rfl⟩

/-! ## Every run of `shm_get` -/

omit [Disk D]

/-- Keys, ids and frames tell the regions apart, and every region has room for its size. -/
structure Consistent (t : Shm D) : Prop where
  keys : ∀ i ∈ t.usedSlots, ∀ j ∈ t.usedSlots, i ≠ j → (t.shmTable i).key ≠ (t.shmTable j).key
  ids : ∀ i ∈ t.usedSlots, ∀ j ∈ t.usedSlots, i ≠ j → (t.shmTable i).id ≠ (t.shmTable j).id
  frames : ∀ i ∈ t.usedSlots, ∀ j ∈ t.usedSlots, i ≠ j → (t.frames i).Disjoint (t.frames j)
  sizes : ∀ i ∈ t.usedSlots, (t.shmTable i).size ≤ (t.shmTable i).pages * 4096

theorem frames_disjoint (hnodup : t.listed.Nodup) {j : ℕ} (hi : i ∈ t.usedSlots)
    (hj : j ∈ t.usedSlots) (hne : i ≠ j) : (t.frames i).Disjoint (t.frames j) := by
  obtain ⟨hi, hui⟩ := mem_usedSlots.mp hi
  obtain ⟨hj, huj⟩ := mem_usedSlots.mp hj
  rw [listed, nodup_flatMap] at hnodup
  have hsymm : Std.Symm (onFun List.Disjoint t.frames) := ⟨fun _ _ h => h.symm⟩
  refine hnodup.2.forall ?_ ?_ hne
  · simp [hi, hui]
  · simp [hj, huj]

/-- What holds between the calls. -/
structure GetInv (t : Shm D) : Prop where
  guarded : t.Guarded
  table : t.TableOk
  sizes : ∀ i ∈ t.usedSlots, (t.shmTable i).size ≤ (t.shmTable i).pages * 4096

theorem GetInv.consistent (hs : t.GetInv) : t.Consistent :=
  ⟨fun i hi j hj hne heq => hne (hs.table.key_inj i hi j hj heq),
    fun i hi j hj hne heq => hne (hs.table.id_inj i hi j hj heq),
    fun _ hi _ hj hne => frames_disjoint hs.guarded.nodup hi hj hne, hs.sizes⟩

variable [Disk D]

theorem GetInv.shmGet (hs : t.GetInv) (hsize : size < 4294967296)
    (h : t.shmGet key size flags = .ok (s, r)) : s.GetInv := by
  obtain ⟨hguard, hkept, -, hnew⟩ := hs.guarded.shmGet hs.table h
  refine ⟨hguard, hs.table.shmGet h, fun i hi => ?_⟩
  by_cases hold : i ∈ t.usedSlots
  · rw [(hkept i hold).2]
    exact hs.sizes i hold
  · obtain ⟨hpos, hsz, hpages⟩ := hnew i hi hold
    rw [hsz, hpages]
    -- a sum that wraps around leaves no page
    simp only [pagesNeeded, u32] at hpos ⊢
    omega

end Shm

namespace ShmKernel

/-- Only `shm_get` is called; the size is a `uint32_t`. -/
def OnlyGets (_ : ShmKernel D) (c : ShmOp) : Prop :=
  ∃ key size flags, c = .get key size flags ∧ size < 4294967296

variable [Disk D] {s a b : ShmKernel D}

theorem OnlyGets.step {c : ShmOp} (hc : a.OnlyGets c) (h : a.exec c = .ok b) :
    ∃ key size flags r, size < 4294967296 ∧ a.shmGet key size flags = .ok (b.toShm, r) := by
  obtain ⟨key, size, flags, rfl, hsize⟩ := hc
  obtain ⟨⟨t, r⟩, hget, rfl⟩ := map_ok h
  exact ⟨key, size, flags, r, hsize, hget⟩

theorem getInv_start {syms : Paging.LinkerSymbols} (hstart : ShmStart syms a) : a.toShm.GetInv := by
  obtain ⟨own, hs⟩ := hstart.inv
  obtain ⟨hk, table⟩ := hstart
  rename_i k
  have hlisted : Shm.listed (Shm.shmInit ⟨k.heap, table, 1⟩) = [] := by
    simp [Shm.listed, Shm.shmInit]
  have hend : k.heap.heapMappedEnd = heapStart := by
    cases hk
    rfl
  have hdir : own (k.heap.paging.currentPd / 4096) = .directory := hs.pages.dir_own _ hs.current
  have htables := Shm.tableOk_shmInit k.heap table
  refine ⟨⟨hs.inv.sound, ?_, .inl ?_, hlisted ▸ nodup_nil, by simp [Shm.shmInit]⟩, htables, ?_⟩
  · rw [Shm.usedFrames, hlisted]
    refine ⟨hs.pages.pmm, hs.inv.hand, hs.pages.dir_aligned _ hs.current, mem_insert_self _ _,
      fun f hf hfree => ?_⟩
    rw [toFinset_nil, mem_insert] at hf
    obtain rfl := hf.resolve_right (notMem_empty f)
    have hrole := (hs.pages.free_iff _).mpr hfree
    exact Role.noConfusion (hrole.symm.trans hdir)
  · refine ⟨fun i hi hp => (hs.pages.toTableInv.table_ne_dir hs.current hi hp hs.current).symm,
      fun v hv hlt => ?_⟩
    have hlt : v < k.heap.heapMappedEnd := hlt
    omega
  · simp [Shm.usedSlots, Shm.shmInit]

theorem getInv_run (hs : a.toShm.GetInv) (hrun : ShmRun OnlyGets a b) :
    b.toShm.GetInv ∧ ∀ i ∈ a.toShm.usedSlots,
      i ∈ b.toShm.usedSlots ∧ b.shmTable i = a.shmTable i := by
  induction hrun with
  | start => exact ⟨hs, fun i hi => ⟨hi, rfl⟩⟩
  | @step b b' c _ _ hc h ih =>
    obtain ⟨hb, hkept⟩ := ih
    obtain ⟨key, size, flags, r, hsize, hget⟩ := OnlyGets.step hc h
    obtain ⟨-, hkept', -⟩ := hb.guarded.shmGet hb.table hget
    refine ⟨hb.shmGet hsize hget, fun i hi => ?_⟩
    obtain ⟨hi1, heq1⟩ := hkept i hi
    obtain ⟨hi2, heq2⟩ := hkept' i hi1
    exact ⟨hi2, heq2.trans heq1⟩

end ShmKernel

/-! ## Two regions on a wide machine -/

section Wide

variable [Disk D] {n : ℕ}

/-- The blocks for the frame lists of two regions, the second of one page: both lists are in the
first page of the heap. -/
theorem exists_two_lists {h : Heap D} (hn : 0 < n ∧ n ≤ 257) (hinv : h.Inv [])
    (hfree : ∃ s, h.paging.growPage heapStart = .ok s) :
    ∃ h1, h.kmalloc (n * 4) = .ok (h1, heapStart + 16) ∧
      h.paging.growPage heapStart = .ok h1.paging ∧
      h1.Inv [⟨n * 4, false⟩] ∧ (heapStart + 16, n * 4) ∈ h1.liveBlocks ∧
      ∀ h2 : Heap D, h2.Inv [⟨n * 4, false⟩] → ∃ h3 p, h2.kmalloc 4 = .ok (h3, p) ∧ p ≠ 0 ∧
        h3.paging = h2.paging := by
  have hlayout := heap_layout
  obtain ⟨s, hgrow⟩ := hfree
  have hcurr := hinv.curr
  have hmapped := hinv.mapped
  rw [hcurr] at hmapped
  obtain ⟨h1, hrun, rfl⟩ := Heap.kmalloc_first hinv.head hcurr (hmapped.trans (by decide)) hgrow
    (show 0 < n * 4 by omega) (by omega)
  refine ⟨h1, hrun, hgrow, ?_⟩
  have hround : (n * 4 + 3) / 4 * 4 = n * 4 := by omega
  have hspan0 : span [] = 0 := rfl
  rcases hinv.kmalloc_of_room (show 0 < n * 4 by omega) (by omega)
      (by simp [Heap.NoFit, Chunk.Serves]) (by omega) with
    ⟨h', hrun', hinv', -⟩ | ⟨-, herr | herr⟩
  · obtain ⟨rfl, -⟩ := ok_pair (hrun.symm.trans hrun')
    rw [hround] at hinv'
    refine ⟨hinv', ?_, fun h2 hinv2 => ?_⟩
    · rw [hinv'.liveBlocks_eq]
      exact mem_cons_self
    -- the second block is in the same page
    have hcurr2 := hinv2.curr
    have hmapped2 := hinv2.mapped
    have hspan : span [⟨n * 4, false⟩] = n * 4 + 16 := by simp [span, Nat.add_comm]
    rcases hinv2.kmalloc_of_room (show 0 < 4 by decide) (by decide)
        (by simp [Heap.NoFit, Chunk.Serves]) (by omega) with
      ⟨h3, hrun3, hinv3, -⟩ | ⟨hfar, -⟩
    · refine ⟨h3, _, hrun3, by omega, ?_⟩
      obtain ⟨m, hgrow3, hend3, -⟩ := Heap.kmalloc_paging hinv2 (by decide) hrun3
      have hcurr3 := hinv3.curr
      have hmapped3 := hinv3.mapped
      have hspan3 : span ([⟨n * 4, false⟩] ++ [⟨(4 + 3) / 4 * 4, false⟩]) = n * 4 + 36 := by
        simp [span]
        omega
      obtain rfl : m = 0 := by omega
      exact (Except.ok.inj hgrow3).symm
    · omega
  · cases herr.symm.trans hrun
  · cases herr.symm.trans hrun

/-- Two calls of `shm_get`, for `n` pages and for one. -/
theorem exists_wide_regions (disk : D) (hn : 0 < n ∧ n ≤ 257) :
    ∃ s a : ShmKernel D, ShmStart Paging.smallImage s ∧
      ShmRun (fun b c => b.Safe c ∧ b.OnlyGets c) s a ∧
      a.findRegionById 1 = some 0 ∧ (a.shmTable 0).pages = n ∧
      a.findRegionById 2 = some 1 ∧ (a.shmTable 1).pages = 1 ∧
      300 ≤ a.paging.pmm.freeSet.card := by
  have hsz : ShmKernel.pagesNeeded (n * 4096) = n := by
    rw [ShmKernel.pagesNeeded, u32_of_lt (by omega)]
    omega
  have hsz' : ShmKernel.pagesNeeded 4096 = 1 := by decide
  obtain ⟨k, hk, hcard⟩ := exists_wide_kernel disk fun _ => false
  obtain ⟨own, hs⟩ := hk.inv
  have hinv : k.heap.Inv [] := by
    cases hk
    exact Heap.inv_heapInit _
  obtain ⟨hready, hgrows⟩ := hs.pages.toTableInv.growPage_ok hs.current
    (show pdIndex heapStart < 1023 by decide) (by omega)
  obtain ⟨h1, hmalloc, hgrow, hinv1, hlive, hsecond⟩ := exists_two_lists hn hinv hgrows
  obtain ⟨own1, f, hgrown, -⟩ := hs.pages.growPage hs.current (by decide) hready hgrow
  have hcard1 := hgrown.card hs.pages.toTableInv
  have hpmm1 := hgrown.inv.pmm
  -- the first region
  obtain ⟨h2, fs, htaken, hcreate⟩ := Shm.createRegion_ok
    ⟨k.heap, fun _ => ⟨0, 0, 0, 0, 0, 0, 0, false⟩, 1⟩ 0 1 (n * 4096)
    (by rw [hsz]; exact hmalloc) (by decide) hpmm1 (by omega)
  have hcard2 := htaken.card_le
  rw [hsz] at htaken hcard2 hcreate
  have hinv2 : h2.Inv [⟨n * 4, false⟩] := by
    have hwritten := hinv1.write (.inr ⟨_, hlive, le_rfl, le_rfl⟩) fun x hx =>
      htaken.bytes x (by omega)
    have hsame := htaken.same
    dsimp only at hsame
    rw [hsame]
    exact ⟨hwritten.head, hwritten.chain, hwritten.curr, hwritten.sizes, hwritten.settled,
      hwritten.fits, hwritten.mapped⟩
  -- the second region
  obtain ⟨h3, p2, hmalloc2, hp2, hpaging2⟩ := hsecond h2 hinv2
  have hpmm2 : h2.paging.pmm.Inv := htaken.pmm
  have hcard3 : 7000 ≤ h3.paging.pmm.freeSet.card := by
    rw [hpaging2]
    dsimp only at hcard2
    omega
  obtain ⟨h4, gs, htaken2, hcreate2⟩ := Shm.createRegion_ok
    ⟨h2, Function.update (fun _ => ⟨0, 0, 0, 0, 0, 0, 0, false⟩) 0
      ⟨1, 1, heapStart + 16, (n * 4096), n, 0, 0, true⟩, 2⟩ 1 2 4096
    (by rw [hsz']; exact hmalloc2) hp2 (by rw [hpaging2]; exact hpmm2) (by omega)
  have hcard4 := htaken2.card_le
  rw [hsz'] at htaken2 hcard4 hcreate2
  dsimp only at hcard2 hcard4
  have hget : ShmKernel.exec ⟨⟨k.heap, fun _ => ⟨0, 0, 0, 0, 0, 0, 0, false⟩, 1⟩, k.boot, k.dirs⟩
      (.get 1 (n * 4096) 1) =
      .ok ⟨⟨h2, Function.update (fun _ => ⟨0, 0, 0, 0, 0, 0, 0, false⟩) 0
        ⟨1, 1, heapStart + 16, (n * 4096), n, 0, 0, true⟩, 2⟩, k.boot, k.dirs⟩ :=
    congrArg (Except.map _) hcreate
  have hget2 : ShmKernel.exec ⟨⟨h2, Function.update (fun _ => ⟨0, 0, 0, 0, 0, 0, 0, false⟩) 0
        ⟨1, 1, heapStart + 16, (n * 4096), n, 0, 0, true⟩, 2⟩, k.boot, k.dirs⟩ (.get 2 4096 1) =
      .ok ⟨⟨h4, Function.update (Function.update (fun _ => ⟨0, 0, 0, 0, 0, 0, 0, false⟩) 0
        ⟨1, 1, heapStart + 16, (n * 4096), n, 0, 0, true⟩) 1
          ⟨2, 2, p2, 4096, 1, 0, 0, true⟩, 3⟩, k.boot, k.dirs⟩ :=
    congrArg (Except.map _) hcreate2
  -- there are frames for the tables of the heap
  have hplenty : ∀ (p : Paging D) n, p.pmm.Inv → n ≤ 100 → 7000 ≤ p.pmm.freeSet.card →
      p.Supply n := by
    intro p n hpmm hn hfree
    have hmissing : p.missingTables.card ≤ 4 := card_filter_le _ _
    refine .inr (.inr ?_)
    rw [hpmm.count]
    omega
  have hsup : k.paging.Supply (ShmKernel.pagesNeeded (n * 4096) * 4 / 4096 + 2) :=
    hplenty k.paging _ hs.pages.pmm (by rw [hsz]; omega) (le_trans (by decide) hcard)
  have hsup2 : h2.paging.Supply (ShmKernel.pagesNeeded 4096 * 4 / 4096 + 2) :=
    hplenty h2.paging _ hpmm2 (by decide) (hpaging2 ▸ hcard3)
  have hrun : ShmRun (fun b c => b.Safe c ∧ b.OnlyGets c)
      ⟨Shm.shmInit ⟨k.heap, fun _ => ⟨0, 0, 0, 0, 0, 0, 0, false⟩, 1⟩, k.boot, k.dirs⟩ _ :=
    (ShmRun.start.step (c := .get 1 (n * 4096) 1) trivial
      ⟨fun _ => hsup, _, _, _, rfl, by omega⟩ hget).step
      (c := .get 2 4096 1) trivial ⟨fun _ => hsup2, _, _, _, rfl, by decide⟩ hget2
  refine ⟨_, _, .mk hk fun _ => ⟨0, 0, 0, 0, 0, 0, 0, false⟩, hrun, rfl, rfl, rfl, rfl, ?_⟩
  change 300 ≤ h4.paging.pmm.freeSet.card
  omega

end Wide

/-- **`shm_get` is atomic**: keys, ids and frames tell the regions apart; a call that returns `-1`
leaves no trace, and one that returned an id determines what later calls with the key return. -/
theorem shm_get_atomic {syms : Paging.LinkerSymbols} [Disk D] {s a : ShmKernel D}
    (hstart : ShmStart syms s) (hrun : ShmRun ShmKernel.OnlyGets s a) : a.toShm.Consistent ∧
      (∀ key size flags t, a.shmGet key size flags = .ok (t, shmError) → a.toShm.Undone t size) ∧
      ∀ key size flags t r, size < 4294967296 → a.shmGet key size flags = .ok (t, r) →
        r ≠ shmError → ∀ b, ShmRun ShmKernel.OnlyGets { a with toShm := t } b →
          ∀ size' flags', hasFlag flags' shmExcl = false →
            b.shmGet key size' flags' = .ok (b.toShm, r) := by
  obtain ⟨ha, -⟩ := ShmKernel.getInv_run (ShmKernel.getInv_start hstart) hrun
  refine ⟨ha.consistent, fun key size flags t hget => ?_,
    fun key size flags t r hsize hget hr b hlater size' flags' hflags => ?_⟩
  · obtain ⟨-, -, ⟨-, hundone⟩ | ⟨hne, -⟩, -⟩ := ha.guarded.shmGet ha.table hget
    · exact hundone
    · exact absurd rfl hne
  · obtain ⟨-, -, ⟨heq, -⟩ | ⟨-, k, hk, hkey, hid⟩, -⟩ := ha.guarded.shmGet ha.table hget
    · exact absurd heq hr
    -- the region is still there
    obtain ⟨hb, hkept⟩ := ShmKernel.getInv_run
      (ha.shmGet hsize hget) hlater
    obtain ⟨hk', hsame⟩ := hkept k hk
    have hfind : b.toShm.findRegionByKey key = some k :=
      hb.table.findRegionByKey hk' (by rw [hsame]; exact hkey)
    rw [Shm.shmGet, hfind]
    dsimp only
    rw [hflags, Bool.and_false, if_neg (by decide), hsame, hid]

/-- Two regions of one page. -/
theorem shm_get_atomic_two : ∃ s a : ShmKernel DiskImage,
    ShmStart Paging.smallImage s ∧ ShmRun ShmKernel.OnlyGets s a ∧ a.findRegionById 1 = some 0 ∧
      a.findRegionById 2 = some 1 ∧ a.toShm.Consistent := by
  obtain ⟨s, a, hstart, hrun, hfind, -, hfind2, -⟩ :=
    exists_wide_regions (D := DiskImage) (n := 1) (fun _ _ _ => 0) (by decide)
  have hgets := hrun.mono fun _ _ hc => hc.2
  exact ⟨s, a, hstart, hgets, hfind, hfind2, (shm_get_atomic hstart hgets).1⟩

end PenOS
