import PenOS.Ahci
import PenOS.HeapCount
import PenOS.Lib.Fold

/-!
# What a connection does to the heap

`ahci_port_rebase` makes 34 allocations and writes to what it got: a property of the heap that
survives both holds at the end (`AllocRule.rebase`).
-/

namespace PenOS

open Block

variable {D : Type} {h h' : Heap D} {cs : List Chunk}
variable {a align b i j k len m p want : ℕ}

/-! ## Allocations -/

/-- No request of `n` bytes can be served. -/
def Heap.Full (h : Heap D) (n : ℕ) : Prop :=
  h.NoBlockFor n ∧ heapEnd < h.heapCurr + n + blockOverhead

theorem Heap.Inv.full_iff (hinv : h.Inv cs) {n : ℕ} : h.Full n ↔
    (∀ d ∈ cs, ¬ d.Serves n) ∧ heapEnd < heapStart + span cs + n + blockOverhead := by
  rw [Heap.Full, hinv.noBlockFor_iff, hinv.curr]

theorem Heap.Full.mono {n : ℕ} (hfull : h.Full n) (hle : n ≤ m) : h.Full m :=
  ⟨fun bs hbs b hb hserves => hfull.1 bs hbs b hb ⟨hserves.1, hle.trans hserves.2⟩,
    lt_of_lt_of_le hfull.2 (by omega)⟩

theorem Heap.newBlocks_of_eq (heq : h'.liveBlocks = h.liveBlocks) : h.newBlocks h' = [] := by
  rw [Heap.newBlocks, List.filter_eq_nil_iff, heq]
  intro u hu
  simp only [hu, not_true_eq_false, decide_false, Bool.false_eq_true, not_false_eq_true]

/-- What is new makes up the difference. -/
theorem Heap.newBlocks_length (hs : h.Sound) (hs' : h'.Sound)
    (hsub : ∀ u ∈ h.liveBlocks, u ∈ h'.liveBlocks) :
    (h.newBlocks h').length + h.liveBlocks.length = h'.liveBlocks.length := by
  have hold : (h'.liveBlocks.filter fun u => u ∈ h.liveBlocks).Perm h.liveBlocks := by
    rw [List.perm_ext_iff_of_nodup (hs'.live_nodup.filter _) hs.live_nodup]
    intro u
    rw [List.mem_filter, decide_eq_true_iff]
    exact ⟨And.right, fun hu => ⟨hsub u hu, hu⟩⟩
  rw [← hold.length_eq, Heap.newBlocks, Nat.add_comm]
  have hsplit := List.length_eq_length_filter_add (l := h'.liveBlocks)
    (fun u => decide (u ∈ h.liveBlocks))
  simp only [decide_not]
  exact hsplit.symm

variable [Disk D]

theorem Heap.Inv.kmalloc_null_iff_full {n : ℕ} (hinv : h.Inv cs) (hn : 0 < n) (hfour : n % 4 = 0)
    (hsize : n ≤ heapSize) : h.kmalloc n = .ok (h, 0) ↔ h.Full n := by
  have hlayout := heap_layout
  have hcurr := hinv.curr
  have hfits := hinv.fits
  have halign : alignUp n 4 = n := by
    rw [alignUp_four (by omega)]
    omega
  rw [hinv.kmalloc_null_iff (by omega), halign, u32_of_lt (by omega), Heap.Full]
  exact ⟨fun hnull => hnull.2.resolve_left hn.ne', fun hfull => ⟨rfl, .inr hfull⟩⟩

theorem Heap.kmallocAligned_heap (hsize : want + align + blockOverhead ≤ heapSize)
    (hrun : h.kmalloc (want + align + blockOverhead) = .ok (h', p)) :
    ∃ q, h.kmallocAligned want align = .ok (h', q) := by
  have hlayout := heap_layout
  rw [Heap.kmallocAligned, u32_of_lt (by omega), hrun]
  dsimp only
  split
  · exact ⟨_, rfl⟩
  · exact ⟨_, rfl⟩

/-- **`kmalloc_aligned`** puts a block that holds what is returned into the list, or changes
nothing. -/
theorem Heap.Sound.kmallocAligned (hs : h.Sound)
    (hrun : h.kmallocAligned want align = .ok (h', p)) (halign : align = 2 ^ j)
    (hsize : want + align + blockOverhead ≤ heapSize) : h'.Sound ∧ h'.Owned p want ∧
      (h' = h ∧ h.kmalloc (want + align + blockOverhead) = .ok (h, 0) ∨ ∃ q k, h.Took h' q k) := by
  subst halign
  have hlayout := heap_layout
  have hpow := Nat.two_pow_pos j
  have hj : j ≤ 32 := by
    by_contra hc
    have := Nat.pow_le_pow_right (show 0 < 2 by decide) (show 33 ≤ j by omega)
    omega
  rw [Heap.kmallocAligned, u32_of_lt (by omega)] at hrun
  rcases hm : h.kmalloc (want + 2 ^ j + blockOverhead) with e | ⟨h1, q⟩
  · rw [hm] at hrun
    cases hrun
  rw [hm] at hrun
  dsimp only at hrun
  rcases hs.kmalloc hsize hm with ⟨rfl, rfl⟩ | ⟨hq, hs1, k, hk, htook⟩
  · rw [if_pos rfl] at hrun
    cases hrun
    exact ⟨hs, .inl (by omega), .inl ⟨rfl, rfl⟩⟩
  · rw [if_neg hq] at hrun
    cases hrun
    have hmapped := hs1.live_mapped htook.mem
    obtain ⟨-, hle, hlt, -⟩ := alignUp_facts (q := q) (a := j) (by omega) hj
    exact ⟨hs1, .inr ⟨(q, k), htook.mem, hle, by dsimp only; omega⟩, .inr ⟨q, k, htook⟩⟩

/-- A property of the heap that is carried through the allocations of a connection; `n` counts
them. -/
structure AllocRule (E : Prop) (Q : ℕ → Heap D → Prop) : Prop where
  sound : ∀ n h, Q n h → h.Sound
  write : ∀ n (h : Heap D) a len (m : RecMem), Q n h → h.Owned a len →
    (∀ x, x < a ∨ a + len ≤ x → m.bytes x = h.window.bytes x) → Q n { h with window := m }
  first : ∀ h : Heap D, Q 0 h → Ends E (h.kmallocAligned 1024 1024) fun out => Q 1 out.1
  next : ∀ n (h : Heap D), 0 < n → n < 34 → Q n h →
    Ends E (h.kmallocAligned 256 256) fun out => Q (n + 1) out.1

namespace AllocRule

variable {E : Prop} {Q : ℕ → Heap D → Prop} {n : ℕ}

theorem write_owned (hrule : AllocRule E Q) (hq : Q n h) (ho : h.Owned a len)
    {m : RecMem} (hm : ∀ x, x < a ∨ a + len ≤ x → m.bytes x = h.window.bytes x)
    (hb : h.Owned b k) : Q n { h with window := m } ∧ Heap.Owned { h with window := m } b k := by
  refine ⟨hrule.write n h a len m hq ho hm, ?_⟩
  rw [Heap.Owned, ((hrule.sound n h hq).write ho hm).2]
  exact hb

/-- An allocation, with what it returns. -/
theorem alloc {size : ℕ} (hrule : AllocRule E Q) (hq : Q n h) (hb : h.Owned b k)
    (hrun : Ends E (h.kmallocAligned size align) fun out => Q (n + 1) out.1)
    (halign : align = 2 ^ j) (hsize : size + align + blockOverhead ≤ heapSize) :
    Ends E (h.kmallocAligned size align) fun out =>
      Q (n + 1) out.1 ∧ out.1.Owned out.2 size ∧ out.1.Owned b k := by
  refine hrun.mono fun out hout hq' => ?_
  obtain ⟨h1, p⟩ := out
  obtain ⟨-, hown, hcase⟩ := (hrule.sound n h hq).kmallocAligned hout halign hsize
  refine ⟨hq', hown, ?_⟩
  rcases hcase with ⟨rfl, -⟩ | ⟨q, k', htook⟩
  · exact hb
  · rcases hb with hlow | ⟨u, hu, hle⟩
    · exact .inl hlow
    · exact .inr ⟨u, htook.subset u hu, hle⟩

theorem memset (hrule : AllocRule E Q) (hq : Q n h) (ho : h.Owned a len)
    (hb : h.Owned b k) : Q n (h.memset a len) ∧ (h.memset a len).Owned b k :=
  hrule.write_owned hq ho (fun _ hx => Mem.fill_of_not_mem hx) hb

theorem rebaseTable (hrule : AllocRule E Q) {s : Heap D × (ℕ → ℕ)} {cmdList : ℕ} (hn : 0 < n)
    (hlt : n < 34) (hi : i < 32) (hq : Q n s.1) (ho : s.1.Owned cmdList 1024) :
    Ends E (Ahci.rebaseTable cmdList s i) fun out =>
      Q (n + 1) out.1 ∧ out.1.Owned cmdList 1024 := by
  rw [Ahci.rebaseTable]
  -- the header is inside the command list
  have hlength : s.1.Owned (cmdList + 32 * i + 2) 2 := ho.mono (by omega) (by omega)
  obtain ⟨hq1, ho1⟩ := hrule.write_owned hq hlength
    (m := s.1.window.paste (cmdList + 32 * i + 2) 2 (Mem.byteOf 8))
    (fun x hx => Mem.paste_of_not_mem hx) ho
  have halloc := hrule.alloc hq1 ho1 (hrule.next n _ hn hlt hq1) (j := 8) rfl (by decide)
  generalize ({ s.1 with window := _ } : Heap D) = h1 at halloc ⊢
  rcases hm : h1.kmallocAligned 256 256 with e | ⟨h2, table⟩
  · rw [hm] at halloc
    exact halloc
  · obtain ⟨hq2, htable, ho2⟩ := halloc.of_ok hm
    have hheader : h2.Owned (cmdList + 32 * i + 8) 8 := ho2.mono (by omega) (by omega)
    have hstores : ∀ v x, x < cmdList + 32 * i + 8 ∨ cmdList + 32 * i + 8 + 8 ≤ x →
        ((h2.window.store32 (cmdList + 32 * i + 8) v).store32 (cmdList + 32 * i + 12) 0).bytes x =
          h2.window.bytes x := fun v x hx =>
      (Mem.store32_of_not_mem (by omega)).trans (Mem.store32_of_not_mem (by omega))
    obtain ⟨hq3, ho3⟩ := hrule.write_owned hq2 hheader (hstores _) ho2
    obtain ⟨-, htable3⟩ := hrule.write_owned hq2 hheader (hstores _) htable
    exact hrule.memset hq3 htable3 ho3

/-- **A connection**: the property holds after its 34 allocations. -/
theorem rebase (hrule : AllocRule E Q) {a : Ahci D} (hq : Q 0 a.heap) :
    Ends E (a.ahciPortRebase i) fun a' => Q 34 a'.heap := by
  rw [Ahci.ahciPortRebase]
  have hlist := hrule.alloc hq (b := 0) (k := 0) (.inl (Nat.zero_le _)) (hrule.first _ hq)
    (j := 10) rfl (by decide)
  rcases hm : a.heap.kmallocAligned 1024 1024 with e | ⟨h1, cmdList⟩
  · rw [hm] at hlist
    exact hlist
  obtain ⟨hq1, ho1, -⟩ := hlist.of_ok hm
  obtain ⟨hq2, ho2⟩ := hrule.memset hq1 ho1 ho1
  have hfis := hrule.alloc hq2 ho2 (hrule.next 1 _ Nat.one_pos (by decide) hq2)
    (j := 8) rfl (by decide)
  rcases hm : (h1.memset cmdList 1024).kmallocAligned 256 256 with e | ⟨h3, fis⟩
  · dsimp only at hfis ⊢
    rw [hm] at hfis ⊢
    exact hfis
  obtain ⟨hq3, hown, ho3⟩ := hfis.of_ok hm
  -- `k` command tables have been allocated
  have hloop := foldlM_range_ends (n := 32) (E := E)
    (P := fun k s => Q (2 + k) s.1 ∧ s.1.Owned cmdList 1024)
    (b := (h3.memset fis 256, (a.portVirt i).ctba)) (hrule.memset hq3 hown ho3)
    fun k hk s hs => hrule.rebaseTable (by omega) (by omega) hk hs.1 hs.2
  dsimp only
  rw [hm]
  dsimp only
  rcases hm : (List.range 32).foldlM (Ahci.rebaseTable cmdList)
      (h3.memset fis 256, (a.portVirt i).ctba) with e | s
  · rw [hm] at hloop
    exact hloop
  · exact (hloop.of_ok hm).1

end AllocRule

/-! ## What a connection does to the live blocks -/

/-- No block is released. -/
theorem AllocRule.grows (l : List (ℕ × ℕ)) : AllocRule True fun (_ : ℕ) (h : Heap D) =>
    h.Sound ∧ ∀ u ∈ l, u ∈ h.liveBlocks := by
  have halloc : ∀ (h : Heap D) (want align j : ℕ), (h.Sound ∧ ∀ u ∈ l, u ∈ h.liveBlocks) →
      align = 2 ^ j → want + align + blockOverhead ≤ heapSize →
      Ends True (h.kmallocAligned want align) fun out =>
        out.1.Sound ∧ ∀ u ∈ l, u ∈ out.1.liveBlocks := by
    intro h want align j hq halign hsize
    refine Ends.of_forall fun out hrun => ?_
    obtain ⟨hs, -, hcase⟩ := hq.1.kmallocAligned hrun halign hsize
    refine ⟨hs, fun u hu => ?_⟩
    rcases hcase with ⟨hsame, -⟩ | ⟨q, k, htook⟩
    · rw [hsame]
      exact hq.2 u hu
    · exact htook.subset u (hq.2 u hu)
  refine ⟨fun _ _ hq => hq.1, fun _ h a len m hq ho hm => ?_,
    fun h hq => halloc h 1024 1024 10 hq rfl (by decide),
    fun _ h _ _ hq => halloc h 256 256 8 hq rfl (by decide)⟩
  obtain ⟨hs, hlive⟩ := hq.1.write ho hm
  rw [hlive]
  exact ⟨hs, hq.2⟩

/-- In a full heap nothing is allocated. -/
theorem AllocRule.full (hno : ∀ d ∈ cs, ¬ d.Serves 528)
    (hend : heapEnd < heapStart + span cs + 528 + blockOverhead) :
    AllocRule False fun (_ : ℕ) (h : Heap D) => h.Inv cs := by
  have halloc : ∀ (h : Heap D) (want align : ℕ), h.Inv cs →
      want + align + blockOverhead ≤ heapSize → 528 ≤ want + align + blockOverhead →
      (want + align + blockOverhead) % 4 = 0 →
      Ends False (h.kmallocAligned want align) fun out => out.1.Inv cs := by
    intro h want align hinv hsize hle hfour
    have hfull := (hinv.full_iff.mpr ⟨hno, hend⟩).mono hle
    obtain ⟨q, hrun⟩ := Heap.kmallocAligned_heap hsize
      ((hinv.kmalloc_null_iff_full (by omega) hfour hsize).mpr hfull)
    rw [hrun]
    exact hinv
  exact ⟨fun _ _ hinv => ⟨cs, hinv⟩, fun _ h a len m hinv ho hm => hinv.write ho hm,
    fun h hinv => halloc h 1024 1024 hinv (by decide) (by decide) rfl,
    fun _ h _ _ hinv => halloc h 256 256 hinv (by decide) (by decide) rfl⟩

theorem AllocRule.more (hinv : h.Inv cs) (hfull : ¬ h.Full 528) :
    AllocRule True fun n (h1 : Heap D) => n ≤ 1 ∧ h1.Inv cs ∨
      0 < n ∧ h1.Sound ∧ h.liveBlocks.length < h1.liveBlocks.length := by
  have hgrown : ∀ (h1 : Heap D) (want align j : ℕ), h1.Sound → align = 2 ^ j →
      want + align + blockOverhead ≤ heapSize →
      Ends True (h1.kmallocAligned want align) fun out => out.1.Sound ∧
        (out.1 = h1 ∧ h1.kmalloc (want + align + blockOverhead) = .ok (h1, 0) ∨
          h1.liveBlocks.length < out.1.liveBlocks.length) := by
    intro h1 want align j hs halign hsize
    refine Ends.of_forall fun out hrun => ?_
    obtain ⟨hs', -, hcase⟩ := hs.kmallocAligned hrun halign hsize
    refine ⟨hs', hcase.imp_right ?_⟩
    rintro ⟨q, k, htook⟩
    rw [htook.length_eq]
    omega
  have hlength : ∀ {h1 : Heap D}, h1.Inv cs → h1.liveBlocks.length = h.liveBlocks.length :=
    fun hinv1 => by rw [hinv1.liveBlocks_eq, hinv.liveBlocks_eq]
  constructor
  · rintro n h1 (⟨-, hinv1⟩ | ⟨-, hs, -⟩)
    · exact ⟨cs, hinv1⟩
    · exact hs
  · rintro n h1 a len m (⟨hn, hinv1⟩ | ⟨hn, hs, hlt⟩) ho hm
    · exact .inl ⟨hn, hinv1.write ho hm⟩
    · obtain ⟨hs', hlive⟩ := hs.write ho hm
      rw [hlive]
      exact .inr ⟨hn, hs', hlt⟩
  · rintro h1 (⟨-, hinv1⟩ | ⟨hn, -⟩)
    · refine (hgrown h1 1024 1024 10 ⟨cs, hinv1⟩ rfl (by decide)).mono fun out _ hout => ?_
      rcases hout with ⟨hs, ⟨hsame, -⟩ | hlt⟩
      · rw [hsame]
        exact .inl ⟨le_rfl, hinv1⟩
      · exact .inr ⟨Nat.one_pos, hs, hlength hinv1 ▸ hlt⟩
    · exact absurd hn (lt_irrefl 0)
  · rintro n h1 hn - hq
    have hs : h1.Sound := hq.elim (fun hq => ⟨cs, hq.2⟩) fun hq => hq.2.1
    refine (hgrown h1 256 256 8 hs rfl (by decide)).mono fun out _ hout => .inr ⟨n.succ_pos, ?_⟩
    rcases hq with ⟨-, hinv1⟩ | ⟨-, -, hlt⟩
    · rcases hout with ⟨hs', ⟨-, hnull⟩ | hlt⟩
      · have hfull1 := (hinv1.kmalloc_null_iff_full (by decide) rfl (by decide)).mp hnull
        exact absurd (hinv.full_iff.mpr (hinv1.full_iff.mp hfull1)) hfull
      · exact ⟨hs', hlength hinv1 ▸ hlt⟩
    · rcases hout with ⟨hs', ⟨hsame, -⟩ | hlt'⟩
      · exact ⟨hs', hsame ▸ hlt⟩
      · exact ⟨hs', hlt.trans hlt'⟩

/-! ## A heap with room -/

/-- The first free block has at least `n` bytes. -/
def Heap.Roomy (h : Heap D) (n : ℕ) : Prop :=
  ∃ xs c ys, h.Inv (xs ++ c :: ys) ∧ (∀ d ∈ xs, d.free = false) ∧ c.free = true ∧ n ≤ c.size

theorem Heap.Roomy.kmalloc {n w : ℕ} (hroom : h.Roomy n) (hw : 0 < w) (hfour : w % 4 = 0)
    (hn : w + 49 ≤ n) (hsize : w ≤ heapSize) :
    ∃ h' p k, h.kmalloc w = .ok (h', p) ∧ h.Took h' p k ∧ h'.Roomy (n - w - 16) := by
  obtain ⟨xs, c, ys, hinv, hxs, hc, hle⟩ := hroom
  have hround : (w + 3) / 4 * 4 = w := by omega
  obtain ⟨h', ds, k, hrun, hinv', -, hused, -, hds⟩ := hinv.kmalloc_of_fit hw hsize
    (fun d hd hserves => absurd ((hxs d hd).symm.trans hserves.1) (by decide))
    ⟨hc, by omega⟩
  rw [hround, carve, if_neg (by dsimp only; omega)] at hds
  refine ⟨h', _, k, hrun, ⟨usedAt heapStart xs, usedAt (heapStart + span xs + 16 + c.size) ys,
    ?_, ?_⟩, xs ++ [{ size := w, free := false }], ⟨c.size - w - 16, true⟩, ys, ?_, ?_, rfl, ?_⟩
  · rw [hinv.liveBlocks_eq, usedAt_append, usedAt_cons_free _ _ hc]
  · rw [hinv'.liveBlocks_eq, hused]
  · rw [hds] at hinv'
    simpa using hinv'
  · intro d hd
    rcases List.mem_append.mp hd with hd | hd
    · exact hxs d hd
    · rw [List.mem_singleton.mp hd]
  · dsimp only
    omega

omit [Disk D] in
theorem Heap.Roomy.mono {n : ℕ} (hroom : h.Roomy n) (hle : m ≤ n) : h.Roomy m := by
  obtain ⟨xs, c, ys, hinv, hxs, hc, hn⟩ := hroom
  exact ⟨xs, c, ys, hinv, hxs, hc, hle.trans hn⟩

omit [Disk D] in
/-- A free block at the start of the heap. -/
theorem Heap.Sound.roomy {n : ℕ} (hs : h.Sound) (hhead : h.heapHead ≠ 0)
    (hfree : free h.window heapStart ≠ 0) (hn : n ≤ size h.window heapStart) : h.Roomy n := by
  obtain ⟨cs, hinv⟩ := hs
  have hchain := hinv.chain
  cases cs with
  | nil => exact absurd hinv.head hhead
  | cons c cs =>
    refine ⟨[], c, cs, hinv, by simp, hchain.1.blockFree.mp hfree, ?_⟩
    rw [← hchain.1.blockSize]
    exact hn

theorem AllocRule.roomy (r l : ℕ) : AllocRule False fun n (h : Heap D) =>
    h.Roomy (r + 49 + 544 * (34 - n) + 1536 * (1 - n)) ∧ h.liveBlocks.length = l + n := by
  have halloc : ∀ (h : Heap D) (want align n m k : ℕ), h.Roomy n ∧ h.liveBlocks.length = k →
      (want + align + 16) % 4 = 0 → want + align + 16 ≤ heapSize →
      m + (want + align + 32) ≤ n → 49 ≤ m →
      Ends False (h.kmallocAligned want align) fun out =>
        out.1.Roomy m ∧ out.1.liveBlocks.length = k + 1 := by
    rintro h want align n m k ⟨hroom, hlen⟩ hfour hsize hn hm
    obtain ⟨h', p, b, hrun, htook, hroom'⟩ := hroom.kmalloc (by omega) hfour (by omega) hsize
    obtain ⟨q, hrun'⟩ := Heap.kmallocAligned_heap hsize hrun
    rw [hrun']
    exact ⟨hroom'.mono (by omega), hlen ▸ htook.length_eq⟩
  constructor
  · rintro n h ⟨⟨xs, c, ys, hinv, -⟩, -⟩
    exact ⟨_, hinv⟩
  · rintro n h a len m ⟨⟨xs, c, ys, hinv, hrest⟩, hlen⟩ ho hm
    rw [(Heap.Sound.write ⟨_, hinv⟩ ho hm).2]
    exact ⟨⟨xs, c, ys, hinv.write ho hm, hrest⟩, hlen⟩
  · exact fun h hq => halloc h 1024 1024 _ _ _ hq rfl (by decide) (by omega) (by omega)
  · exact fun n h hn hlt hq => halloc h 256 256 _ _ _ hq rfl (by decide) (by omega) (by omega)

end PenOS
