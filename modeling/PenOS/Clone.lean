import PenOS.SwapPages

/-!
# Cloning an address space

The kernel half is shared, the user half copied page by page. A frame for each directory, table and
page of the copy comes from `alloc_frame_zero`, which takes a free one or evicts a page of the
loaded directory. What the copy needs of it is a *stock of frames* (`FrameStock`): so many frames
more can be had, and having them changes neither the frames of the source nor those already in the
copy. Then only frames just taken are written, and each has one place in the copy (`CopyInv`),
whether they were free from the start (`freeStock`) or not.
-/

namespace PenOS

open Function List

variable {T i j n p src t : ℕ}

namespace Paging

variable {D : Type} [Disk D]

/-! ## The source's loops -/

/-- One round over a table: a present page is copied to a new frame. -/
def clonePage (srcPt newPt : ℕ) (s : Paging D) (j : ℕ) : Except Halt (Paging D) :=
  if hasFlag (s.entry srcPt j) pagePresent then
    match s.allocFrameZero with
    | .error h => .error h
    | .ok (s, newPage) =>
      -- the word is read again: taking the frame may have swapped the page out
      let srcPage := frameOf (s.entry srcPt j)
      let s := { s with mem := s.mem.paste newPage 4096 (s.pageAt srcPage) }
      .ok (s.setEntry newPt j (newPage ||| (s.entry srcPt j &&& 0xFFF)))
  else .ok s

/-- One round over the directory: kernel entries are shared, user tables copied. -/
def cloneEntry (srcPd newPd : ℕ) (s : Paging D) (i : ℕ) : Except Halt (Paging D) :=
  if i ≥ 768 then .ok (s.setEntry newPd i (s.entry srcPd i))
  else if hasFlag (s.entry srcPd i) pagePresent then
    let srcPt := frameOf (s.entry srcPd i)
    match s.allocFrameZero with
    | .error h => .error h
    | .ok (s, newPt) =>
      match (List.range 1024).foldlM (clonePage srcPt newPt) s with
      | .error h => .error h
      | .ok s => .ok (s.setEntry newPd i (newPt ||| (s.entry srcPd i &&& 0xFFF)))
  else .ok s

/-- `paging_clone_directory` -/
def pagingCloneDirectory (s : Paging D) (srcPd : ℕ) : Except Halt (Paging D × ℕ) :=
  match s.allocFrameZero with
  | .error h => .error h
  | .ok (s, newPd) =>
    match (List.range 1024).foldlM (cloneEntry srcPd newPd) s with
    | .error h => .error h
    | .ok s => .ok (s.setRecursive newPd, newPd)

/-! ## Frames of the copy -/

end Paging

/-- What a frame of the copy holds. -/
inductive Place : Type where
  | directory : Place
  | table (i : ℕ) : Place
  | page (i j : ℕ) : Place

namespace Paging

variable {D : Type} {s₀ s₁ s s' : Paging D} {own own' own₁ : ℕ → Option Place}

/-! ## Copied words and entries -/

/-- Word `j` of the table at `T` has been copied to the table in frame `t`, that of directory entry
`i`. -/
structure WordCopied (s₀ s : Paging D) (own : ℕ → Option Place) (T t i j : ℕ) : Prop where
  absent : s₀.entry T j % 2 ≠ 1 → s.entry (t * 4096) j = 0
  page : s₀.entry T j % 2 = 1 → ∃ g, own g = some (.page i j) ∧
    s.entry (t * 4096) j = g * 4096 + s₀.entry T j % 4096 ∧
    ∀ k < 4096, s.mem (g * 4096 + k) = s₀.mem (s₀.entry T j / 4096 * 4096 + k)

theorem WordCopied.mono (h : WordCopied s₀ s own T t i j)
    (hown : ∀ g, own g ≠ none → own' g = own g) (hpage : ∀ g, own g = some (.page i j) → ∀ k < 4096,
      s'.mem (g * 4096 + k) = s.mem (g * 4096 + k))
    (hentry : s'.entry (t * 4096) j = s.entry (t * 4096) j) : WordCopied s₀ s' own' T t i j where
  absent hp := hentry.trans (h.absent hp)
  page hp := by
    obtain ⟨g, hg, hword, hbytes⟩ := h.page hp
    refine ⟨g, ?_, hentry.trans hword, fun k hk => (hpage g hg k hk).trans (hbytes k hk)⟩
    rw [hown g (by rw [hg]; exact Option.some_ne_none _), hg]

/-- The pages among the first `m` words of a table. -/
def pageCount (s : Paging D) (table m : ℕ) : ℕ :=
  ((List.range m).filter fun j => hasFlag (s.entry table j) pagePresent).length

theorem pageCount_zero (s : Paging D) (table : ℕ) : s.pageCount table 0 = 0 := rfl

theorem pageCount_succ (s : Paging D) (table m : ℕ) : s.pageCount table (m + 1) =
      s.pageCount table m + if s.entry table m % 2 = 1 then 1 else 0 := by
  simp only [pageCount, range_succ, filter_append, length_append, hasFlag_present]
  split_ifs with h <;> simp [h]

theorem pageCount_mono (s : Paging D) (table : ℕ) : Monotone (s.pageCount table) :=
  monotone_nat_of_le_succ fun m => by
    rw [pageCount_succ]
    exact Nat.le_add_right _ _

theorem length_tableFrames (s : Paging D) (table : ℕ) :
    (s.tableFrames table).length = s.pageCount table 1024 := length_map _

/-- Entry `i` of the directory at `src` has been copied to the directory in frame `p`. -/
structure EntryCopied (s₀ s : Paging D) (own : ℕ → Option Place) (src p i : ℕ) : Prop where
  absent : s₀.entry src i % 2 ≠ 1 → s.entry (p * 4096) i = 0
  table : s₀.entry src i % 2 = 1 → ∃ t, own t = some (.table i) ∧
    s.entry (p * 4096) i = t * 4096 + s₀.entry src i % 4096 ∧
    ∀ j < 1024, WordCopied s₀ s own (s₀.entry src i / 4096 * 4096) t i j

theorem EntryCopied.mono (h : EntryCopied s₀ s own src p i)
    (hdir : own p = some .directory) (hown : ∀ g, own g ≠ none → own' g = own g)
    (hmem : ∀ x, own (x / 4096) ≠ none → x / 4096 ≠ p → s'.mem x = s.mem x)
    (hentry : s'.entry (p * 4096) i = s.entry (p * 4096) i) : EntryCopied s₀ s' own' src p i where
  absent hp := hentry.trans (h.absent hp)
  table hp := by
    obtain ⟨t, ht, hword, hwords⟩ := h.table hp
    -- the frames below the directory are not the directory
    have hframe : ∀ {g : ℕ} {r : Place}, own g = some r → r ≠ .directory → ∀ k < 4096,
        s'.mem (g * 4096 + k) = s.mem (g * 4096 + k) := by
      intro g r hg hr k hk
      have hgk : (g * 4096 + k) / 4096 = g := by omega
      refine hmem _ (by rw [hgk, hg]; exact Option.some_ne_none _) ?_
      rw [hgk]
      rintro rfl
      exact hr (Option.some.inj (hg.symm.trans hdir))
    refine ⟨t, ?_, hentry.trans hword, fun j hj => (hwords j hj).mono hown
      (fun g hg => hframe hg Place.noConfusion) (Mem.load32_congr fun x h1 h2 => ?_)⟩
    · rw [hown t (by rw [ht]; exact Option.some_ne_none _), ht]
    · have hx := hframe ht Place.noConfusion (x - t * 4096) (by omega)
      rwa [show t * 4096 + (x - t * 4096) = x by omega] at hx

/-- The frames below the first `n` entries of a directory. -/
def frameCount (s : Paging D) (src n : ℕ) : ℕ :=
  (((List.range n).filter fun i => hasFlag (s.entry src i) pagePresent).flatMap fun i =>
    s.tableFrames (frameOf (s.entry src i)) ++ [frameOf (s.entry src i)]).length

theorem frameCount_zero (s : Paging D) (src : ℕ) : s.frameCount src 0 = 0 := rfl

theorem frameCount_succ (s : Paging D) (src n : ℕ) : s.frameCount src (n + 1) = s.frameCount src n +
      if s.entry src n % 2 = 1 then s.pageCount (s.entry src n / 4096 * 4096) 1024 + 1 else 0 := by
  simp only [frameCount, range_succ, filter_append, flatMap_append,
    length_append, hasFlag_present]
  split_ifs with h <;> simp [h, length_tableFrames, frameOf_entry]

theorem frameCount_mono (s : Paging D) (src : ℕ) : Monotone (s.frameCount src) :=
  monotone_nat_of_le_succ fun n => by
    rw [frameCount_succ]
    exact Nat.le_add_right _ _

theorem length_spaceFrames (s : Paging D) (src : ℕ) :
    (s.spaceFrames src).length = s.frameCount src 768 + 1 := length_append

/-- A directory at `src` that may be copied: its frames are in use. -/
structure CloneSource (s : Paging D) (src : ℕ) : Prop where
  pmm : s.pmm.Inv
  aligned : src % 4096 = 0
  taken : ∀ a ∈ s.spaceFrames src, a / 4096 ∉ s.pmm.freeSet

/-! ## A stock of frames

`alloc_frame_zero` is asked once for the directory, once for each table and once for each present
page. The loops below do not depend on how it finds a frame; they are proved for any stock, and the
number of frames it still has to give goes down with every round. -/

/-- A frame `f` for the copy, which has the frames of `own`: it is empty, and neither a frame of the
copy nor one of the frames `kept` has changed. -/
structure FrameTaken (kept : ℕ → Prop) (s s' : Paging D) (own : ℕ → Option Place) (f : ℕ) :
    Prop where
  new : own f = none
  apart : ¬ kept f ∧ f < 1048576
  bytes : ∀ x, kept (x / 4096) ∨ own (x / 4096) ≠ none → s'.mem x = s.mem x
  zero : ∀ i < 1024, s'.entry (f * 4096) i = 0

/-- Where the frames of a copy come from: `has own n s` says that `n` more can be had in `s`, and
the frames `kept` are never among them. -/
structure FrameStock (D : Type) [Disk D] where
  kept : ℕ → Prop
  has : (ℕ → Option Place) → ℕ → Paging D → Prop
  alloc {own : ℕ → Option Place} {n : ℕ} {s : Paging D} (h : has own (n + 1) s) (p : Place) :
    ∃ s' f, s.allocFrameZero = .ok (s', f * 4096) ∧ FrameTaken kept s s' own f ∧
      has (update own f (some p)) n s'
  write {own : ℕ → Option Place} {n : ℕ} {s : Paging D} (h : has own n s) {m : Mem}
    (hm : ∀ x, own (x / 4096) = none → m x = s.mem x) : has own n { s with mem := m }

/-- The free frames of `s₀`. -/
def freeStock [Disk D] (s₀ : Paging D) : FrameStock D where
  kept g := g ∉ s₀.pmm.freeSet
  has own n s := s.pmm.Inv ∧ n ≤ s.pmm.freeSet.card ∧ s.pmm.freeSet ⊆ s₀.pmm.freeSet ∧
    ∀ g ∈ s.pmm.freeSet, own g = none
  alloc {own n s} h p := by
    obtain ⟨hinv, hcard, hsub, hown⟩ := h
    have hne : s.pmm.freeSet.Nonempty := Finset.card_pos.mp (by omega)
    have hmem := Finset.min'_mem _ hne
    set f := s.pmm.freeSet.min' hne with hf
    have htake : (s.pmm.takeFrame f).1.freeSet = s.pmm.freeSet.erase f := Pmm.freeSet_takeFrame _ _
    have hlt := (Pmm.mem_freeSet.mp hmem).2.1
    have htotal := hinv.total_le
    refine ⟨_, f, allocFrameZero_of_free hinv hne, ⟨hown f hmem, ⟨not_not.mpr (hsub hmem),
      by omega⟩, fun x hx => Mem.fill_of_not_mem ?_, fun i hi => entry_zeroFrame_self _ _ hi⟩,
      hinv.takeFrame hmem fun g hg => Finset.min'_le _ _ hg, ?_⟩
    · have hxf : x / 4096 ≠ f := by
        intro hxf
        rw [hxf] at hx
        exact hx.elim (fun h => h (hsub hmem)) fun h => h (hown f hmem)
      omega
    · change n ≤ (s.pmm.takeFrame f).1.freeSet.card ∧ (s.pmm.takeFrame f).1.freeSet ⊆ _ ∧
        ∀ g ∈ (s.pmm.takeFrame f).1.freeSet, _
      rw [htake, Finset.card_erase_of_mem hmem]
      refine ⟨by omega, (Finset.erase_subset _ _).trans hsub, fun g hg => ?_⟩
      rw [update_of_ne (Finset.ne_of_mem_erase hg)]
      exact hown g (Finset.mem_of_mem_erase hg)
  write {_ _ _} h {_} _ := h

variable [Disk D] {S : FrameStock D}

/-- While the copy is made: `n` frames more can be had, those of the copy have one place each, and
the frames `S.kept` are as they were in `s₀`. -/
structure CopyInv (S : FrameStock D) (n : ℕ) (s₀ s : Paging D) (own : ℕ → Option Place) : Prop where
  room : S.has own n s
  apart : ∀ g, own g ≠ none → ¬ S.kept g ∧ g < 1048576
  kept : ∀ x, S.kept (x / 4096) → s.mem x = s₀.mem x

theorem CopyInv.start (hs : S.has (fun _ => none) n s) : CopyInv S n s s fun _ => none where
  room := hs
  apart _ hg := absurd rfl hg
  kept _ _ := rfl

/-- Words of the frames that are kept are as they were. -/
theorem CopyInv.entry_eq (h : CopyInv S n s₀ s own) {b : ℕ} (hb : b % 4096 = 0)
    (hkept : S.kept (b / 4096)) (hi : i < 1024) : s.entry b i = s₀.entry b i :=
  Mem.load32_congr fun x h1 h2 => h.kept x (by rwa [show x / 4096 = b / 4096 by omega])

/-- Writing to frames of the copy. -/
theorem CopyInv.write (h : CopyInv S n s₀ s own) {m : Mem}
    (hm : ∀ x, own (x / 4096) = none → m x = s.mem x) : CopyInv S n s₀ { s with mem := m } own where
  room := S.write h.room hm
  apart := h.apart
  kept x hx := by
    refine (hm x ?_).trans (h.kept x hx)
    by_contra hown
    exact (h.apart _ hown).1 hx

theorem CopyInv.setEntry (h : CopyInv S n s₀ s own) (ht : own t ≠ none) (hj : j < 1024)
    (v : ℕ) : CopyInv S n s₀ (s.setEntry (t * 4096) j v) own := by
  refine h.write fun x hx => Mem.store32_of_not_mem ?_
  by_contra hin
  rw [show x / 4096 = t by omega] at hx
  exact ht hx

/-- Taking a frame for the place `p`. -/
theorem CopyInv.alloc (h : CopyInv S (n + 1) s₀ s own) (p : Place) :
    ∃ s' f, s.allocFrameZero = .ok (s', f * 4096) ∧ own f = none ∧
      CopyInv S n s₀ s' (Function.update own f (some p)) ∧
      (∀ x, own (x / 4096) ≠ none → s'.mem x = s.mem x) ∧
      ∀ i < 1024, s'.entry (f * 4096) i = 0 := by
  obtain ⟨s', f, halloc, hf, hroom⟩ := S.alloc h.room p
  refine ⟨s', f, halloc, hf.new, ⟨hroom, fun g hg => ?_, fun x hx => ?_⟩,
    fun x hx => hf.bytes x (.inr hx), hf.zero⟩
  · by_cases hgf : g = f
    · exact hgf ▸ hf.apart
    · rw [update_of_ne hgf] at hg
      exact h.apart g hg
  · exact (hf.bytes x (.inl hx)).trans (h.kept x hx)

/-! ## Copying a table -/

/-- After `m` rounds over the table at `T`, from the state `s₁` on; `n` frames are left over for
what follows. -/
structure TableCopy (S : FrameStock D) (n : ℕ) (s₀ s₁ s : Paging D) (own₁ own : ℕ → Option Place)
    (T t i m : ℕ) : Prop extends
    CopyInv S (n + (s₀.pageCount T 1024 - s₀.pageCount T m)) s₀ s own where
  grow : ∀ g, own₁ g ≠ none → own g = own₁ g
  other : ∀ x, own₁ (x / 4096) ≠ none → x / 4096 ≠ t → s.mem x = s₁.mem x
  done : ∀ j < m, WordCopied s₀ s own T t i j
  rest : ∀ j, m ≤ j → j < 1024 → s.entry (t * 4096) j = 0

/-- The table at `T` and its pages are kept. -/
structure TableKept (S : FrameStock D) (s : Paging D) (T : ℕ) : Prop where
  aligned : T % 4096 = 0
  table : S.kept (T / 4096)
  page : ∀ j < 1024, s.entry T j % 2 = 1 → S.kept (s.entry T j / 4096)

theorem TableCopy.step {m : ℕ} (h : TableCopy S n s₀ s₁ s own₁ own T t i m)
    (hT : TableKept S s₀ T) (ht : own₁ t = some (.table i)) (hm : m < 1024) :
    ∃ s', clonePage T (t * 4096) s m = .ok s' ∧
      ∃ own', TableCopy S n s₀ s₁ s' own₁ own' T t i (m + 1) := by
  have hword : s.entry T m = s₀.entry T m := h.entry_eq hT.aligned hT.table hm
  have hcount := s₀.pageCount_succ T m
  have htable : own t = some (.table i) := by
    rw [h.grow t (by rw [ht]; exact Option.some_ne_none _), ht]
  simp only [clonePage, hasFlag_present, hword, decide_eq_true_eq]
  by_cases hp : s₀.entry T m % 2 = 1
  · rw [if_pos hp] at hcount ⊢
    have hle := s₀.pageCount_mono T (show m + 1 ≤ 1024 from hm)
    have hinv := h.toCopyInv
    rw [show n + (s₀.pageCount T 1024 - s₀.pageCount T m) =
      n + (s₀.pageCount T 1024 - s₀.pageCount T (m + 1)) + 1 by omega] at hinv
    obtain ⟨a, f, halloc, hnew, ha, hmem, -⟩ := hinv.alloc (.page i m)
    have htf : t ≠ f := by
      rintro rfl
      rw [hnew] at htable
      cases htable
    have hownf : update own f (some (.page i m)) f ≠ none := by
      rw [update_self]
      exact Option.some_ne_none _
    have hlt := (ha.apart f hownf).2
    have hgrow : ∀ g, own g ≠ none → update own f (some (.page i m)) g = own g :=
      fun g hg => update_of_ne (fun hgf => hg (by rw [hgf, hnew])) _ _
    have hread : a.entry T m = s₀.entry T m := ha.entry_eq hT.aligned hT.table hm
    rw [halloc]
    simp only [hread]
    -- the page is pasted into the new frame
    set b : Paging D := { a with
      mem := a.mem.paste (f * 4096) 4096 (a.pageAt (frameOf (s₀.entry T m))) } with hb
    have hbinv : CopyInv S (n + (s₀.pageCount T 1024 - s₀.pageCount T (m + 1))) s₀ b
        (update own f (some (.page i m))) := by
      refine ha.write fun x hx => Mem.paste_of_not_mem ?_
      by_contra hin
      rw [show x / 4096 = f by omega] at hx
      exact hownf hx
    have hne : ∀ g, own g ≠ none → g ≠ f := fun g hg hgf => hg (by rw [hgf, hnew])
    have hbmem : ∀ x, own (x / 4096) ≠ none → b.mem x = s.mem x := fun x hx =>
      (Mem.paste_of_not_mem (by have := hne _ hx; omega)).trans (hmem x hx)
    have hbpage : ∀ k < 4096, b.mem (f * 4096 + k) =
        s₀.mem (s₀.entry T m / 4096 * 4096 + k) := by
      intro k hk
      refine (Mem.paste_of_mem (by omega) (by omega)).trans ?_
      rw [pageAt, frameOf_entry, Nat.add_sub_cancel_left]
      refine ha.kept _ ?_
      rw [show (s₀.entry T m / 4096 * 4096 + k) / 4096 = s₀.entry T m / 4096 by omega]
      exact hT.page m hm hp
    have hbread : b.entry T m = s₀.entry T m := hbinv.entry_eq hT.aligned hT.table hm
    -- and its word written to the new table
    have hflag : f * 4096 ||| (b.entry T m &&& 0xFFF) = f * 4096 + s₀.entry T m % 4096 := by
      rw [hbread, and_offsetMask, or_offset _ (Nat.mod_lt _ (by decide))]
    rw [hflag]
    set v := f * 4096 + s₀.entry T m % 4096 with hv
    have htown : update own f (some (.page i m)) t ≠ none := by
      rw [hgrow t (by rw [htable]; exact Option.some_ne_none _), htable]
      exact Option.some_ne_none _
    have hcmem : ∀ x, x / 4096 ≠ t → (b.setEntry (t * 4096) m v).mem x = b.mem x := fun x hx =>
      Mem.store32_of_not_mem (by omega)
    have hcword : (b.setEntry (t * 4096) m v).entry (t * 4096) m = v := by
      rw [entry_setEntry_self]
      exact u32_of_lt (by omega)
    have hcwords : ∀ j < 1024, j ≠ m →
        (b.setEntry (t * 4096) m v).entry (t * 4096) j = s.entry (t * 4096) j := by
      intro j hj hjm
      rw [entry_setEntry_of_ne _ _ (by omega) (by omega) hm hj (.inr hjm)]
      exact Mem.load32_congr fun x h1 h2 => hbmem x (by
        rw [show x / 4096 = t by omega, htable]
        exact Option.some_ne_none _)
    refine ⟨_, rfl, _, ⟨hbinv.setEntry htown hm v, fun g hg => ?_, fun x hx hxt => ?_,
      fun j hj => ?_, fun j hj hj' => ?_⟩⟩
    · have hown := h.grow g hg
      rw [hgrow g (by rw [hown]; exact hg), hown]
    · rw [hcmem x hxt, hbmem x (by rw [h.grow _ hx]; exact hx)]
      exact h.other x hx hxt
    · rcases Nat.lt_succ_iff_lt_or_eq.mp hj with hj | rfl
      · refine (h.done j hj).mono hgrow (fun g hg k hk => ?_) (hcwords j (by omega) (by omega))
        have hgt : g ≠ t := by
          rintro rfl
          rw [htable] at hg
          cases hg
        have hgk : (g * 4096 + k) / 4096 = g := by omega
        rw [hcmem _ (by omega), hbmem _ (by rw [hgk, hg]; exact Option.some_ne_none _)]
      · refine ⟨fun hn => absurd hp hn, fun _ => ⟨f, update_self .., hcword, ?_⟩⟩
        intro k hk
        rw [hcmem _ (by omega)]
        exact hbpage k hk
    · rw [hcwords j hj' (by omega)]
      exact h.rest j (by omega) hj'
  · rw [if_neg hp] at hcount ⊢
    refine ⟨s, rfl, own, by rw [hcount, Nat.add_zero]; exact h.toCopyInv, h.grow, h.other,
      fun j hj => ?_, fun j hj => h.rest j (by omega)⟩
    rcases Nat.lt_succ_iff_lt_or_eq.mp hj with hj | rfl
    · exact h.done j hj
    · exact ⟨fun _ => h.rest j le_rfl hm, fun h => absurd h hp⟩

/-- **The loop over a table** copies it. -/
theorem CopyInv.cloneTable (h : CopyInv S (n + s₀.pageCount T 1024) s₀ s own)
    (hT : TableKept S s₀ T) (ht : own t = some (.table i))
    (hzero : ∀ j < 1024, s.entry (t * 4096) j = 0) :
    ∃ s', (List.range 1024).foldlM (clonePage T (t * 4096)) s = .ok s' ∧
      ∃ own', TableCopy S n s₀ s s' own own' T t i 1024 :=
  foldlM_range_ok (P := fun m s' => ∃ own', TableCopy S n s₀ s s' own own' T t i m)
    ⟨own, by rwa [pageCount_zero, Nat.sub_zero], fun _ _ => rfl, fun _ _ _ => rfl,
    fun _ hj => absurd hj (Nat.not_lt_zero _),
      fun j _ hj => hzero j hj⟩
    fun _ hm _ ⟨_, hcopy⟩ => hcopy.step hT ht hm

/-! ## Copying the directory -/

/-- The stock leaves the frames of the directory at `src` alone. -/
structure FrameStock.Spares (S : FrameStock D) (s : Paging D) (src : ℕ) : Prop where
  aligned : src % 4096 = 0
  frames : ∀ a ∈ s.spaceFrames src, S.kept (a / 4096)

theorem CloneSource.spared (h : s.CloneSource src) : (freeStock s).Spares s src :=
  ⟨h.aligned, h.taken⟩

theorem FrameStock.Spares.dir (h : S.Spares s src) : S.kept (src / 4096) :=
  h.frames src (mem_spaceFrames.mpr (.inl rfl))

theorem FrameStock.Spares.table (h : S.Spares s src) (hi : i < 768)
    (hp : s.entry src i % 2 = 1) : TableKept S s (s.entry src i / 4096 * 4096) where
  aligned := Nat.mul_mod_left _ _
  table := h.frames _ (mem_spaceFrames.mpr (.inr (.inl ⟨i, hi, hp, rfl⟩)))
  page j hj hpj := by
    rw [← pte_of_present hp] at hpj ⊢
    have hmem := h.frames _ (mem_spaceFrames.mpr (.inr (.inr ⟨i, hi, j, hj, hpj, rfl⟩)))
    rwa [frame_div] at hmem

/-- After `n` rounds over the directory at `src`. -/
structure DirCopy (S : FrameStock D) (s₀ s : Paging D) (own : ℕ → Option Place) (src p n : ℕ) : Prop
    extends CopyInv S (s₀.frameCount src 768 - s₀.frameCount src (min n 768)) s₀ s own where
  dir : own p = some .directory
  done : ∀ i < n, i < 768 → EntryCopied s₀ s own src p i
  kernel : ∀ i < n, 768 ≤ i → s.entry (p * 4096) i = s₀.entry src i
  rest : ∀ i, n ≤ i → i < 768 → s.entry (p * 4096) i = 0

/-- A round over a kernel entry. -/
theorem DirCopy.kernel_step (h : DirCopy S s₀ s own src p n) (hn : n < 1024) (hk : 768 ≤ n) :
    DirCopy S s₀ (s.setEntry (p * 4096) n (s₀.entry src n)) own src p (n + 1) := by
  have hp : own p ≠ none := by rw [h.dir]; exact Option.some_ne_none _
  have hwords : ∀ i < 1024, i ≠ n → (s.setEntry (p * 4096) n (s₀.entry src n)).entry (p * 4096) i =
      s.entry (p * 4096) i := fun i hi hin =>
    entry_setEntry_of_ne _ _ (Nat.mul_mod_left _ _) (Nat.mul_mod_left _ _) hn hi (.inr hin)
  have hinv := h.toCopyInv.setEntry hp hn (s₀.entry src n)
  rw [show min n 768 = min (n + 1) 768 by omega] at hinv
  refine ⟨hinv, h.dir, fun i _ hi => ?_, fun i hin hi => ?_, fun i hi hi' => by omega⟩
  · exact (h.done i (by omega) hi).mono h.dir (fun _ _ => rfl)
      (fun x _ hx => Mem.store32_of_not_mem (by omega)) (hwords i (by omega) (by omega))
  · rcases Nat.lt_succ_iff_lt_or_eq.mp hin with hin | rfl
    · rw [hwords i (by omega) (by omega)]
      exact h.kernel i hin hi
    · rw [entry_setEntry_self]
      exact u32_of_lt (s₀.entry_lt src i)

/-- A round over an entry without a table. -/
theorem DirCopy.absent_step (h : DirCopy S s₀ s own src p n) (hn : n < 768)
    (hp : s₀.entry src n % 2 ≠ 1) : DirCopy S s₀ s own src p (n + 1) := by
  have hcount := s₀.frameCount_succ src n
  rw [if_neg hp] at hcount
  have hinv := h.toCopyInv
  rw [min_eq_left hn.le, ← Nat.add_zero (s₀.frameCount src n), ← hcount] at hinv
  refine ⟨by rwa [min_eq_left hn], h.dir, fun i hin hi => ?_, fun i hin hi => by omega,
    fun i hi => h.rest i (by omega)⟩
  rcases Nat.lt_succ_iff_lt_or_eq.mp hin with hin | rfl
  · exact h.done i hin hi
  · exact ⟨fun _ => h.rest i le_rfl hn, fun h => absurd h hp⟩

/-- A round over an entry with a table. -/
theorem DirCopy.table_step (h : DirCopy S s₀ s own src p n)
    (hs : S.Spares s₀ src) (hn : n < 768) (hp : s₀.entry src n % 2 = 1) :
    ∃ s', cloneEntry src (p * 4096) s n = .ok s' ∧ ∃ own', DirCopy S s₀ s' own' src p (n + 1) := by
  have hword : s.entry src n = s₀.entry src n := h.entry_eq hs.aligned hs.dir (by omega)
  have hcount := s₀.frameCount_succ src n
  rw [if_pos hp] at hcount
  have hle := s₀.frameCount_mono src (show n + 1 ≤ 768 from hn)
  have hinv := h.toCopyInv
  rw [min_eq_left hn.le, show s₀.frameCount src 768 - s₀.frameCount src n =
    s₀.frameCount src 768 - s₀.frameCount src (n + 1) +
      s₀.pageCount (s₀.entry src n / 4096 * 4096) 1024 + 1 by omega] at hinv
  -- a frame for the table
  obtain ⟨a, t, halloc, hnew, ha, hmem, hzero⟩ := hinv.alloc (.table n)
  have hdir : own p ≠ none := by rw [h.dir]; exact Option.some_ne_none _
  have hne : ∀ g, own g ≠ none → g ≠ t := fun g hg hgt => hg (by rw [hgt, hnew])
  have hgrow1 : ∀ g, own g ≠ none → update own t (some (.table n)) g = own g :=
    fun g hg => update_of_ne (hne g hg) _ _
  have hkept1 : ∀ g, own g ≠ none → update own t (some (.table n)) g ≠ none :=
    fun g hg => by rw [hgrow1 g hg]; exact hg
  -- the table is copied
  obtain ⟨c, hloop, own2, hc⟩ := ha.cloneTable (hs.table hn hp) (update_self ..) hzero
  have hgrow : ∀ g, own g ≠ none → own2 g = own g := fun g hg =>
    (hc.grow g (hkept1 g hg)).trans (hgrow1 g hg)
  have hcmem : ∀ x, own (x / 4096) ≠ none → c.mem x = s.mem x := fun x hx =>
    (hc.other x (hkept1 _ hx) (hne _ hx)).trans (hmem x hx)
  have htown : own2 t = some (.table n) := by
    have hupd : update own t (some (.table n)) t = some (.table n) :=
      update_self ..
    rw [hc.grow t (by rw [hupd]; exact Option.some_ne_none _), hupd]
  have hpown : own2 p = some .directory := (hgrow p hdir).trans h.dir
  have hread : c.entry src n = s₀.entry src n := hc.entry_eq hs.aligned hs.dir (by omega)
  have hlt := (hc.apart t (by rw [htown]; exact Option.some_ne_none _)).2
  -- and entered in the directory
  set v := t * 4096 + s₀.entry src n % 4096 with hv
  have hflag : t * 4096 ||| (c.entry src n &&& 0xFFF) = v := by
    rw [hread, and_offsetMask, or_offset _ (Nat.mod_lt _ (by decide))]
  have hwords : ∀ i < 1024, i ≠ n →
      (c.setEntry (p * 4096) n v).entry (p * 4096) i = s.entry (p * 4096) i := by
    intro i hi hin
    rw [entry_setEntry_of_ne _ _ (Nat.mul_mod_left _ _) (Nat.mul_mod_left _ _) (by omega) hi
      (.inr hin)]
    exact Mem.load32_congr fun x h1 h2 => hcmem x (by rwa [show x / 4096 = p by omega])
  have hother : ∀ x, x / 4096 ≠ p → (c.setEntry (p * 4096) n v).mem x = c.mem x := fun x hx =>
    Mem.store32_of_not_mem (by omega)
  have hcinv := hc.toCopyInv.setEntry (t := p) (by rw [hpown]; exact Option.some_ne_none _)
    (show n < 1024 by omega) v
  rw [Nat.sub_self, Nat.add_zero] at hcinv
  refine ⟨c.setEntry (p * 4096) n v, ?_, own2, ⟨by rwa [min_eq_left hn], hpown,
    fun i hin hi => ?_, fun i hin hi => by omega, fun i hi hi' => ?_⟩⟩
  · simp only [cloneEntry, if_neg (not_le.mpr hn), hword, hasFlag_present, hp, decide_true,
      if_true, halloc, frameOf_entry, hloop, hflag]
  · rcases Nat.lt_succ_iff_lt_or_eq.mp hin with hin | rfl
    · exact (h.done i hin hi).mono h.dir hgrow (fun x hx hxp => (hother x hxp).trans (hcmem x hx))
        (hwords i (by omega) (by omega))
    · have hentry : (c.setEntry (p * 4096) i v).entry (p * 4096) i = v := by
        rw [entry_setEntry_self]
        exact u32_of_lt (by omega)
      have hframe : ∀ {g : ℕ} {r : Place}, own2 g = some r → r ≠ .directory → ∀ x, x / 4096 = g →
          (c.setEntry (p * 4096) i v).mem x = c.mem x := by
        rintro g r hg hr x rfl
        refine hother x fun hxp => hr ?_
        rw [hxp] at hg
        exact Option.some.inj (hg.symm.trans hpown)
      refine ⟨fun hn => absurd hp hn, fun _ => ⟨t, htown, hentry, fun j hj =>
        (hc.done j hj).mono (fun _ _ => rfl)
          (fun g hg k hk => hframe hg Place.noConfusion _ (by omega))
          (Mem.load32_congr fun x h1 h2 => hframe htown Place.noConfusion x (by omega))⟩⟩
  · rw [hwords i (by omega) (by omega)]
    exact h.rest i (by omega) hi'

theorem DirCopy.step (h : DirCopy S s₀ s own src p n) (hs : S.Spares s₀ src) (hn : n < 1024) :
    ∃ s', cloneEntry src (p * 4096) s n = .ok s' ∧ ∃ own', DirCopy S s₀ s' own' src p (n + 1) := by
  have hword : s.entry src n = s₀.entry src n := h.entry_eq hs.aligned hs.dir hn
  by_cases hk : 768 ≤ n
  · refine ⟨_, ?_, own, h.kernel_step hn hk⟩
    simp only [cloneEntry, if_pos hk, hword]
  · by_cases hp : s₀.entry src n % 2 = 1
    · exact h.table_step hs (by omega) hp
    · refine ⟨s, ?_, own, h.absent_step (by omega) hp⟩
      simp only [cloneEntry, if_neg hk, hword, hasFlag_present, hp, decide_false,
        Bool.false_eq_true, if_false]

/-- The whole copy: `own` gives the frames of the directory in frame `p` their places. -/
structure Copied (S : FrameStock D) (s s' : Paging D) (own : ℕ → Option Place) (src p : ℕ) : Prop
    extends CopyInv S 0 s s' own where
  dir : own p = some .directory
  user : ∀ i < 768, EntryCopied s s' own src p i
  kernel : ∀ i, 768 ≤ i → i < 1023 → s'.entry (p * 4096) i = s.entry src i
  recursive : s'.entry (p * 4096) 1023 = p * 4096 + 3

/-- The recursive entry is set last. -/
theorem DirCopy.finish (h : DirCopy S s₀ s own src p 1024) :
    Copied S s₀ (s.setRecursive (p * 4096)) own src p := by
  have hp : own p ≠ none := by rw [h.dir]; exact Option.some_ne_none _
  have hlt := (h.apart p hp).2
  have hinv := h.toCopyInv
  rw [min_eq_right (by decide), Nat.sub_self] at hinv
  have hwords : ∀ i < 1023, (s.setRecursive (p * 4096)).entry (p * 4096) i =
      s.entry (p * 4096) i := fun i hi =>
    entry_setEntry_of_ne _ _ (Nat.mul_mod_left _ _) (Nat.mul_mod_left _ _) (by decide) (by omega)
      (.inr (by omega))
  refine ⟨hinv.setEntry hp (by decide) _, h.dir, fun i hi => ?_, fun i hi hi' => ?_, ?_⟩
  · exact (h.done i (by omega) hi).mono h.dir (fun _ _ => rfl)
      (fun x _ hx => Mem.store32_of_not_mem (by omega)) (hwords i (by omega))
  · rw [hwords i hi']
    exact h.kernel i (by omega) hi
  · have hor : p * 4096 ||| pagePresent ||| pageRw = p * 4096 + 3 := by
      rw [Nat.or_assoc]
      exact or_offset p (by decide)
    rw [setRecursive, entry_setEntry_self, hor]
    exact u32_of_lt (by omega)

/-- **`paging_clone_directory`** ends, if there is a stock of frames that spares the source. -/
theorem FrameStock.Spares.clone (hs : S.Spares s src)
    (hroom : S.has (fun _ => none) (s.spaceFrames src).length s) :
    ∃ s' p own, s.pagingCloneDirectory src = .ok (s', p * 4096) ∧ Copied S s s' own src p := by
  rw [length_spaceFrames] at hroom
  obtain ⟨a, p, halloc, -, ha, -, hzero⟩ := (CopyInv.start hroom).alloc .directory
  have hstart : DirCopy S s a (update (fun _ => none) p (some .directory)) src p 0 :=
    ⟨by rwa [min_eq_left (by decide), frameCount_zero, Nat.sub_zero], update_self ..,
      fun _ hi => absurd hi (Nat.not_lt_zero _), fun _ hi => absurd hi (Nat.not_lt_zero _),
      fun i _ hi => hzero i (by omega)⟩
  obtain ⟨c, hloop, own, hc⟩ := foldlM_range_ok
    (P := fun n s' => ∃ own, DirCopy S s s' own src p n) ⟨_, hstart⟩
    fun _ hn _ ⟨_, h⟩ => h.step hs hn
  refine ⟨_, p, own, ?_, hc.finish⟩
  rw [pagingCloneDirectory, halloc]
  simp only [hloop]

/-- With a free frame for each frame of the source nothing is evicted. -/
theorem CloneSource.clone (hs : s.CloneSource src)
    (hroom : (s.spaceFrames src).length ≤ s.pmm.freeSet.card) :
    ∃ s' p own, s.pagingCloneDirectory src = .ok (s', p * 4096) ∧
      Copied (freeStock s) s s' own src p :=
  hs.spared.clone ⟨hs.pmm, hroom, fun _ hg => hg, fun _ _ => rfl⟩

/-! ## What the copy is -/

section

variable (h : Copied S s s' own src p) (hi : i < 768)

include h hi

theorem Copied.entry_present
    (hp : s.entry src i % 2 = 1) : ∃ t, own t = some (.table i) ∧
      s'.entry (p * 4096) i = t * 4096 + s.entry src i % 4096 ∧
      s'.entry (p * 4096) i % 2 = 1 ∧ ∀ j, s'.pte (p * 4096) i j = s'.entry (t * 4096) j := by
  obtain ⟨t, ht, hword, -⟩ := (h.user i hi).table hp
  have hp' : s'.entry (p * 4096) i % 2 = 1 := by omega
  refine ⟨t, ht, hword, hp', fun j => ?_⟩
  rw [pte_of_present hp', hword, show (t * 4096 + s.entry src i % 4096) / 4096 = t by omega]

/-- The copy of a page. -/
theorem Copied.pte_present
    (hj : j < 1024) (hp : s.pte src i j % 2 = 1) : ∃ g, own g = some (.page i j) ∧
      s'.pte (p * 4096) i j = g * 4096 + s.pte src i j % 4096 ∧
      ∀ k < 4096, s'.mem (g * 4096 + k) = s.mem (s.pte src i j / 4096 * 4096 + k) := by
  have hpe := entry_of_pte hp
  obtain ⟨t, ht, hword, hwords⟩ := (h.user i hi).table hpe
  rw [pte_of_present hpe] at hp ⊢
  obtain ⟨g, hg, hentry, hbytes⟩ := (hwords j hj).page hp
  refine ⟨g, hg, ?_, hbytes⟩
  rw [pte_of_present (by omega), hword,
    show (t * 4096 + s.entry src i % 4096) / 4096 = t by omega, hentry]

theorem Copied.pte_absent
    (hj : j < 1024) (hp : s.pte src i j % 2 ≠ 1) : s'.pte (p * 4096) i j = 0 := by
  by_cases hpe : s.entry src i % 2 = 1
  · obtain ⟨t, -, hword, hwords⟩ := (h.user i hi).table hpe
    rw [pte_of_present hpe] at hp
    rw [pte_of_present (by omega), hword,
      show (t * 4096 + s.entry src i % 4096) / 4096 = t by omega]
    exact (hwords j hj).absent hp
  · have hzero := (h.user i hi).absent hpe
    exact pte_of_absent (by rw [hzero]; decide) j

/-- The tables of the copy are in their places. -/
theorem Copied.own_table
    (hp : s'.entry (p * 4096) i % 2 = 1) :
    own (s'.entry (p * 4096) i / 4096) = some (.table i) := by
  have hpe : s.entry src i % 2 = 1 := by
    by_contra hpe
    rw [(h.user i hi).absent hpe] at hp
    cases hp
  obtain ⟨t, ht, hword, -⟩ := h.entry_present hi hpe
  rw [hword, show (t * 4096 + s.entry src i % 4096) / 4096 = t by omega]
  exact ht

theorem Copied.own_page
    (hj : j < 1024) (hp : s'.pte (p * 4096) i j % 2 = 1) :
    own (s'.pte (p * 4096) i j / 4096) = some (.page i j) := by
  have hps : s.pte src i j % 2 = 1 := by
    by_contra hps
    rw [h.pte_absent hi hj hps] at hp
    cases hp
  obtain ⟨g, hg, hword, -⟩ := h.pte_present hi hj hps
  rw [hword, show (g * 4096 + s.pte src i j % 4096) / 4096 = g by omega]
  exact hg

end

theorem Copied.own_ne_none {a : ℕ} (h : Copied S s s' own src p)
    (ha : a ∈ s'.spaceFrames (p * 4096)) : own (a / 4096) ≠ none := by
  have hsome : ∃ r, own (a / 4096) = some r := by
    rcases mem_spaceFrames.mp ha with rfl | ⟨i, hi, hp, rfl⟩ | ⟨i, hi, j, hj, hp, rfl⟩
    · exact ⟨_, by rw [frame_div]; exact h.dir⟩
    · exact ⟨_, by rw [frame_div]; exact h.own_table hi hp⟩
    · exact ⟨_, by rw [frame_div]; exact h.own_page hi hj hp⟩
  obtain ⟨r, hr⟩ := hsome
  rw [hr]
  exact Option.some_ne_none _

/-- No frame has two places. -/
theorem Copied.nodup (h : Copied S s s' own src p) : (s'.spaceFrames (p * 4096)).Nodup := by
  -- the places of what is listed for an entry
  have hplace : ∀ i < 768, s'.entry (p * 4096) i % 2 = 1 →
      ∀ a ∈ s'.tableFrames (frameOf (s'.entry (p * 4096) i)) ++ [frameOf (s'.entry (p * 4096) i)],
        own (a / 4096) = some (.table i) ∨ ∃ j, own (a / 4096) = some (.page i j) := by
    intro i hi hp a ha
    simp only [frameOf_entry, tableFrames, mem_append, mem_map, mem_filter,
      mem_range, hasFlag_present, decide_eq_true_eq, mem_singleton] at ha
    rcases ha with ⟨j, ⟨hj, hpj⟩, rfl⟩ | rfl
    · rw [← pte_of_present hp] at hpj ⊢
      rw [frame_div]
      exact .inr ⟨j, h.own_page hi hj hpj⟩
    · rw [frame_div]
      exact .inl (h.own_table hi hp)
  simp only [spaceFrames]
  refine List.Nodup.append (nodup_flatMap.mpr ⟨fun i hi => ?_, ?_⟩) (nodup_singleton _) ?_
  · simp only [mem_filter, mem_range, hasFlag_present, decide_eq_true_eq] at hi
    obtain ⟨hi, hp⟩ := hi
    refine List.Nodup.append (List.Nodup.map_on ?_ (nodup_range.filter _))
      (nodup_singleton _) ?_
    · intro j hj j' hj' heq
      simp only [mem_filter, mem_range, hasFlag_present, decide_eq_true_eq,
        frameOf_entry, ← pte_of_present hp, frameOf_eq (s'.pte_lt _ _ _)] at hj hj' heq
      have h1 := h.own_page hi hj.1 hj.2
      have h2 := h.own_page hi hj'.1 hj'.2
      rw [show s'.pte (p * 4096) i j / 4096 = s'.pte (p * 4096) i j' / 4096 by omega, h2] at h1
      cases h1
      rfl
    · rintro a ha hmem
      obtain rfl := mem_singleton.mp hmem
      simp only [tableFrames, mem_map, mem_filter, mem_range, hasFlag_present,
        decide_eq_true_eq, frameOf_entry, ← pte_of_present hp, frameOf_eq (s'.pte_lt _ _ _)] at ha
      obtain ⟨j, ⟨hj, hpj⟩, heq⟩ := ha
      have h1 := h.own_page hi hj hpj
      rw [show s'.pte (p * 4096) i j / 4096 = s'.entry (p * 4096) i / 4096 by omega,
        h.own_table hi hp] at h1
      cases h1
  · refine (nodup_range.filter _).pairwise_of_forall_ne fun i hi i' hi' hne a ha ha' => ?_
    simp only [mem_filter, mem_range, hasFlag_present, decide_eq_true_eq] at hi hi'
    rcases hplace i hi.1 hi.2 a ha with h1 | ⟨j, h1⟩ <;>
      rcases hplace i' hi'.1 hi'.2 a ha' with h2 | ⟨j', h2⟩ <;>
      · rw [h1] at h2
        cases h2 <;> exact hne rfl
  · rintro a ha hmem
    obtain rfl := mem_singleton.mp hmem
    obtain ⟨i, hi, ha⟩ := mem_flatMap.mp ha
    simp only [mem_filter, mem_range, hasFlag_present, decide_eq_true_eq] at hi
    have hdir : own (p * 4096 / 4096) = some .directory := by
      rw [frame_div]
      exact h.dir
    rcases hplace i hi.1 hi.2 _ ha with h1 | ⟨j, h1⟩ <;>
      · rw [hdir] at h1
        cases h1

/-- `pd` is a copy in `s'` of the address space `src` of `s`. -/
structure Cloned (s s' : Paging D) (src pd : ℕ) : Prop where
  /-- a present page is mapped at the same address, with the same flags -/
  flags : ∀ i < 768, ∀ j < 1024, s.pte src i j % 2 = 1 →
    s'.entry pd i % 4096 = s.entry src i % 4096 ∧ s'.pte pd i j % 4096 = s.pte src i j % 4096
  /-- and with the same contents -/
  contents : ∀ i < 768, ∀ j < 1024, s.pte src i j % 2 = 1 →
    s'.pageData pd i j = s.pageData src i j
  /-- nothing else is mapped -/
  others : ∀ i < 768, ∀ j < 1024, s.pte src i j % 2 ≠ 1 → s'.pte pd i j = 0
  /-- the frames of the copy were free and are not any more -/
  fresh : ∀ a ∈ s'.spaceFrames pd, a / 4096 ∈ s.pmm.freeSet ∧ a / 4096 ∉ s'.pmm.freeSet
  distinct : (s'.spaceFrames pd).Nodup
  disjoint : (s'.spaceFrames pd).Disjoint (s.spaceFrames src)
  source : ∀ a ∈ s.spaceFrames src, ∀ k < 4096, s'.mem (a + k) = s.mem (a + k)
  kernel : ∀ i, 768 ≤ i → i < 1023 → s'.entry pd i = s.entry src i
  recursive : s'.entry pd 1023 = pd ||| pagePresent ||| pageRw

theorem Copied.cloned (h : Copied (freeStock s) s s' own src p) (hs : s.CloneSource src) :
    s.Cloned s' src (p * 4096) where
  flags i hi j hj hp := by
    obtain ⟨t, -, hentry, -⟩ := h.entry_present hi (entry_of_pte hp)
    obtain ⟨g, -, hword, -⟩ := h.pte_present hi hj hp
    omega
  contents i hi j hj hp := by
    obtain ⟨g, -, hword, hbytes⟩ := h.pte_present hi hj hp
    funext k
    rw [pageData, hword, show (g * 4096 + s.pte src i j % 4096) / 4096 = g by omega]
    exact hbytes k k.isLt
  others i hi j hj hp := h.pte_absent hi hj hp
  fresh a ha := by
    have hown := h.own_ne_none ha
    exact ⟨not_not.mp (h.apart _ hown).1, fun hfree => hown (h.room.2.2.2 _ hfree)⟩
  distinct := h.nodup
  disjoint a ha hsrc := (h.apart _ (h.own_ne_none ha)).1 (hs.taken a hsrc)
  source a ha k hk := by
    refine h.kept _ ?_
    have hal : a % 4096 = 0 := by
      rcases mem_spaceFrames.mp ha with rfl | ⟨i, -, -, rfl⟩ | ⟨i, -, j, -, -, rfl⟩
      · exact hs.aligned
      · exact Nat.mul_mod_left _ _
      · exact Nat.mul_mod_left _ _
    rw [show (a + k) / 4096 = a / 4096 by omega]
    exact hs.taken a ha
  kernel := h.kernel
  recursive := by
    rw [h.recursive, Nat.or_assoc]
    exact (or_offset p (by decide)).symm

end Paging

end PenOS
