import PenOS.HeapList

/-!
# The heap invariant

`Heap.Inv h cs` ties the statics of `heap.c` and the headers in the window to a list of blocks `cs`:
the statics point to its ends, sizes are positive multiples of four, and no free space is split in
two (`Settled`).
-/

namespace PenOS

open List

open Block RecMem

variable {fuel : ℕ} {m m' : RecMem}

namespace Heap

variable {D : Type} {h h' : Heap D} {cs xs ys : List Chunk} {c : Chunk} {n : ℕ}

/-- The heap holds the blocks `cs`. -/
structure Inv (h : Heap D) (cs : List Chunk) : Prop where
  head : h.heapHead = headPtr heapStart 0 cs
  chain : Chain h.window.bytes 0 0 heapStart cs
  curr : h.heapCurr = heapStart + span cs
  sizes : ∀ c ∈ cs, 0 < c.size ∧ c.size % 4 = 0
  settled : Settled true cs
  fits : span cs ≤ 16777216
  mapped : h.heapMappedEnd = (h.heapCurr + 4095) / 4096 * 4096

theorem span_mod_four (hsizes : ∀ c ∈ cs, 0 < c.size ∧ c.size % 4 = 0) : span cs % 4 = 0 := by
  induction cs with
  | nil => rfl
  | cons c cs ih =>
    have hc := hsizes c mem_cons_self
    have hcs := ih fun d hd => hsizes d (mem_cons_of_mem c hd)
    rw [span_cons]
    omega

theorem length_lt_fuel (hfits : span cs ≤ 16777216) : cs.length < heapFuel := by
  have := length_le_span cs
  have hfuel : heapFuel = 16777216 := rfl
  omega

/-! ## `heap_trim` -/

/-- The two shapes `coalesce` leaves: settled, or with one free block at the end. -/
def Trimmable (cs : List Chunk) : Prop :=
  Settled true cs ∨ ∃ zs c, cs = zs ++ [c] ∧ c.free = true ∧ Settled true zs

theorem trimTail_of_settled (hhead : h.heapHead = headPtr heapStart 0 cs)
    (hchain : Chain h.window.bytes 0 0 heapStart cs) (hset : Settled true cs)
    (hfits : span cs ≤ 16777216) (k : ℕ) :
    trimTail (k + 1) h = .ok { h with heapCurr := heapStart + span cs } := by
  have htail := heapTail_eq hchain (by decide) (length_lt_fuel hfits)
  rw [trimTail, hhead, htail]
  dsimp only
  rcases eq_nil_or_concat cs with rfl | ⟨zs, c, rfl⟩
  · rfl
  · rw [concat_eq_append] at hchain hset hfits ⊢
    have hused := hset.last_used
    obtain ⟨-, hlast, -⟩ := chain_middle.mp hchain
    have hlayout := heap_layout
    simp only [span_append, span_cons, span_nil] at hfits
    have hfree : Block.free h.window (heapStart + span zs) = 0 := by
      by_contra hne
      exact absurd (hlast.blockFree.mp hne) (by simp [hused])
    rw [lastPtr_concat, if_neg (by omega), if_pos hfree, hlast.blockSize, u32_of_lt (by omega)]
    simp only [span_append, span_cons, span_nil]
    congr 2
    omega

theorem trimTail_step {zs : List Chunk} (hhead : h.heapHead = headPtr heapStart 0 (zs ++ [c]))
    (hchain : Chain h.window.bytes 0 0 heapStart (zs ++ [c])) (hfree : c.free = true)
    (hfits : span (zs ++ [c]) ≤ 16777216) (k : ℕ) :
    ∃ h' : Heap D, trimTail (k + 1) h = trimTail k h' ∧ h'.heapHead = headPtr heapStart 0 zs ∧
      Chain h'.window.bytes 0 0 heapStart zs ∧ Confined (InHeader heapStart zs) h.window h'.window ∧
      h'.heapMappedEnd = h.heapMappedEnd := by
  have htail := heapTail_eq hchain (by decide) (length_lt_fuel hfits)
  obtain ⟨hleft, hlast, -⟩ := chain_middle.mp hchain
  have hne : Block.free h.window (heapStart + span zs) ≠ 0 := hlast.blockFree.mpr hfree
  have hlayout := heap_layout
  rw [trimTail, hhead, htail]
  dsimp only
  rw [lastPtr_concat, if_neg (by omega), if_neg hne, hlast.blockPrev]
  rcases eq_nil_or_concat zs with rfl | ⟨ws, p, rfl⟩
  · exact ⟨_, rfl, rfl, trivial, Confined.refl _ _, rfl⟩
  · rw [concat_eq_append] at hleft hfits ⊢
    rw [lastPtr_concat, if_pos (by omega)]
    refine ⟨_, rfl, ?_, hleft.setNext (by decide), ?_, rfl⟩
    · cases ws <;> rfl
    · exact confined_store32 0 fun x h1 h2 => inHeader_append.mpr (.inr (.inl (by omega)))

/-- The first loop of `heap_trim`. -/
theorem trimTail_spec (hhead : h.heapHead = headPtr heapStart 0 cs)
    (hchain : Chain h.window.bytes 0 0 heapStart cs) (hcs : Trimmable cs)
    (hfits : span cs ≤ 16777216) :
    ∃ (h' : Heap D) (ds rest : List Chunk), trimTail heapFuel h = .ok h' ∧ cs = ds ++ rest ∧
      h'.heapHead = headPtr heapStart 0 ds ∧ Chain h'.window.bytes 0 0 heapStart ds ∧
      Settled true ds ∧ h'.heapCurr = heapStart + span ds ∧
      usedAt heapStart ds = usedAt heapStart cs ∧
      Confined (InHeader heapStart ds) h.window h'.window ∧ h'.heapMappedEnd = h.heapMappedEnd := by
  rcases hcs with hset | ⟨zs, c, rfl, hfree, hset⟩
  · exact ⟨_, cs, [], trimTail_of_settled hhead hchain hset hfits 16777215, (append_nil cs).symm,
      hhead, hchain, hset, rfl, rfl, Confined.refl _ _, rfl⟩
  · obtain ⟨h1, hstep, hhead1, hchain1, hconf, hmapped⟩ :=
      trimTail_step hhead hchain hfree hfits 16777215
    have hzs : span zs ≤ 16777216 := by
      rw [span_append] at hfits
      omega
    have hend := trimTail_of_settled hhead1 hchain1 hset hzs 16777214
    refine ⟨_, zs, [c], hstep.trans hend, rfl, hhead1, hchain1, hset, rfl, ?_, hconf, hmapped⟩
    rw [usedAt_append, usedAt_cons_free _ _ hfree]
    simp [usedAt]

theorem unmapDown_spec {target : ℕ} (k : ℕ) (hk : k < fuel)
    (hend : h.heapMappedEnd = target + k * 4096) (hlt : h.heapMappedEnd < 4294967296) :
    ∃ paging, unmapDown target fuel h =
      .ok { h with paging := paging, heapMappedEnd := target } := by
  obtain ⟨j, rfl⟩ := Nat.exists_eq_add_of_lt hk
  induction k generalizing h with
  | zero =>
    refine ⟨h.paging, ?_⟩
    rw [unmapDown, if_neg (by omega)]
    rw [zero_mul, add_zero] at hend
    rw [← hend]
  | succ k ih =>
    have hsub : sub32 h.heapMappedEnd 4096 = target + k * 4096 := by
      rw [sub32_of_le hlt (by omega)]
      omega
    rw [unmapDown, if_pos (by omega)]
    rw [hsub, show k + 1 + j = k + j + 1 by omega]
    have hlt' : target + k * 4096 < 4294967296 := by omega
    exact ih rfl hlt' (by omega)

/-- **`heap_trim`** restores the invariant and keeps the payloads in use. -/
theorem heapTrim_spec (hhead : h.heapHead = headPtr heapStart 0 cs)
    (hchain : Chain h.window.bytes 0 0 heapStart cs) (hcs : Trimmable cs)
    (hsizes : ∀ d ∈ cs, 0 < d.size ∧ d.size % 4 = 0) (hfits : span cs ≤ 16777216)
    (hmapped : h.heapMappedEnd = (heapStart + span cs + 4095) / 4096 * 4096) :
    ∃ (h' : Heap D) (ds rest : List Chunk), h.heapTrim = .ok h' ∧ h'.Inv ds ∧ cs = ds ++ rest ∧
      usedAt heapStart ds = usedAt heapStart cs ∧
      Confined (InHeader heapStart ds) h.window h'.window := by
  have hlayout := heap_layout
  have hfuel : heapFuel = 16777216 := rfl
  obtain ⟨h1, ds, rest, hrun, rfl, hhead1, hchain1, hset, hcurr, hused, hconf, hmapped1⟩ :=
    trimTail_spec hhead hchain hcs hfits
  rw [span_append] at hfits hmapped
  have hpages : h1.heapMappedEnd = (h1.heapCurr + 4095) / 4096 * 4096 +
      (h1.heapMappedEnd - (h1.heapCurr + 4095) / 4096 * 4096) / 4096 * 4096 := by omega
  have hfew : (h1.heapMappedEnd - (h1.heapCurr + 4095) / 4096 * 4096) / 4096 < heapFuel := by omega
  obtain ⟨paging, hdown⟩ := unmapDown_spec _ hfew hpages (by omega)
  refine ⟨{ h1 with paging := paging, heapMappedEnd := (h1.heapCurr + 4095) / 4096 * 4096 }, ds,
    rest, ?_, ⟨hhead1, hchain1, hcurr, fun d hd => hsizes d (by simp [hd]), hset, by omega, rfl⟩,
    rfl, hused, hconf⟩
  unfold heapTrim
  rw [hrun]
  dsimp only
  rw [alignUp_page (by omega)]
  exact hdown

/-! ## `kfree` -/

theorem trimmable_middle (hc : c.free = true) (hxs : Settled true xs) (hys : Settled true ys)
    (hhead : headFree true ys = true → ys = []) : Trimmable (xs ++ c :: ys) := by
  by_cases hnil : ys = []
  · subst hnil
    exact .inr ⟨xs, c, rfl, hc, hxs⟩
  · refine .inl (settled_append.mpr ⟨?_, fun _ => ?_, hys⟩)
    · rwa [headFree_cons, hc]
    · exact Bool.eq_false_iff.mpr fun h => hnil (hhead h)

theorem sizes_join {p q : Chunk} (h : ∀ d ∈ xs ++ p :: q :: ys, 0 < d.size ∧ d.size % 4 = 0) :
    ∀ d ∈ xs ++ p.join q :: ys, 0 < d.size ∧ d.size % 4 = 0 := by
  have hp := h p (by simp)
  have hq := h q (by simp)
  intro d hd
  rcases mem_append.mp hd with hd | hd
  · exact h d (by simp [hd])
  · rcases mem_cons.mp hd with rfl | hd
    · simp only [Chunk.join]
      omega
    · exact h d (by simp [hd])

/-- What `coalesce` around a free block leaves of the list `cs`. -/
structure Coalesced (m m' : RecMem) (cs ds : List Chunk) : Prop where
  chain : Chain m'.bytes 0 0 heapStart ds
  sizes : ∀ d ∈ ds, 0 < d.size ∧ d.size % 4 = 0
  span_eq : span ds = span cs
  used_eq : usedAt heapStart ds = usedAt heapStart cs
  headers : ∀ x, InHeader heapStart ds x → InHeader heapStart cs x
  confined : Confined (InHeader heapStart cs) m m'

theorem Coalesced.trans {m'' : RecMem} {ds es : List Chunk} (h : Coalesced m m' cs ds)
    (h' : Coalesced m' m'' ds es) : Coalesced m m'' cs es where
  chain := h'.chain
  sizes := h'.sizes
  span_eq := h'.span_eq.trans h.span_eq
  used_eq := h'.used_eq.trans h.used_eq
  headers x hx := h.headers x (h'.headers x hx)
  confined := h.confined.trans (h'.confined.mono h.headers)

/-- Taking in the block behind. -/
theorem coalesceNext_settled (hchain : Chain m.bytes 0 0 heapStart (xs ++ c :: ys))
    (hc : c.free = true) (hsizes : ∀ d ∈ xs ++ c :: ys, 0 < d.size ∧ d.size % 4 = 0)
    (hys : Settled true ys) (hfits : span (xs ++ c :: ys) ≤ 16777216) :
    ∃ c' zs, Coalesced m (coalesceNext m (heapStart + span xs)) (xs ++ c :: ys) (xs ++ c' :: zs) ∧
      c'.free = true ∧ Settled true zs ∧ (headFree true zs = true → zs = []) := by
  have hlayout := heap_layout
  obtain ⟨hnew, hconf⟩ := coalesceNext_spec hchain (by omega)
  cases ys with
  | nil =>
    exact ⟨c, [], ⟨hnew, hsizes, rfl, rfl, fun _ hx => hx, hconf⟩, hc, trivial, fun _ => rfl⟩
  | cons d ds =>
    by_cases hd : d.free = true
    · rw [show joinNext c (d :: ds) = _ from if_pos hd] at hnew hconf
      refine ⟨c.join d, ds, ⟨hnew, sizes_join hsizes, span_join xs ds, usedAt_join _ xs ds hc hd,
        fun _ hx => hx.of_join, hconf.mono fun _ hx => hx.of_join⟩, hc, hys.2, fun hh => ?_⟩
      exact absurd (hys.1 hd) (by simp [hh])
    · rw [show joinNext c (d :: ds) = _ from if_neg hd] at hnew hconf
      exact ⟨c, d :: ds, ⟨hnew, hsizes, rfl, rfl, fun _ hx => hx, hconf⟩, hc, hys,
        fun hh => absurd hh hd⟩

/-- The flag of the block at `b` reads free, and does so when blocks at the end of `ds` are
dropped. -/
def StaysFree (m : RecMem) (ds : List Chunk) (b : ℕ) : Prop :=
  ∀ es rest (m' : RecMem), ds = es ++ rest → Chain m'.bytes 0 0 heapStart es →
    Confined (InHeader heapStart es) m m' → Block.free m' b ≠ 0

theorem staysFree_of_free (hchain : Chain m.bytes 0 0 heapStart (xs ++ c :: ys))
    (hc : c.free = true) : StaysFree m (xs ++ c :: ys) (heapStart + span xs) := by
  intro es rest m' heq hes hconf
  obtain ⟨-, hhead, -⟩ := chain_middle.mp hchain
  rcases append_eq_append_iff.mp heq with ⟨t, rfl, hrest⟩ | ⟨t, hxs, -⟩
  · cases t with
    | nil =>
      have hbytes : ∀ x, heapStart + span xs ≤ x → x < heapStart + span xs + 16 →
          m'.bytes x = m.bytes x := fun x h1 _ => hconf.bytes_eq x fun hx => by
        have := hx.range
        rw [append_nil] at this
        omega
      exact (hhead.congr hbytes).blockFree.mpr hc
    | cons d ds =>
      obtain ⟨rfl, -⟩ := cons_eq_cons.mp hrest
      obtain ⟨-, hhead', -⟩ := chain_middle.mp hes
      exact hhead'.blockFree.mpr hc
  · have hbytes : ∀ x, heapStart + span xs ≤ x → x < heapStart + span xs + 16 →
        m'.bytes x = m.bytes x := fun x h1 _ => hconf.bytes_eq x fun hx => by
      have := hx.range
      rw [hxs, span_append] at h1
      omega
    exact (hhead.congr hbytes).blockFree.mpr hc

theorem staysFree_of_joined {p : Chunk}
    (hchain : Chain m.bytes 0 0 heapStart (xs ++ p :: c :: ys)) (hc : c.free = true)
    (hconf : Confined (InHeader heapStart (xs ++ p.join c :: ys)) m m') :
    StaysFree m' (xs ++ p.join c :: ys) (heapStart + span (xs ++ [p])) := by
  intro es rest m'' heq hes hconf'
  obtain ⟨-, -, hhead, -⟩ := chain_middle.mp hchain
  have haddr : heapStart + span (xs ++ [p]) = heapStart + span xs + 16 + p.size := by
    simp only [span_append, span_cons, span_nil]
    omega
  have hout : ∀ x, heapStart + span xs + 16 + p.size ≤ x →
      x < heapStart + span xs + 16 + p.size + 16 →
      ¬ InHeader heapStart (xs ++ p.join c :: ys) x := fun x h1 h2 hx => by
    have hsize : (p.join c).size = p.size + (16 + c.size) := rfl
    have := hx.middle (by omega) (by omega)
    omega
  rw [haddr]
  refine (hhead.congr fun x h1 h2 => ?_).blockFree.mpr hc
  rw [hconf'.bytes_eq x fun hx => hout x h1 h2 (heq ▸ inHeader_append.mpr (.inl hx)),
    hconf.bytes_eq x (hout x h1 h2)]

/-- **`coalesce`** around the block just freed. -/
theorem coalesce_spec (hchain : Chain m.bytes 0 0 heapStart (xs ++ c :: ys))
    (hc : c.free = true) (hsizes : ∀ d ∈ xs ++ c :: ys, 0 < d.size ∧ d.size % 4 = 0)
    (hxs : Settled false xs) (hys : Settled true ys) (hfits : span (xs ++ c :: ys) ≤ 16777216) :
    ∃ ds, Coalesced m (coalesce m (heapStart + span xs)) (xs ++ c :: ys) ds ∧ Trimmable ds ∧
      headPtr heapStart 0 ds = heapStart ∧
      StaysFree (coalesce m (heapStart + span xs)) ds (heapStart + span xs) := by
  have hlayout := heap_layout
  obtain ⟨c', zs, hnext, hc', hzs, hhead⟩ := coalesceNext_settled hchain hc hsizes hys hfits
  have hfits' : span (xs ++ c' :: zs) ≤ 16777216 := hnext.span_eq ▸ hfits
  unfold coalesce
  rcases eq_nil_or_concat xs with rfl | ⟨ws, p, hws⟩
  · rw [coalescePrev_of_used hnext.chain fun zs p h => absurd h (by simp)]
    exact ⟨[] ++ c' :: zs, hnext, trimmable_middle hc' trivial hzs hhead, rfl,
      staysFree_of_free hnext.chain hc'⟩
  rw [concat_eq_append] at hws
  subst hws
  by_cases hp : p.free = true
  · -- the block in front is free as well
    have hlist : ws ++ [p] ++ c' :: zs = ws ++ p :: c' :: zs := by simp
    rw [hlist] at hnext hfits'
    obtain ⟨hnew, hconf⟩ := coalescePrev_of_free hnext.chain (by decide) (by omega) hp
    refine ⟨_, hnext.trans ⟨hnew, sizes_join hnext.sizes, span_join ws zs,
      usedAt_join _ ws zs hp hc', fun _ hx => hx.of_join, hconf.mono fun _ hx => hx.of_join⟩,
      trimmable_middle hp ?_ hzs hhead, by cases ws <;> rfl,
      staysFree_of_joined hnext.chain hc' hconf⟩
    have := (settled_append.mp hxs).1
    rwa [headFree_cons, hp] at this
  · have hused : p.free = false := Bool.eq_false_iff.mpr hp
    rw [coalescePrev_of_used hnext.chain fun zs q h => by
      obtain ⟨-, hq⟩ := append_inj' h rfl
      obtain rfl := singleton_inj.mp hq
      exact hused]
    exact ⟨_, hnext, trimmable_middle hc' (hxs.after_used hused true) hzs hhead,
      by cases ws <;> rfl, staysFree_of_free hnext.chain hc'⟩

/-- **`kfree`** of a used block returns; the block is gone, only headers were written, and its flag
reads free. -/
theorem Inv.kfree (hinv : h.Inv (xs ++ c :: ys)) (hc : c.free = false) :
    ∃ (h' : Heap D) (ds : List Chunk), h.kfree (heapStart + span xs + 16) = .ok h' ∧ h'.Inv ds ∧
      usedAt heapStart ds = usedAt heapStart xs ++ usedAt (heapStart + span xs + 16 + c.size) ys ∧
      Confined (InHeader heapStart (xs ++ c :: ys)) h.window h'.window ∧
      Block.free h'.window (heapStart + span xs) ≠ 0 := by
  have hlayout := heap_layout
  have hfits := hinv.fits
  have hspan : span (xs ++ c :: ys) = span xs + (16 + c.size + span ys) := by simp
  obtain ⟨hleft, hhead, hright⟩ := chain_middle.mp hinv.chain
  obtain ⟨hxs, -, hys⟩ := settled_append.mp hinv.settled
  rw [headFree_cons, hc] at hxs
  have hblock : sub32 (heapStart + span xs + 16) blockOverhead = heapStart + span xs := by
    rw [sub32_of_le (by omega) (by omega)]
    omega
  -- the block marked free, before its neighbours are looked at
  set m := setFree h.window (heapStart + span xs) 1 with hm
  set c' : Chunk := { c with free := true } with hc'
  have hchain : Chain m.bytes 0 0 heapStart (xs ++ c' :: ys) :=
    chain_middle.mpr ⟨hleft.store32 1 (by omega), hhead.setFree true, hright.store32 1 (by omega)⟩
  have hsizes : ∀ d ∈ xs ++ c' :: ys, 0 < d.size ∧ d.size % 4 = 0 := by
    intro d hd
    rcases mem_append.mp hd with hd | hd
    · exact hinv.sizes d (by simp [hd])
    · rcases mem_cons.mp hd with rfl | hd
      · exact hinv.sizes c (by simp)
      · exact hinv.sizes d (by simp [hd])
  have hheaders : ∀ x, InHeader heapStart (xs ++ c' :: ys) x →
      InHeader heapStart (xs ++ c :: ys) x := fun x hx => by
    rw [inHeader_append] at hx ⊢
    exact hx
  have hspan' : span (xs ++ c' :: ys) = span (xs ++ c :: ys) := by simp [hc']
  obtain ⟨ds, hco, htrim, hptr, hflag⟩ := coalesce_spec hchain rfl hsizes hxs hys (hspan' ▸ hfits)
  have hds : span ds = span (xs ++ c :: ys) := hco.span_eq.trans hspan'
  have hstart : h.heapHead = heapStart := by
    rw [hinv.head]
    cases xs <;> rfl
  obtain ⟨h', es, rest, hrun, hinv', heq, hused, hconf⟩ := heapTrim_spec (h := { h with
      window := coalesce m (heapStart + span xs)
      allocatedBytes := sub32 h.allocatedBytes (Block.size m (heapStart + span xs)) })
    (hstart.trans hptr.symm) hco.chain htrim hco.sizes (hds ▸ hfits)
    (by rw [hds, ← hinv.curr]; exact hinv.mapped)
  refine ⟨h', es, ?_, hinv', ?_, ?_, hflag es rest _ heq hinv'.chain hconf⟩
  · have hfree : ¬ Block.free h.window (heapStart + span xs) ≠ 0 := by
      rw [hhead.blockFree, hc]
      exact Bool.false_ne_true
    unfold Heap.kfree
    rw [if_neg (by omega)]
    rw [hblock, if_neg hfree]
    exact hrun
  · rw [hused, hco.used_eq, usedAt_append, usedAt_cons_free _ _ rfl]
  · have hmark : Confined (InHeader heapStart (xs ++ c :: ys)) h.window m :=
      confined_store32 1 fun x _ _ => inHeader_append.mpr (.inr (.inl (by omega)))
    have htrimmed := hconf.mono fun x hx => hco.headers x (heq ▸ inHeader_append.mpr (.inl hx))
    exact hmark.trans ((hco.confined.trans htrimmed).mono hheaders)

/-! ## `kmalloc` from the list -/

theorem carve_facts (hc : c.free = false) (hn : n ≤ c.size) : span (carve n c) = 16 + c.size ∧
      ∃ k, n ≤ k ∧ ∀ a zs, usedAt a (carve n c ++ zs) =
        (a + 16, k) :: usedAt (a + 16 + c.size) zs := by
  unfold carve
  split
  · exact ⟨by simp, c.size, hn, fun a zs => usedAt_cons_used a zs hc⟩
  · refine ⟨by simp only [span_cons, span_nil]; omega, n, le_rfl, fun a zs => ?_⟩
    have hend : a + 16 + n + 16 + (c.size - n - 16) = a + 16 + c.size := by omega
    rw [cons_append, usedAt_cons_used (c := { c with size := n }) _ _ hc, cons_append,
      nil_append, usedAt_cons_free _ _ rfl]
    rw [hend]

theorem carve_sizes (hn : 0 < n ∧ n % 4 = 0) (hc : 0 < c.size ∧ c.size % 4 = 0) :
    ∀ d ∈ carve n c, 0 < d.size ∧ d.size % 4 = 0 := by
  unfold carve
  split
  · simpa using hc
  · simp only [mem_cons, not_mem_nil, or_false, forall_eq_or_imp, forall_eq]
    omega

theorem settled_carve (hc : c.free = false) (hys : headFree true ys = false)
    (hset : Settled true ys) (hxs : Settled true xs) : Settled true (xs ++ (carve n c ++ ys)) := by
  have hno : ∀ P : Prop, c.free = true → P := fun _ h => absurd (hc.symm.trans h) Bool.false_ne_true
  have hfront : Settled c.free xs := hc ▸ hxs.before_used
  unfold carve
  split
  · exact settled_append.mpr ⟨hfront, hno _, hset⟩
  · exact settled_append.mpr ⟨hfront, hno _, fun _ => hys, hset⟩

variable [Disk D] {want : ℕ}

/-- **`kmalloc` with a block that serves the request**: the first such block is
used, and its rest split off. -/
theorem Inv.kmalloc_of_fit (hinv : h.Inv (xs ++ c :: ys)) (hpos : 0 < want)
    (hwant : want ≤ 16777216)
    (hxs : ∀ d ∈ xs, ¬ d.Serves ((want + 3) / 4 * 4)) (hc : c.Serves ((want + 3) / 4 * 4)) :
    ∃ (h' : Heap D) (ds : List Chunk) (k : ℕ),
      h.kmalloc want = .ok (h', heapStart + span xs + 16) ∧ h'.Inv ds ∧ want ≤ k ∧
      usedAt heapStart ds = usedAt heapStart xs ++ (heapStart + span xs + 16, k) ::
        usedAt (heapStart + span xs + 16 + c.size) ys ∧
      Confined (fun x => ¬ InUsed heapStart (xs ++ c :: ys) x) h.window h'.window ∧
      ds = xs ++ (carve ((want + 3) / 4 * 4) { c with free := false } ++ ys) := by
  have hlayout := heap_layout
  obtain ⟨hfree, hsize⟩ := hc
  have hspan : span (xs ++ c :: ys) = span xs + (16 + c.size + span ys) := by simp
  have hfits := hinv.fits
  have hlen : xs.length < heapFuel := by
    have := length_lt_fuel hfits
    rw [length_append] at this
    omega
  have hstart : h.heapHead = heapStart := by
    rw [hinv.head]
    cases xs <;> rfl
  have hfind : findFit h.window ((want + 3) / 4 * 4) heapFuel heapStart =
      .ok (heapStart + span xs) :=
    findFit_of_fit hinv.chain (by decide) hxs ⟨hfree, hsize⟩ hlen
  -- the block marked used
  obtain ⟨hleft, hhead, hright⟩ := chain_middle.mp hinv.chain
  set n := (want + 3) / 4 * 4 with hn
  set m := setFree h.window (heapStart + span xs) 0 with hm
  set c' : Chunk := { c with free := false } with hc'
  have hchain : Chain m.bytes 0 0 heapStart (xs ++ c' :: ys) :=
    chain_middle.mpr ⟨hleft.store32 0 (by omega), hhead.setFree false, hright.store32 0 (by omega)⟩
  have hspan' : span (xs ++ c' :: ys) = span (xs ++ c :: ys) := by simp [hc']
  obtain ⟨hsplit, hconf⟩ := splitBlock_spec hchain hsize (by omega)
  obtain ⟨hcarve, k, hk, hused⟩ := carve_facts (c := c') rfl hsize
  obtain ⟨hsetx, hfollow, hsety⟩ := settled_append.mp hinv.settled
  rw [headFree_cons, hfree] at hsetx
  have hspan'' : span (xs ++ (carve n c' ++ ys)) = span (xs ++ c :: ys) := by
    rw [span_append, span_append, hcarve, hspan]
  refine ⟨{ h with window := splitBlock m (heapStart + span xs) n }, xs ++ (carve n c' ++ ys), k,
    ?_, ⟨?_, hsplit, ?_, ?_, settled_carve rfl (hfollow hfree) hsety hsetx, ?_, hinv.mapped⟩,
    by omega, ?_, ?_, rfl⟩
  · unfold Heap.kmalloc
    rw [if_neg (by omega)]
    dsimp only
    rw [alignUp_four (by omega), hstart, hfind]
    dsimp only
    rw [if_pos (by omega), u32_of_lt (by omega)]
  · rw [hstart]
    have hne : carve n c' ≠ [] := by
      unfold carve
      split <;> simp
    cases xs with
    | cons _ _ => rfl
    | nil =>
      rcases hcv : carve n c' with _ | ⟨d, ds⟩
      · exact absurd hcv hne
      · rfl
  · rw [hspan'']
    exact hinv.curr
  · have hsz := hinv.sizes c (by simp)
    intro d hd
    rcases mem_append.mp hd with hd | hd
    · exact hinv.sizes d (by simp [hd])
    · rcases mem_append.mp hd with hd | hd
      · have hnpos : 0 < n ∧ n % 4 = 0 := by omega
        exact carve_sizes (c := c') hnpos hsz d hd
      · exact hinv.sizes d (by simp [hd])
  · rw [hspan'']
    exact hfits
  · rw [usedAt_append, hused]
  · have hblock : ∀ x, heapStart + span xs ≤ x → x < heapStart + span xs + 16 + c.size →
        ¬ InUsed heapStart (xs ++ c :: ys) x := by
      intro x h1 h2 hx
      exact absurd (inUsed_middle hx h1 h2).1 (by simp [hfree])
    refine (confined_store32 0 fun x h1 h2 => hblock x (by omega) (by omega)).trans
      (hconf.mono fun x hx => ?_)
    rcases hx with ⟨h1, h2⟩ | hx
    · exact hblock x h1 h2
    · exact InHeader.not_inUsed (inHeader_append.mpr (.inr (.inr hx)))

/-! ## `kmalloc` behind the list -/

omit [Disk D] in
/-- No block serves the request. -/
def NoFit (cs : List Chunk) (want : ℕ) : Prop := ∀ d ∈ cs, ¬ d.Serves ((want + 3) / 4 * 4)

theorem Inv.kmalloc_of_noFit (hinv : h.Inv cs) (hpos : 0 < want) (hwant : want ≤ 16777216)
    (hcs : NoFit cs want) : h.kmalloc want = match h.requestBlock ((want + 3) / 4 * 4) with
      | .error e => .error e
      | .ok (h, block) => if block = 0 then .ok (h, 0) else h.appendBlock block := by
  have hfind := findFit_of_none hinv.chain (by decide) hcs (length_lt_fuel hinv.fits)
  unfold kmalloc
  rw [if_neg (by omega)]
  dsimp only
  rw [alignUp_four (by omega), hinv.head, hfind]
  rfl

/-- **`kmalloc` without room**: nothing happens and `NULL` is returned. -/
theorem Inv.kmalloc_of_full (hinv : h.Inv cs) (hpos : 0 < want) (hwant : want ≤ 16777216)
    (hcs : NoFit cs want) (hfull : 16777216 < span cs + 16 + (want + 3) / 4 * 4) :
    h.kmalloc want = .ok (h, 0) := by
  have hlayout := heap_layout
  have hfits := hinv.fits
  have hreq : h.requestBlock ((want + 3) / 4 * 4) = .ok (h, 0) := by
    unfold requestBlock
    dsimp only
    rw [hinv.curr, alignUp_four (by omega), u32_of_lt (n := (heapStart + span cs + 3) / 4 * 4 + _)
      (by omega), u32_of_lt (by omega), if_pos (by omega)]
  rw [hinv.kmalloc_of_noFit hpos hwant hcs, hreq]
  rfl

theorem pagingMap_error {s : Paging D} {virt phys flags : ℕ} {e : Halt}
    (he : s.pagingMap virt phys flags = .error e) : e = .pmmExhausted := by
  have halloc : ∀ {e : Halt}, s.allocFrameZero = .error e → e = .pmmExhausted := by
    intro e he
    unfold Paging.allocFrameZero at he
    dsimp only at he
    split_ifs at he <;> exact (Except.error.inj he).symm
  unfold Paging.pagingMap at he
  rcases hg : s.getPageTable virt flags with e' | ⟨s', table⟩
  · rw [hg] at he
    obtain rfl := Except.error.inj he
    unfold Paging.getPageTable at hg
    dsimp only at hg
    split_ifs at hg
    · rcases ha : s.allocFrameZero with e' | ⟨s', phys⟩
      · rw [ha] at hg
        obtain rfl := Except.error.inj hg
        exact halloc ha
      · rw [ha] at hg
        cases hg
  · rw [hg] at he
    cases he

theorem ensureSpace_spec (target k : ℕ) (hk : k < fuel) (hge : target ≤ h.heapMappedEnd + k * 4096)
    (hlt : ∀ j < k, h.heapMappedEnd + j * 4096 < target)
    (hbound : h.heapMappedEnd + k * 4096 < 4294967296) :
    (∃ paging window, h.ensureSpace target fuel = .ok { h with
        paging := paging, window := window, heapMappedEnd := h.heapMappedEnd + k * 4096 } ∧
      Confined (fun x => h.heapMappedEnd ≤ x) h.window window) ∨
    0 < k ∧ (h.ensureSpace target fuel = .error .outOfFrames ∨
      h.ensureSpace target fuel = .error .pmmExhausted) := by
  obtain ⟨j, rfl⟩ := Nat.exists_eq_add_of_lt hk
  induction k generalizing h with
  | zero =>
    refine .inl ⟨h.paging, h.window, ?_, Confined.refl _ _⟩
    rw [ensureSpace, if_neg (by omega), zero_mul, add_zero]
  | succ k ih =>
    have hstep : h.heapMappedEnd < target := by
      have := hlt 0 (by omega)
      omega
    rw [ensureSpace, if_pos hstep]
    unfold mapNewPage
    by_cases hzero : (pmmAllocFrame h.paging.pmm).2 = 0
    · rw [if_pos hzero]
      exact .inr ⟨by omega, .inl rfl⟩
    rw [if_neg hzero]
    rcases hmap : Paging.pagingMap { h.paging with pmm := (pmmAllocFrame h.paging.pmm).1 }
      h.heapMappedEnd (pmmAllocFrame h.paging.pmm).2 (pageRw ||| pagePresent) with e | paging
    · obtain rfl := pagingMap_error hmap
      exact Or.inr ⟨by omega, Or.inr rfl⟩
    dsimp only
    rw [u32_of_lt (by omega), show k + 1 + j = k + j + 1 by omega]
    have hfill : Confined (fun x => h.heapMappedEnd ≤ x) h.window
        (h.window.fill h.heapMappedEnd 4096 0) := confined_fill 0 fun x hx _ => hx
    have hshift : ∀ i < k, h.heapMappedEnd + 4096 + i * 4096 < target := by
      intro i hi
      have := hlt (i + 1) (by omega)
      omega
    have hpages : h.heapMappedEnd + 4096 + k * 4096 = h.heapMappedEnd + (k + 1) * 4096 := by omega
    rcases ih (h := { h with
        paging := paging
        window := h.window.fill h.heapMappedEnd 4096 0
        heapMappedEnd := h.heapMappedEnd + 4096 })
      (by dsimp only; omega) hshift (by dsimp only; omega) (by omega) with
      ⟨paging', window, hrun, hconf⟩ | ⟨-, herr⟩
    · refine .inl ⟨paging', window, ?_, hfill.trans (hconf.mono fun x hx => ?_)⟩
      · rw [hrun, hpages]
      · dsimp only at hx
        omega
    · exact .inr ⟨by omega, herr⟩

omit [Disk D] in
/-- The header `request_block` writes. -/
theorem headerAt_requested (m : Mem) {b k : ℕ} (hk : k < 4294967296) :
    HeaderAt ((((m.store32 b 0).store32 (b + 4) 0).store32 (b + 8) k).store32 (b + 12) 0)
      b 0 0 ⟨k, false⟩ := by
  constructor <;>
    simp (disch := omega) only [Mem.load32_store32_of_apart, Mem.load32_store32_self, u32_of_lt,
      Bool.false_eq_true, if_false]

omit [Disk D] in
/-- What `request_block` leaves when there is room: the header of the new block
behind the list, and the list itself untouched. -/
structure Requested (h h' : Heap D) (cs : List Chunk) (n : ℕ) : Prop where
  head : h'.heapHead = h.heapHead
  chain : Chain h'.window.bytes 0 0 heapStart cs
  block : HeaderAt h'.window.bytes (heapStart + span cs) 0 0 ⟨n, false⟩
  curr : h'.heapCurr = heapStart + span cs + 16 + n
  mapped : h'.heapMappedEnd = (h'.heapCurr + 4095) / 4096 * 4096
  confined : Confined (fun x => heapStart + span cs ≤ x) h.window h'.window

/-- **`request_block` with room**: a block at `heap_curr`, or out of frames. -/
theorem Inv.requestBlock (hinv : h.Inv cs) (hn : 0 < n ∧ n % 4 = 0)
    (hroom : span cs + 16 + n ≤ 16777216) :
    (∃ h', h.requestBlock n = .ok (h', heapStart + span cs) ∧ Requested h h' cs n) ∨
    h.heapMappedEnd < h.heapCurr + 16 + n ∧ (h.requestBlock n = .error .outOfFrames ∨
      h.requestBlock n = .error .pmmExhausted) := by
  have hlayout := heap_layout
  have hov : blockOverhead = 16 := rfl
  have hfuel : heapFuel = 16777216 := rfl
  have hmod := span_mod_four hinv.sizes
  have hcurr := hinv.curr
  have hmapped := hinv.mapped
  have hstart : alignUp h.heapCurr 4 = heapStart + span cs := by
    rw [alignUp_four (by omega)]
    omega
  set target := heapStart + span cs + n + 16 with htarget
  have hfew : (target + 4095) / 4096 - h.heapMappedEnd / 4096 < heapFuel := by omega
  have hspace := ensureSpace_spec (h := h) target _
    hfew (by omega) (by intro j hj; omega) (by omega)
  unfold Heap.requestBlock
  dsimp only
  rw [hstart, u32_of_lt (n := heapStart + span cs + n) (by omega), hov, ← htarget,
    u32_of_lt (by omega), if_neg (by omega)]
  rcases hspace with ⟨paging, window, hrun, hconf⟩ | ⟨hk, hrun | hrun⟩
  · left
    rw [hrun]
    set b := heapStart + span cs with hb
    have hall : Confined (fun x => b ≤ x) h.window
        (setFree (setSize (setPrev (setNext window b 0) b 0) b n) b 0) := by
      refine Confined.store32 (Confined.store32 (Confined.store32 (Confined.store32
        (hconf.mono fun x hx => ?_) _ ?_) _ ?_) _ ?_) _ ?_
      · omega
      all_goals exact fun x _ _ => by omega
    refine ⟨_, rfl, ⟨rfl, ?_, headerAt_requested _ (by omega), ?_, ?_, hall⟩⟩
    · exact hinv.chain.congr fun x hx => hall.bytes_eq x (by have := hx.range; omega)
    · dsimp only
      omega
    · dsimp only
      omega
  · rw [hrun]
    exact .inr ⟨by omega, .inl rfl⟩
  · rw [hrun]
    exact .inr ⟨by omega, .inr rfl⟩

omit [Disk D] in
theorem Requested.appendBlock (hinv : h.Inv cs) (hreq : Requested h h' cs n)
    (hroom : span cs + 16 + n ≤ 16777216) :
    ∃ h'' : Heap D, h'.appendBlock (heapStart + span cs) = .ok (h'', heapStart + span cs + 16) ∧
      h''.heapHead = heapStart ∧ Chain h''.window.bytes 0 0 heapStart (cs ++ [⟨n, false⟩]) ∧
      h''.heapCurr = h'.heapCurr ∧ h''.heapMappedEnd = h'.heapMappedEnd ∧
      Confined (fun x => InHeader heapStart cs x ∨ heapStart + span cs ≤ x)
        h'.window h''.window := by
  have hlayout := heap_layout
  have hlen := length_lt_fuel hinv.fits
  have hptr : u32 (heapStart + span cs + blockOverhead) = heapStart + span cs + 16 :=
    u32_of_lt (by omega)
  have hhead := hreq.head.trans hinv.head
  unfold Heap.appendBlock
  rcases eq_nil_or_concat cs with rfl | ⟨zs, c, hcs⟩
  · rw [if_pos (show h'.heapHead = 0 from hhead), hptr]
    exact ⟨_, rfl, rfl, ⟨hreq.block, trivial⟩, rfl, rfl, Confined.refl _ _⟩
  rw [concat_eq_append] at hcs
  have hstart : headPtr heapStart 0 cs = heapStart := by
    rw [hcs]
    cases zs <;> rfl
  have htail : lastFrom h'.window heapFuel heapStart = .ok (heapStart + span zs) := by
    have := heapTail_eq hreq.chain (by decide) hlen
    unfold heapTail at this
    rw [hstart, if_neg (by decide)] at this
    rw [this, hcs, lastPtr_concat]
  have hspan : span cs = span zs + (16 + c.size) := by simp [hcs]
  rw [hhead, hstart, if_neg (by decide), htail]
  rw [hptr]
  refine ⟨_, rfl, rfl, ?_, rfl, rfl, ?_⟩
  · have hchain := hreq.chain
    rw [hcs] at hchain
    rw [chain_middle]
    simp only [setPrev, setNext, bytes_store32]
    refine ⟨?_, ?_, trivial⟩
    · have := (hchain.setNext (v := heapStart + span cs) (by omega)).store32
        (b := heapStart + span cs + 4) (heapStart + span zs) (by rw [← hcs]; omega)
      rwa [← hcs] at this
    · have := (hreq.block.store32 (b := heapStart + span zs) (heapStart + span cs)
        (by omega)).setPrev (v := heapStart + span zs) (by omega)
      rw [hcs, lastPtr_concat]
      rw [hcs] at this
      exact this
  · refine (confined_store32 _ fun x h1 h2 => .inl ?_).store32 _ fun x h1 _ => .inr (by omega)
    rw [hcs]
    exact inHeader_append.mpr (.inr (.inl ⟨h1, by omega⟩))

/-- **`kmalloc` without a fitting block but with room**: a new block behind the list, or out of
frames. -/
theorem Inv.kmalloc_of_room (hinv : h.Inv cs) (hpos : 0 < want) (hwant : want ≤ 16777216)
    (hcs : NoFit cs want) (hroom : span cs + 16 + (want + 3) / 4 * 4 ≤ 16777216) :
    (∃ h' : Heap D, h.kmalloc want = .ok (h', h.heapCurr + 16) ∧
      h'.Inv (cs ++ [⟨(want + 3) / 4 * 4, false⟩]) ∧
      Confined (fun x => ¬ InUsed heapStart cs x) h.window h'.window) ∨
    h.heapMappedEnd < h.heapCurr + 16 + (want + 3) / 4 * 4 ∧
      (h.kmalloc want = .error .outOfFrames ∨ h.kmalloc want = .error .pmmExhausted) := by
  have hlayout := heap_layout
  rw [hinv.kmalloc_of_noFit hpos hwant hcs]
  set n := (want + 3) / 4 * 4 with hn
  have hnpos : 0 < n ∧ n % 4 = 0 := by omega
  rcases hinv.requestBlock hnpos hroom with ⟨h1, hrun, hreq⟩ | ⟨hfar, hrun | hrun⟩
  · left
    obtain ⟨h₂, happ, hhead, hchain, hcurr, hmapped, hconf⟩ := hreq.appendBlock hinv hroom
    have hspan : span (cs ++ [⟨n, false⟩]) = span cs + (16 + n) := by simp
    refine ⟨h₂, ?_, ⟨?_, hchain, ?_, ?_, ?_, ?_, ?_⟩, ?_⟩
    · rw [hrun]
      dsimp only
      rw [if_neg (by omega), happ, hinv.curr]
    · rw [hhead]
      cases cs <;> rfl
    · rw [hcurr, hreq.curr, hspan]
      omega
    · intro d hd
      rcases mem_append.mp hd with hd | hd
      · exact hinv.sizes d hd
      · obtain rfl := mem_singleton.mp hd
        exact hnpos
    · refine settled_append.mpr ⟨hinv.settled.before_used, fun hf => ?_, trivial⟩
      exact absurd hf Bool.false_ne_true
    · omega
    · rw [hmapped, hcurr]
      exact hreq.mapped
    · have hbehind : ∀ x, heapStart + span cs ≤ x → ¬ InUsed heapStart cs x := by
        rintro x hx ⟨u, hu, -, h2⟩
        have := usedAt_range hu
        omega
      refine (hreq.confined.mono hbehind).trans (hconf.mono fun x hx => ?_)
      rcases hx with hx | hx
      · exact hx.not_inUsed
      · exact hbehind x hx
  · rw [hrun]
    exact .inr ⟨hfar, .inl rfl⟩
  · rw [hrun]
    exact .inr ⟨hfar, .inr rfl⟩

end Heap

end PenOS
