import PenOS.Heap

/-!
# The block list

What the list operations of `heap.c` do to a chain of adjacent blocks `xs ++ c :: ys`: each changes
`c`, takes in a neighbour or cuts `c` in two, and relinks the block behind.
-/

namespace PenOS

open List

open Block RecMem

variable {m m' : RecMem} {a prev lo n : ℕ} {c d : Chunk} {cs xs ys : List Chunk}

variable {fuel k nx want : ℕ}

/-! ## Reading a header -/

theorem HeaderAt.blockNext (h : HeaderAt m.bytes a prev nx c) : Block.next m a = nx :=
  h.next_eq

theorem HeaderAt.blockPrev (h : HeaderAt m.bytes a prev nx c) : Block.prev m a = prev :=
  h.prev_eq

theorem HeaderAt.blockSize (h : HeaderAt m.bytes a prev nx c) : Block.size m a = c.size :=
  h.size_eq

theorem HeaderAt.blockFree (h : HeaderAt m.bytes a prev nx c) :
    Block.free m a ≠ 0 ↔ c.free = true := by
  have hf : Block.free m a = if c.free then 1 else 0 := h.free_eq
  cases hc : c.free <;> simp [hf, hc]

/-! ## The walks -/

/-- A block serves a request when it is free and large enough. -/
def Chunk.Serves (c : Chunk) (want : ℕ) : Prop := c.free = true ∧ want ≤ c.size

instance (c : Chunk) (want : ℕ) : Decidable (c.Serves want) :=
  inferInstanceAs (Decidable (_ ∧ _))

/-- The search finds the first block that serves the request. -/
theorem findFit_of_fit (h : Chain m.bytes 0 prev a (xs ++ c :: ys)) (ha : a ≠ 0)
    (hxs : ∀ d ∈ xs, ¬ d.Serves want) (hc : c.Serves want) (hfuel : xs.length < fuel) :
    findFit m want fuel a = .ok (a + span xs) := by
  induction xs generalizing a prev fuel with
  | nil =>
    obtain ⟨k, rfl⟩ := Nat.exists_eq_add_of_lt hfuel
    rw [findFit, if_neg ha, if_pos ⟨h.1.blockFree.mpr hc.1, h.1.blockSize ▸ hc.2⟩]
    rfl
  | cons d ds ih =>
    obtain ⟨k, rfl⟩ := Nat.exists_eq_add_of_lt hfuel
    have hno : ¬ (Block.free m a ≠ 0 ∧ Block.size m a ≥ want) := by
      rw [h.1.blockFree, h.1.blockSize]
      exact hxs d mem_cons_self
    have hnext : Block.next m a = a + 16 + d.size := by
      rw [h.1.blockNext]
      cases ds <;> rfl
    rw [findFit, if_neg ha, if_neg hno, hnext,
      ih h.2 (by omega) (fun e he => hxs e (mem_cons_of_mem d he)) (by rw [length_cons]; omega),
      span_cons, show a + 16 + d.size + span ds = a + (16 + d.size + span ds) by omega]

/-- The search returns `NULL` when no block serves the request. -/
theorem findFit_of_none (h : Chain m.bytes 0 prev a cs) (ha : a ≠ 0)
    (hcs : ∀ d ∈ cs, ¬ d.Serves want) (hfuel : cs.length < fuel) :
    findFit m want fuel (headPtr a 0 cs) = .ok 0 := by
  induction cs generalizing a prev fuel with
  | nil =>
    obtain ⟨k, rfl⟩ := Nat.exists_eq_add_of_lt hfuel
    rfl
  | cons d ds ih =>
    obtain ⟨k, rfl⟩ := Nat.exists_eq_add_of_lt hfuel
    have hno : ¬ (Block.free m a ≠ 0 ∧ Block.size m a ≥ want) := by
      rw [h.1.blockFree, h.1.blockSize]
      exact hcs d mem_cons_self
    rw [headPtr_cons, findFit, if_neg ha, if_neg hno, h.1.blockNext]
    exact ih h.2 (by omega) (fun e he => hcs e (mem_cons_of_mem d he)) (by rw [length_cons]; omega)

/-- The walk to the last block. -/
theorem lastFrom_eq (h : Chain m.bytes 0 prev a (c :: cs)) (hfuel : cs.length < fuel) :
    lastFrom m fuel a = .ok (lastPtr prev a (c :: cs)) := by
  induction cs generalizing a prev c fuel with
  | nil =>
    obtain ⟨k, rfl⟩ := Nat.exists_eq_add_of_lt hfuel
    have hnext : ¬ Block.next m a ≠ 0 := fun hne => hne h.1.blockNext
    rw [lastFrom, if_neg hnext]
    rfl
  | cons d ds ih =>
    obtain ⟨k, rfl⟩ := Nat.exists_eq_add_of_lt hfuel
    have hnext : Block.next m a = a + 16 + c.size := h.1.blockNext
    rw [lastFrom, if_pos (by rw [hnext]; omega), hnext, ih h.2 (by rw [length_cons]; omega)]
    rfl

theorem heapTail_eq (h : Chain m.bytes 0 0 lo cs) (hlo : lo ≠ 0) (hfuel : cs.length < heapFuel) :
    heapTail m (headPtr lo 0 cs) = .ok (lastPtr 0 lo cs) := by
  cases cs with
  | nil => rfl
  | cons c cs =>
    unfold heapTail
    rw [headPtr_cons, if_neg hlo]
    exact lastFrom_eq h (by simp at hfuel ⊢; omega)

/-! ## Relinking the block behind -/

theorem chain_relink (h : Chain m.bytes 0 prev a cs) (ha : a ≠ 0) {v : ℕ} (hv : v < 4294967296) :
    Chain (if headPtr a 0 cs ≠ 0 then setPrev m (headPtr a 0 cs) v else m).bytes 0 v a cs := by
  cases cs with
  | nil => trivial
  | cons c cs =>
    rw [headPtr_cons, if_pos ha]
    exact h.setPrev hv

theorem confined_relink {P : ℕ → Prop} (v : ℕ) (hP : ∀ x, InHeader a cs x → P x) :
    Confined P m (if headPtr a 0 cs ≠ 0 then setPrev m (headPtr a 0 cs) v else m) := by
  split
  · rename_i hne
    cases cs with
    | nil => exact absurd rfl hne
    | cons c cs =>
      exact confined_store32 v fun x h1 h2 =>
        hP x (Or.inl ⟨by simp at h1; omega, by simp at h2; omega⟩)
  · exact Confined.refl P m

/-! ## `split_block` -/

/-- What `split_block` makes of a block: the front part as asked for, and the
rest as a free block when it is worth having. -/
def carve (n : ℕ) (c : Chunk) : List Chunk :=
  if c.size - n ≤ 48 then [c] else [{ c with size := n }, ⟨c.size - n - 16, true⟩]

/-- The header that four stores leave. -/
theorem headerAt_written (m : Mem) {b pv : ℕ} (hp : pv < 4294967296) (hn : nx < 4294967296)
    (hk : k < 4294967296) :
    HeaderAt ((((m.store32 (b + 8) k).store32 (b + 12) 1).store32 b nx).store32 (b + 4) pv)
      b pv nx ⟨k, true⟩ := by
  constructor <;>
    simp (disch := omega) only [Mem.load32_store32_of_apart, Mem.load32_store32_self, u32_of_lt,
      if_true]

/-- **`split_block`** -/
theorem splitBlock_spec (h : Chain m.bytes 0 0 lo (xs ++ c :: ys)) (hn : n ≤ c.size)
    (hbound : lo + span (xs ++ c :: ys) < 4294967296) :
    Chain (splitBlock m (lo + span xs) n).bytes 0 0 lo (xs ++ (carve n c ++ ys)) ∧
      Confined (fun x => (lo + span xs ≤ x ∧ x < lo + span xs + 16 + c.size) ∨
        InHeader (lo + span xs + 16 + c.size) ys x) m (splitBlock m (lo + span xs) n) := by
  obtain ⟨hleft, hhead, hright⟩ := chain_middle.mp h
  simp only [span_append, span_cons] at hbound
  set a := lo + span xs with ha
  have hrem : sub32 (Block.size m a) n = c.size - n := by
    rw [hhead.blockSize]
    exact sub32_of_le (by omega) hn
  unfold splitBlock carve
  simp only [hrem, blockOverhead, minSplit]
  by_cases hsmall : c.size - n ≤ 48
  · rw [if_pos (by omega), if_pos hsmall]
    exact ⟨h, Confined.refl _ _⟩
  rw [if_neg (by omega), if_neg hsmall, u32_of_lt (by omega)]
  set b := a + 16 + n with hb
  -- the new header lies in the payload of the block, so all headers are as before
  set m4 := setPrev (setNext (setFree (setSize m b (c.size - n - 16)) b 1) b
    (Block.next (setFree (setSize m b (c.size - n - 16)) b 1) a)) b a with hm4
  have hagree : ∀ x, x < b ∨ b + 16 ≤ x → m4.bytes x = m.bytes x := by
    intro x hx
    simp only [hm4, setPrev, setNext, setFree, setSize, bytes_store32]
    rw [Mem.store32_of_not_mem (by omega), Mem.store32_of_not_mem (by omega),
      Mem.store32_of_not_mem (by omega), Mem.store32_of_not_mem (by omega)]
  have hnx : headPtr (a + 16 + c.size) 0 ys < 4294967296 := by
    cases ys with
    | nil => exact Nat.zero_lt_succ _
    | cons d ds =>
      rw [headPtr_cons]
      omega
  have hnext : Block.next (setFree (setSize m b (c.size - n - 16)) b 1) a =
      headPtr (a + 16 + c.size) 0 ys := by
    change ((m.bytes.store32 (b + 8) _).store32 (b + 12) 1).load32 a = _
    rw [Mem.load32_store32_of_apart (by omega), Mem.load32_store32_of_apart (by omega)]
    exact hhead.next_eq
  have hnew : HeaderAt m4.bytes b a (headPtr (a + 16 + c.size) 0 ys) ⟨c.size - n - 16, true⟩ := by
    rw [hm4, hnext]
    exact headerAt_written m.bytes (by omega) hnx (by omega)
  rw [hnew.blockNext]
  have hleft4 : Chain m4.bytes a 0 lo xs :=
    hleft.congr fun x hx => hagree x (by have := hx.range; omega)
  have hhead4 : HeaderAt m4.bytes a (lastPtr 0 lo xs) (headPtr (a + 16 + c.size) 0 ys) c :=
    hhead.congr fun x _ _ => hagree x (by omega)
  have hright4 : Chain m4.bytes 0 a (a + 16 + c.size) ys :=
    hright.congr fun x hx => hagree x (by have := hx.range; omega)
  set m5 := if headPtr (a + 16 + c.size) 0 ys ≠ 0 then
    setPrev m4 (headPtr (a + 16 + c.size) 0 ys) b else m4 with hm5
  have hright5 : Chain m5.bytes 0 b (a + 16 + c.size) ys :=
    chain_relink hright4 (by omega) (by omega)
  have hconf5 : Confined (InHeader (a + 16 + c.size) ys) m4 m5 := confined_relink b fun _ hx => hx
  have hagree5 : ∀ x, x < a + 16 + c.size → m5.bytes x = m4.bytes x :=
    fun x hx => hconf5.bytes_eq x fun hc => by have := hc.range; omega
  constructor
  · have hsplit : xs ++ ([{ c with size := n }, ⟨c.size - n - 16, true⟩] ++ ys) =
        xs ++ { c with size := n } :: (⟨c.size - n - 16, true⟩ :: ys) := rfl
    have hend : b + 16 + (c.size - n - 16) = a + 16 + c.size := by omega
    rw [hsplit, chain_middle, ← ha]
    simp only [setSize, setNext, bytes_store32]
    refine ⟨?_, ?_, ?_, ?_⟩
    · refine ((hleft4.congr fun x hx => ?_).store32 b (by omega)).store32 n (by omega)
      exact hagree5 x (by have := hx.range; omega)
    · have hhead5 := hhead4.congr fun x _ _ => hagree5 x (by omega)
      exact (hhead5.setNext (by omega)).setSize (by omega)
    · have hnew5 := hnew.congr fun x _ _ => hagree5 x (by omega)
      rw [hend]
      exact (hnew5.store32 b (by omega)).store32 n (by omega)
    · rw [hend]
      exact (hright5.store32 b (by omega)).store32 n (by omega)
  · have hconf4 : Confined (fun x => (a ≤ x ∧ x < a + 16 + c.size) ∨
        InHeader (a + 16 + c.size) ys x) m m4 := by
      refine Confined.store32 (Confined.store32 (Confined.store32 (confined_store32 _ ?_) _ ?_)
        _ ?_) _ ?_ <;> exact fun x _ _ => Or.inl (by omega)
    refine Confined.store32 (Confined.store32
      (hconf4.trans (hconf5.mono fun x hx => Or.inr hx)) _ ?_) _ ?_ <;>
      exact fun x _ _ => Or.inl (by omega)

/-! ## `coalesce` -/

theorem headPtr_lt {next : ℕ} (hk : k < 4294967296) (hnext : next < 4294967296) :
    headPtr k next cs < 4294967296 := by
  cases cs with
  | nil => exact hnext
  | cons _ _ => exact hk

theorem chain_absorb {p q : Chunk} (h : Chain m.bytes 0 0 lo (xs ++ p :: q :: ys))
    (hbound : lo + span (xs ++ p :: q :: ys) < 4294967296) {a : ℕ} (ha : a = lo + span xs)
    (hnx : nx = headPtr (a + 16 + p.size + 16 + q.size) 0 ys) :
    let m2 := setNext (setSize m a (p.size + (16 + q.size))) a nx
    let m3 := if nx ≠ 0 then setPrev m2 nx a else m2
    Chain m3.bytes 0 0 lo (xs ++ p.join q :: ys) ∧
      Confined (InHeader lo (xs ++ p.join q :: ys)) m m3 := by
  intro m2 m3
  obtain ⟨hleft, hp, hq, hright⟩ := chain_middle.mp h
  simp only [span_append, span_cons] at hbound
  rw [← ha] at hleft hp hq hright
  have hnxlt : nx < 4294967296 := hnx ▸ headPtr_lt (by omega) (by decide)
  have hagree : ∀ x, x < a ∨ a + 16 ≤ x → m2.bytes x = m.bytes x := by
    intro x hx
    simp only [m2, setNext, setSize, bytes_store32]
    rw [Mem.store32_of_not_mem (by omega), Mem.store32_of_not_mem (by omega)]
  have hhead2 : HeaderAt m2.bytes a (lastPtr 0 lo xs) nx (p.join q) :=
    (hp.setSize (by omega)).setNext hnxlt
  have hright2 : Chain m2.bytes 0 (a + 16 + p.size) (a + 16 + p.size + 16 + q.size) ys :=
    hright.congr fun x hx => hagree x (by have := hx.range; omega)
  have hright3 : Chain m3.bytes 0 a (a + 16 + p.size + 16 + q.size) ys := by
    simp only [m3, hnx]
    exact chain_relink hright2 (by omega) (by omega)
  have hconf3 : Confined (InHeader (a + 16 + p.size + 16 + q.size) ys) m2 m3 := by
    simp only [m3, hnx]
    exact confined_relink a fun _ hx => hx
  have hagree3 : ∀ x, x < a + 16 → m3.bytes x = m2.bytes x :=
    fun x hx => hconf3.bytes_eq x fun hc => by have := hc.range; omega
  have hend : a + 16 + (p.join q).size = a + 16 + p.size + 16 + q.size := by
    simp only [Chunk.join]
    omega
  constructor
  · rw [chain_middle, ← ha, hend, ← hnx]
    refine ⟨hleft.congr fun x hx => ?_, hhead2.congr fun x _ _ => hagree3 x (by omega), hright3⟩
    have := hx.range
    rw [hagree3 x (by omega), hagree x (by omega)]
  · have hconf2 : Confined (InHeader lo (xs ++ p.join q :: ys)) m m2 := by
      refine Confined.store32 (confined_store32 _ ?_) _ ?_ <;>
        exact fun x _ _ => inHeader_append.mpr (Or.inr (Or.inl (by omega)))
    refine hconf2.trans (hconf3.mono fun x hx => inHeader_append.mpr (Or.inr (Or.inr ?_)))
    rwa [← ha, hend]

/-- A block with the free block behind it taken in. -/
def joinNext (c : Chunk) : List Chunk → List Chunk
  | [] => [c]
  | d :: ds => if d.free then c.join d :: ds else c :: d :: ds

/-- The first half of `coalesce`. -/
theorem coalesceNext_spec (h : Chain m.bytes 0 0 lo (xs ++ c :: ys))
    (hbound : lo + span (xs ++ c :: ys) < 4294967296) :
    Chain (coalesceNext m (lo + span xs)).bytes 0 0 lo (xs ++ joinNext c ys) ∧
      Confined (InHeader lo (xs ++ joinNext c ys)) m (coalesceNext m (lo + span xs)) := by
  obtain ⟨hleft, hhead, hright⟩ := chain_middle.mp h
  set a := lo + span xs with ha
  have hnext := hhead.blockNext
  unfold coalesceNext
  dsimp only
  cases ys with
  | nil =>
    rw [if_neg fun hc => hc.1 hnext]
    exact ⟨h, Confined.refl _ _⟩
  | cons d ds =>
    obtain ⟨hd, -⟩ := hright
    change Block.next m a = a + 16 + c.size at hnext
    rw [hnext]
    by_cases hfree : d.free = true
    · rw [show joinNext c (d :: ds) = _ from if_pos hfree,
        if_pos ⟨by omega, hd.blockFree.mpr hfree⟩, hhead.blockSize, hd.blockSize]
      have hnx : Block.next (setSize m a (c.size + (16 + d.size))) (a + 16 + c.size) =
          headPtr (a + 16 + c.size + 16 + d.size) 0 ds :=
        (hd.store32 _ (by omega)).next_eq
      simp only [span_append, span_cons] at hbound
      have hself : Block.next (setNext (setSize m a (c.size + (16 + d.size))) a
          (headPtr (a + 16 + c.size + 16 + d.size) 0 ds)) a =
          headPtr (a + 16 + c.size + 16 + d.size) 0 ds :=
        (Mem.load32_store32_self _ _ _).trans (u32_of_lt (headPtr_lt (by omega) (by decide)))
      rw [hnx, hself]
      exact chain_absorb h (by simp only [span_append, span_cons]; omega) ha rfl
    · rw [show joinNext c (d :: ds) = _ from if_neg hfree,
        if_neg fun hc => hfree (hd.blockFree.mp hc.2)]
      exact ⟨h, Confined.refl _ _⟩

/-- The second half of `coalesce`, when the block in front is free. -/
theorem coalescePrev_of_free {p : Chunk} (h : Chain m.bytes 0 0 lo (xs ++ p :: c :: ys))
    (hlo : lo ≠ 0) (hbound : lo + span (xs ++ p :: c :: ys) < 4294967296) (hp : p.free = true) :
    Chain (coalescePrev m (lo + span (xs ++ [p]))).bytes 0 0 lo (xs ++ p.join c :: ys) ∧
      Confined (InHeader lo (xs ++ p.join c :: ys)) m (coalescePrev m (lo + span (xs ++ [p]))) := by
  obtain ⟨-, hprev, hhead, -⟩ := chain_middle.mp h
  set a := lo + span xs with ha
  have hblock : lo + span (xs ++ [p]) = a + 16 + p.size := by
    simp only [span_append, span_cons, span_nil]
    omega
  rw [hblock]
  have hnx : Block.next (setSize m a (p.size + (16 + c.size))) (a + 16 + p.size) =
      headPtr (a + 16 + p.size + 16 + c.size) 0 ys := (hhead.store32 _ (by omega)).next_eq
  have hnx' : ∀ v, Block.next (setNext (setSize m a (p.size + (16 + c.size))) a v)
      (a + 16 + p.size) = headPtr (a + 16 + p.size + 16 + c.size) 0 ys := fun v =>
    ((hhead.store32 _ (by omega)).store32 v (by omega)).next_eq
  unfold coalescePrev
  dsimp only
  rw [hhead.blockPrev, if_pos ⟨by omega, hprev.blockFree.mpr hp⟩, hprev.blockSize, hhead.blockSize,
    hnx, hnx']
  exact chain_absorb h hbound ha rfl

theorem coalescePrev_of_used (h : Chain m.bytes 0 0 lo (xs ++ c :: ys))
    (hxs : ∀ zs p, xs = zs ++ [p] → p.free = false) : coalescePrev m (lo + span xs) = m := by
  obtain ⟨hleft, hhead, -⟩ := chain_middle.mp h
  unfold coalescePrev
  rw [hhead.blockPrev]
  refine if_neg ?_
  rcases eq_nil_or_concat xs with rfl | ⟨zs, p, rfl⟩
  · exact fun hc => hc.1 rfl
  · have hused := hxs zs p concat_eq_append
    rw [concat_eq_append] at hleft ⊢
    obtain ⟨-, hp, -⟩ := chain_middle.mp hleft
    rw [lastPtr_concat]
    intro hc
    rw [hp.blockFree, hused] at hc
    exact absurd hc.2 Bool.false_ne_true

end PenOS
