import Mathlib.Data.List.Pairwise
import PenOS.Lib.Bytes

/-!
# Adjacent blocks in a doubly linked chain

Blocks follow each other without gap, each with a header of four words (`next`, `prev`, payload
size, free flag), so a run is determined by its start and the list of sizes and flags. `Chain` says
that the headers of a run are in memory; it is split at any point (`chain_append`, `chain_middle`).
-/

namespace PenOS

open List

variable {b v x : ℕ} {f : Bool} {u : ℕ × ℕ}

/-- Payload size and free flag of a block. -/
structure Chunk where
  size : ℕ
  free : Bool
  deriving DecidableEq

/-- The bytes a run of blocks takes, headers included. -/
def span : List Chunk → ℕ
  | [] => 0
  | c :: cs => 16 + c.size + span cs

@[simp] theorem span_nil : span [] = 0 := rfl

@[simp] theorem span_cons (c : Chunk) (cs : List Chunk) :
    span (c :: cs) = 16 + c.size + span cs := rfl

@[simp] theorem span_append (xs ys : List Chunk) : span (xs ++ ys) = span xs + span ys := by
  induction xs with
  | nil => simp
  | cons c cs ih =>
    simp only [cons_append, span_cons, ih]
    omega

theorem length_le_span (cs : List Chunk) : 16 * cs.length ≤ span cs := by
  induction cs with
  | nil => simp
  | cons c cs ih =>
    simp only [length_cons, span_cons]
    omega

/-- The first block of a run at `a`, or `next` when the run is empty. -/
def headPtr (a next : ℕ) : List Chunk → ℕ
  | [] => next
  | _ :: _ => a

@[simp] theorem headPtr_nil (a next : ℕ) : headPtr a next [] = next := rfl

@[simp] theorem headPtr_cons (a next : ℕ) (c : Chunk) (cs : List Chunk) :
    headPtr a next (c :: cs) = a := rfl

theorem headPtr_append (a next : ℕ) (xs ys : List Chunk) :
    headPtr a next (xs ++ ys) = headPtr a (headPtr (a + span xs) next ys) xs := by
  cases xs <;> simp

/-- The last block of a run at `a`, or `prev` when the run is empty. -/
def lastPtr : (prev a : ℕ) → List Chunk → ℕ
  | prev, _, [] => prev
  | _, a, c :: cs => lastPtr a (a + 16 + c.size) cs

@[simp] theorem lastPtr_nil (prev a : ℕ) : lastPtr prev a [] = prev := rfl

@[simp] theorem lastPtr_cons (prev a : ℕ) (c : Chunk) (cs : List Chunk) :
    lastPtr prev a (c :: cs) = lastPtr a (a + 16 + c.size) cs := rfl

@[simp] theorem lastPtr_concat (prev a : ℕ) (cs : List Chunk) (c : Chunk) :
    lastPtr prev a (cs ++ [c]) = a + span cs := by
  induction cs generalizing prev a with
  | nil => simp
  | cons d ds ih =>
    simp only [cons_append, lastPtr_cons, ih, span_cons]
    omega

/-- The header at `a`. -/
structure HeaderAt (m : Mem) (a prev next : ℕ) (c : Chunk) : Prop where
  next_eq : m.load32 a = next
  prev_eq : m.load32 (a + 4) = prev
  size_eq : m.load32 (a + 8) = c.size
  free_eq : m.load32 (a + 12) = if c.free then 1 else 0

/-- The headers of a run at `a` are in memory, linked to `prev` before and to
`next` behind. -/
def Chain (m : Mem) (next : ℕ) : (prev a : ℕ) → List Chunk → Prop
  | _, _, [] => True
  | prev, a, c :: cs =>
    HeaderAt m a prev (headPtr (a + 16 + c.size) next cs) c ∧ Chain m next a (a + 16 + c.size) cs

variable {m m' : Mem} {a prev next : ℕ} {c : Chunk} {cs xs ys : List Chunk}

theorem chain_append : Chain m next prev a (xs ++ ys) ↔
    Chain m (headPtr (a + span xs) next ys) prev a xs ∧
      Chain m next (lastPtr prev a xs) (a + span xs) ys := by
  induction xs generalizing prev a with
  | nil => simp [Chain]
  | cons c cs ih =>
    have haddr : a + 16 + c.size + span cs = a + (16 + c.size + span cs) := by omega
    simp only [cons_append, Chain, headPtr_append, ih, span_cons, lastPtr_cons, haddr,
      and_assoc]

/-- A chain around one of its blocks. -/
theorem chain_middle : Chain m next prev a (xs ++ c :: ys) ↔ Chain m (a + span xs) prev a xs ∧
      HeaderAt m (a + span xs) (lastPtr prev a xs) (headPtr (a + span xs + 16 + c.size) next ys) c ∧
      Chain m next (a + span xs) (a + span xs + 16 + c.size) ys := by
  rw [chain_append]
  rfl

/-- The headers in memory determine the run. -/
theorem Chain.unique {ds : List Chunk} {prev' : ℕ} (ha : next < a) (hc : Chain m next prev a cs)
    (hd : Chain m next prev' a ds) (hptr : headPtr a next cs = headPtr a next ds) : cs = ds := by
  induction cs generalizing prev prev' a ds with
  | nil =>
    cases ds with
    | nil => rfl
    | cons d ds => exact absurd hptr ha.ne
  | cons c cs ih =>
    cases ds with
    | nil => exact absurd hptr ha.ne'
    | cons d ds =>
      obtain ⟨hhead, htail⟩ := hc
      obtain ⟨hhead', htail'⟩ := hd
      have hsize : c.size = d.size := hhead.size_eq.symm.trans hhead'.size_eq
      have hflag := hhead.free_eq.symm.trans hhead'.free_eq
      have hfree : c.free = d.free := by
        cases hcf : c.free <;> cases hdf : d.free <;> simp_all
      obtain rfl : c = d := by
        cases c
        cases d
        simp_all
      rw [ih (by omega) htail htail' (hhead.next_eq.symm.trans hhead'.next_eq)]

/-- The addresses of the blocks of a run at `a`. -/
def blockAddrs : ℕ → List Chunk → List ℕ
  | _, [] => []
  | a, c :: cs => a :: blockAddrs (a + 16 + c.size) cs

theorem mem_blockAddrs : b ∈ blockAddrs a cs ↔ ∃ xs c ys, cs = xs ++ c :: ys ∧ b = a + span xs := by
  induction cs generalizing a with
  | nil => simp [blockAddrs]
  | cons c cs ih =>
    rw [blockAddrs, mem_cons, ih]
    constructor
    · rintro (rfl | ⟨xs, d, ys, rfl, rfl⟩)
      · exact ⟨[], c, cs, rfl, rfl⟩
      · refine ⟨c :: xs, d, ys, rfl, ?_⟩
        rw [span_cons]
        omega
    · rintro ⟨_ | ⟨e, xs⟩, d, ys, heq, rfl⟩
      · exact Or.inl rfl
      · obtain ⟨rfl, rfl⟩ := List.cons_eq_cons.mp heq
        refine Or.inr ⟨xs, d, ys, rfl, ?_⟩
        rw [span_cons]
        omega

/-! ## Which bytes a chain depends on -/

/-- `x` is a byte of a header of the run at `a`. -/
def InHeader : ℕ → List Chunk → ℕ → Prop
  | _, [], _ => False
  | a, c :: cs, x => (a ≤ x ∧ x < a + 16) ∨ InHeader (a + 16 + c.size) cs x

theorem InHeader.range (h : InHeader a cs x) : a ≤ x ∧ x < a + span cs := by
  induction cs generalizing a with
  | nil => exact h.elim
  | cons c cs ih =>
    rw [span_cons]
    rcases h with h | h
    · omega
    · have := ih h
      omega

theorem inHeader_append :
    InHeader a (xs ++ ys) x ↔ InHeader a xs x ∨ InHeader (a + span xs) ys x := by
  induction xs generalizing a with
  | nil => simp [InHeader]
  | cons c cs ih =>
    have haddr : a + 16 + c.size + span cs = a + (16 + c.size + span cs) := by omega
    simp only [cons_append, InHeader, ih, span_cons, haddr, or_assoc]

/-- Within the extent of one block, only its own header is header. -/
theorem InHeader.middle (h : InHeader a (xs ++ c :: ys) x) (hl : a + span xs ≤ x)
    (hr : x < a + span xs + 16 + c.size) : x < a + span xs + 16 := by
  rcases inHeader_append.mp h with h | h | h
  · have := h.range
    omega
  · exact h.2
  · have := h.range
    omega

theorem HeaderAt.congr (h : HeaderAt m a prev next c)
    (hm : ∀ x, a ≤ x → x < a + 16 → m' x = m x) : HeaderAt m' a prev next c := by
  obtain ⟨h1, h2, h3, h4⟩ := h
  constructor
  · rwa [Mem.load32_congr fun x _ _ => hm x (by omega) (by omega)]
  · rwa [Mem.load32_congr fun x _ _ => hm x (by omega) (by omega)]
  · rwa [Mem.load32_congr fun x _ _ => hm x (by omega) (by omega)]
  · rwa [Mem.load32_congr fun x _ _ => hm x (by omega) (by omega)]

/-- A chain depends on its headers only. -/
theorem Chain.congr (h : Chain m next prev a cs) (hm : ∀ x, InHeader a cs x → m' x = m x) :
    Chain m' next prev a cs := by
  induction cs generalizing prev a with
  | nil => trivial
  | cons c cs ih =>
    obtain ⟨hhead, htail⟩ := h
    exact ⟨hhead.congr fun x h1 h2 => hm x (Or.inl ⟨h1, h2⟩),
      ih htail fun x hx => hm x (Or.inr hx)⟩

/-- Stores outside the range of a run leave its chain alone. -/
theorem Chain.store32 (h : Chain m next prev a cs) (v : ℕ)
    (hb : b + 4 ≤ a ∨ a + span cs ≤ b) : Chain (m.store32 b v) next prev a cs :=
  h.congr fun x hx => Mem.store32_of_not_mem (by have := hx.range; omega)

theorem HeaderAt.store32 (h : HeaderAt m a prev next c) (v : ℕ)
    (hb : b + 4 ≤ a ∨ a + 16 ≤ b) : HeaderAt (m.store32 b v) a prev next c :=
  h.congr fun x _ _ => Mem.store32_of_not_mem (by omega)

/-! ## Changing one field

The header fields are words of their own, so a store to one of them changes that
field and keeps the others. -/

theorem HeaderAt.setNext (h : HeaderAt m a prev next c) (hv : v < 4294967296) :
    HeaderAt (m.store32 a v) a prev v c where
  next_eq := by rw [Mem.load32_store32_self, u32_of_lt hv]
  prev_eq := by rw [Mem.load32_store32_of_apart (by omega), h.prev_eq]
  size_eq := by rw [Mem.load32_store32_of_apart (by omega), h.size_eq]
  free_eq := by rw [Mem.load32_store32_of_apart (by omega), h.free_eq]

theorem HeaderAt.setPrev (h : HeaderAt m a prev next c) (hv : v < 4294967296) :
    HeaderAt (m.store32 (a + 4) v) a v next c where
  next_eq := by rw [Mem.load32_store32_of_apart (by omega), h.next_eq]
  prev_eq := by rw [Mem.load32_store32_self, u32_of_lt hv]
  size_eq := by rw [Mem.load32_store32_of_apart (by omega), h.size_eq]
  free_eq := by rw [Mem.load32_store32_of_apart (by omega), h.free_eq]

theorem HeaderAt.setSize (h : HeaderAt m a prev next c) (hv : v < 4294967296) :
    HeaderAt (m.store32 (a + 8) v) a prev next { c with size := v } where
  next_eq := by rw [Mem.load32_store32_of_apart (by omega), h.next_eq]
  prev_eq := by rw [Mem.load32_store32_of_apart (by omega), h.prev_eq]
  size_eq := by rw [Mem.load32_store32_self, u32_of_lt hv]
  free_eq := by rw [Mem.load32_store32_of_apart (by omega), h.free_eq]

theorem HeaderAt.setFree (h : HeaderAt m a prev next c) (b : Bool) :
    HeaderAt (m.store32 (a + 12) (if b then 1 else 0)) a prev next { c with free := b } where
  next_eq := by rw [Mem.load32_store32_of_apart (by omega), h.next_eq]
  prev_eq := by rw [Mem.load32_store32_of_apart (by omega), h.prev_eq]
  size_eq := by rw [Mem.load32_store32_of_apart (by omega), h.size_eq]
  free_eq := by
    rw [Mem.load32_store32_self]
    cases b <;> rfl

/-- Relink the front of a chain. -/
theorem Chain.setPrev (h : Chain m next prev a (c :: cs)) (hv : v < 4294967296) :
    Chain (m.store32 (a + 4) v) next v a (c :: cs) :=
  ⟨h.1.setPrev hv, h.2.store32 v (by omega)⟩

/-- Relink the end of a chain. -/
theorem Chain.setNext (h : Chain m next prev a (cs ++ [c])) (hv : v < 4294967296) :
    Chain (m.store32 (a + span cs) v) v prev a (cs ++ [c]) := by
  obtain ⟨hinit, hlast, -⟩ := chain_middle.mp h
  exact chain_middle.mpr ⟨hinit.store32 v (by omega), hlast.setNext hv, trivial⟩

/-! ## Payloads in use -/

/-- The payloads (address, size) of the used blocks of a run at `a`. -/
def usedAt : ℕ → List Chunk → List (ℕ × ℕ)
  | _, [] => []
  | a, c :: cs =>
    if c.free then usedAt (a + 16 + c.size) cs
    else (a + 16, c.size) :: usedAt (a + 16 + c.size) cs

theorem usedAt_cons_free (a : ℕ) (cs : List Chunk) (h : c.free = true) :
    usedAt a (c :: cs) = usedAt (a + 16 + c.size) cs := by simp [usedAt, h]

theorem usedAt_cons_used (a : ℕ) (cs : List Chunk) (h : c.free = false) :
    usedAt a (c :: cs) = (a + 16, c.size) :: usedAt (a + 16 + c.size) cs := by simp [usedAt, h]

theorem usedAt_append (a : ℕ) (xs ys : List Chunk) :
    usedAt a (xs ++ ys) = usedAt a xs ++ usedAt (a + span xs) ys := by
  induction xs generalizing a with
  | nil => simp [usedAt]
  | cons c cs ih =>
    have haddr : a + 16 + c.size + span cs = a + (16 + c.size + span cs) := by omega
    rcases hf : c.free with _ | _
    · simp only [cons_append, usedAt_cons_used _ _ hf, ih, span_cons, haddr]
    · simp only [cons_append, usedAt_cons_free _ _ hf, ih, span_cons, haddr]

/-- A payload in use is the payload of a block of the run. -/
theorem exists_of_mem_usedAt (h : u ∈ usedAt a cs) :
    ∃ xs c ys, cs = xs ++ c :: ys ∧ c.free = false ∧ u = (a + span xs + 16, c.size) := by
  induction cs generalizing a with
  | nil => exact absurd h not_mem_nil
  | cons c cs ih =>
    have hrest : u ∈ usedAt (a + 16 + c.size) cs →
        ∃ xs d ys, c :: cs = xs ++ d :: ys ∧ d.free = false ∧ u = (a + span xs + 16, d.size) := by
      intro hu
      obtain ⟨xs, d, ys, rfl, hd, rfl⟩ := ih hu
      refine ⟨c :: xs, d, ys, rfl, hd, ?_⟩
      rw [span_cons, show a + 16 + c.size + span xs = a + (16 + c.size + span xs) by omega]
    rcases hf : c.free with _ | _
    · rw [usedAt_cons_used _ _ hf, mem_cons] at h
      rcases h with rfl | hu
      · exact ⟨[], c, cs, rfl, hf, rfl⟩
      · exact hrest hu
    · rw [usedAt_cons_free _ _ hf] at h
      exact hrest h

theorem mem_usedAt_middle (a : ℕ) (xs ys : List Chunk) (h : c.free = false) :
    (a + span xs + 16, c.size) ∈ usedAt a (xs ++ c :: ys) := by
  rw [usedAt_append, usedAt_cons_used _ _ h]
  simp

theorem usedAt_range (h : u ∈ usedAt a cs) : a + 16 ≤ u.1 ∧ u.1 + u.2 ≤ a + span cs := by
  obtain ⟨xs, c, ys, rfl, -, rfl⟩ := exists_of_mem_usedAt h
  simp only [span_append, span_cons]
  omega

/-- Payloads in use are apart, in address order, with a header between them. -/
theorem usedAt_pairwise (a : ℕ) (cs : List Chunk) :
    (usedAt a cs).Pairwise fun u v => u.1 + u.2 + 16 ≤ v.1 := by
  induction cs generalizing a with
  | nil => exact List.Pairwise.nil
  | cons c cs ih =>
    rcases hf : c.free with _ | _
    · rw [usedAt_cons_used _ _ hf]
      exact List.pairwise_cons.mpr ⟨fun v hv => (usedAt_range hv).1, ih _⟩
    · rw [usedAt_cons_free _ _ hf]
      exact ih _

/-- Two payloads in use do not overlap. -/
theorem usedAt_apart {v : ℕ × ℕ} (hu : u ∈ usedAt a cs) (hv : v ∈ usedAt a cs) (hne : u ≠ v) :
    u.1 + u.2 + 16 ≤ v.1 ∨ v.1 + v.2 + 16 ≤ u.1 := by
  have hsymm : Std.Symm fun u v : ℕ × ℕ => u.1 + u.2 + 16 ≤ v.1 ∨ v.1 + v.2 + 16 ≤ u.1 :=
    ⟨fun _ _ => Or.symm⟩
  have hpw : (usedAt a cs).Pairwise fun u v => u.1 + u.2 + 16 ≤ v.1 ∨ v.1 + v.2 + 16 ≤ u.1 :=
    (usedAt_pairwise a cs).imp Or.inl
  exact hpw.forall hu hv hne

/-- `x` is a payload byte of a used block. -/
def InUsed (a : ℕ) (cs : List Chunk) (x : ℕ) : Prop :=
  ∃ u ∈ usedAt a cs, u.1 ≤ x ∧ x < u.1 + u.2

/-- Within the extent of one block, the bytes in use are those of its payload,
if the block is used. -/
theorem inUsed_middle (h : InUsed a (xs ++ c :: ys) x) (hl : a + span xs ≤ x)
    (hr : x < a + span xs + 16 + c.size) : c.free = false ∧ a + span xs + 16 ≤ x := by
  obtain ⟨u, hu, h1, h2⟩ := h
  rw [usedAt_append, mem_append] at hu
  rcases hu with hu | hu
  · have := usedAt_range hu
    omega
  · rcases hf : c.free with _ | _
    · rw [usedAt_cons_used _ _ hf, mem_cons] at hu
      rcases hu with rfl | hu
      · exact ⟨rfl, h1⟩
      · have := usedAt_range hu
        omega
    · rw [usedAt_cons_free _ _ hf] at hu
      have := usedAt_range hu
      omega

/-- Header bytes are not payload. -/
theorem InHeader.not_inUsed (h : InHeader a cs x) : ¬ InUsed a cs x := by
  rintro ⟨u, hu, h1, h2⟩
  obtain ⟨xs, c, ys, rfl, -, rfl⟩ := exists_of_mem_usedAt hu
  rcases inHeader_append.mp h with h | h | h
  · have := h.range
    omega
  · omega
  · have := h.range
    omega

/-! ## Settled runs

A run is settled when a free block is always followed by a used one. `f` tells
what follows the run; at the end of the list it is `true`, because the space
behind the last block is free. -/

/-- Is what the run starts with free? -/
def headFree (f : Bool) : List Chunk → Bool
  | [] => f
  | c :: _ => c.free

@[simp] theorem headFree_nil (f : Bool) : headFree f [] = f := rfl

@[simp] theorem headFree_cons (f : Bool) (c : Chunk) (cs : List Chunk) :
    headFree f (c :: cs) = c.free := rfl

/-- No free block is followed by free space. -/
def Settled (f : Bool) : List Chunk → Prop
  | [] => True
  | c :: cs => (c.free = true → headFree f cs = false) ∧ Settled f cs

theorem settled_append : Settled f (xs ++ ys) ↔ Settled (headFree f ys) xs ∧ Settled f ys := by
  induction xs with
  | nil => simp [Settled]
  | cons c cs ih =>
    have hhead : headFree f (cs ++ ys) = headFree (headFree f ys) cs := by cases cs <;> rfl
    simp only [cons_append, Settled, hhead, ih, and_assoc]

/-- Before a used block any settled run will do. -/
theorem Settled.before_used (h : Settled f cs) : Settled false cs := by
  induction cs with
  | nil => trivial
  | cons c cs ih =>
    refine ⟨fun hc => ?_, ih h.2⟩
    cases cs with
    | nil => rfl
    | cons d ds => exact h.1 hc

theorem Settled.after_used (h : Settled f (cs ++ [c])) (hc : c.free = false)
    (g : Bool) : Settled g (cs ++ [c]) := by
  rw [settled_append] at h ⊢
  exact ⟨h.1, fun hf => absurd (hc.symm.trans hf) Bool.false_ne_true, trivial⟩

/-- The last block of a run followed by free space is used. -/
theorem Settled.last_used (h : Settled true (cs ++ [c])) : c.free = false := by
  have hlast := (settled_append.mp h).2.1
  rcases hc : c.free with _ | _
  · rfl
  · exact absurd (hlast hc) (by simp)

/-- The first payload in use of a settled run is behind the first header, or behind one free
block. -/
theorem Settled.usedAt_cons (h : Settled true (c :: cs)) :
    ∃ k rest, usedAt a (c :: cs) = (a + 16 + (if c.free then c.size + 16 else 0), k) :: rest := by
  rcases hc : c.free with _ | _
  · exact ⟨c.size, _, usedAt_cons_used a cs hc⟩
  · rw [usedAt_cons_free a cs hc]
    cases cs with
    | nil => exact absurd (h.1 hc) (by simp)
    | cons d ds =>
      refine ⟨d.size, usedAt (a + 16 + c.size + 16 + d.size) ds, ?_⟩
      rw [usedAt_cons_used _ _ (h.1 hc), if_pos rfl, Nat.add_assoc (a + 16)]

/-- A settled run is determined by its payloads in use: what lies between two of them is one
free block or nothing. -/
theorem Settled.eq_of_usedAt {ds : List Chunk} (hcs : Settled true cs) (hds : Settled true ds)
    (h : usedAt a cs = usedAt a ds) : cs = ds := by
  induction cs generalizing a ds with
  | nil =>
    cases ds with
    | nil => rfl
    | cons d ds =>
      obtain ⟨k, rest, hused⟩ := hds.usedAt_cons (a := a)
      exact absurd (h.trans hused) (by simp [usedAt])
  | cons c cs ih =>
    cases ds with
    | nil =>
      obtain ⟨k, rest, hused⟩ := hcs.usedAt_cons (a := a)
      exact absurd (hused.symm.trans h) (by simp [usedAt])
    | cons d ds =>
      -- the first payloads agree, so the first blocks do
      obtain ⟨k, rest, hc⟩ := hcs.usedAt_cons (a := a)
      obtain ⟨j, rest', hd⟩ := hds.usedAt_cons (a := a)
      have hfirst := (List.cons_eq_cons.mp (hc.symm.trans (h.trans hd))).1
      have haddr := congrArg Prod.fst hfirst
      rcases hcf : c.free with _ | _ <;> rcases hdf : d.free with _ | _ <;>
        simp only [hcf, hdf, if_true, if_false, Bool.false_eq_true] at haddr
      · rw [usedAt_cons_used a cs hcf, usedAt_cons_used a ds hdf, cons_eq_cons] at h
        have hcd : c = d := by
          cases c
          cases d
          simp_all
        subst hcd
        rw [ih hcs.2 hds.2 h.2]
      · omega
      · omega
      · have hcd : c = d := by
          cases c
          cases d
          simp_all
        subst hcd
        rw [usedAt_cons_free a cs hcf, usedAt_cons_free a ds hcf] at h
        rw [ih hcs.2 hds.2 h]

/-! ## Joining two free blocks -/

/-- The block that covers `p` and the block `q` behind it. -/
def Chunk.join (p q : Chunk) : Chunk := { p with size := p.size + (16 + q.size) }

variable {p q : Chunk}

theorem span_join (xs ys : List Chunk) :
    span (xs ++ p.join q :: ys) = span (xs ++ p :: q :: ys) := by
  simp only [span_append, span_cons, Chunk.join]
  omega

/-- Joining free blocks leaves the payloads in use as they are. -/
theorem usedAt_join (a : ℕ) (xs ys : List Chunk) (hp : p.free = true) (hq : q.free = true) :
    usedAt a (xs ++ p.join q :: ys) = usedAt a (xs ++ p :: q :: ys) := by
  have hend : a + span xs + 16 + (p.size + (16 + q.size)) =
      a + span xs + 16 + p.size + 16 + q.size := by omega
  have hj : (p.join q).free = true := hp
  rw [usedAt_append, usedAt_append, usedAt_cons_free _ _ hj, usedAt_cons_free _ _ hp,
    usedAt_cons_free _ _ hq]
  exact congrArg (fun b => usedAt a xs ++ usedAt b ys) hend

/-- Joining blocks makes no header bytes. -/
theorem InHeader.of_join (h : InHeader a (xs ++ p.join q :: ys) x) :
    InHeader a (xs ++ p :: q :: ys) x := by
  rw [inHeader_append] at h ⊢
  rcases h with h | h | h
  · exact Or.inl h
  · exact Or.inr (Or.inl h)
  · refine Or.inr (Or.inr (Or.inr ?_))
    rwa [show a + span xs + 16 + (p.join q).size = a + span xs + 16 + p.size + 16 + q.size by
      simp only [Chunk.join]; omega] at h

end PenOS
