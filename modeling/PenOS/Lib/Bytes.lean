import PenOS.Lib.Word

/-!
# Byte-addressed memory

A memory gives every address a byte; words are four bytes, least significant first. A store has two
facts: what is read back at the same address, and that a word apart from it is unchanged.
-/

namespace PenOS

variable {a b n v x : ℕ} {data : ℕ → UInt8}

/-- A byte-addressed memory. -/
abbrev Mem : Type := ℕ → UInt8

namespace Mem

/-- Byte `k` of the word `v`. -/
def byteOf (v k : ℕ) : UInt8 := UInt8.ofNat (v / 256 ^ k)

/-- Read the 32-bit word at `a`. -/
def load32 (m : Mem) (a : ℕ) : ℕ :=
  (m a).toNat + 256 * (m (a + 1)).toNat + 65536 * (m (a + 2)).toNat +
    16777216 * (m (a + 3)).toNat

/-- Write the 32-bit word `v` at `a`. -/
def store32 (m : Mem) (a v : ℕ) : Mem := fun x =>
  if a ≤ x ∧ x < a + 4 then byteOf v (x - a) else m x

/-- Set the `n` bytes from `a` on to `b`. -/
def fill (m : Mem) (a n : ℕ) (b : UInt8) : Mem := fun x =>
  if a ≤ x ∧ x < a + n then b else m x

/-- Overwrite the `n` bytes from `a` on with `data`. -/
def paste (m : Mem) (a n : ℕ) (data : ℕ → UInt8) : Mem := fun x =>
  if a ≤ x ∧ x < a + n then data (x - a) else m x

theorem load32_lt (m : Mem) (a : ℕ) : load32 m a < 4294967296 := by
  have h0 := (m a).toNat_lt
  have h1 := (m (a + 1)).toNat_lt
  have h2 := (m (a + 2)).toNat_lt
  have h3 := (m (a + 3)).toNat_lt
  unfold load32
  omega

/-- Memories that agree on the four bytes of a word hold the same word. -/
theorem load32_congr {m m' : Mem} (h : ∀ x, a ≤ x → x < a + 4 → m' x = m x) :
    load32 m' a = load32 m a := by
  unfold load32
  rw [h a (by omega) (by omega), h (a + 1) (by omega) (by omega),
    h (a + 2) (by omega) (by omega), h (a + 3) (by omega) (by omega)]

theorem store32_of_not_mem {m : Mem} (h : x < a ∨ a + 4 ≤ x) : store32 m a v x = m x := by
  unfold store32
  rw [if_neg (by omega)]

theorem fill_of_not_mem {m : Mem} {b : UInt8} (h : x < a ∨ a + n ≤ x) : fill m a n b x = m x := by
  unfold fill
  rw [if_neg (by omega)]

theorem fill_of_mem {m : Mem} {b : UInt8} (ha : a ≤ x) (hn : x < a + n) :
    fill m a n b x = b := if_pos ⟨ha, hn⟩

theorem paste_of_not_mem {m : Mem} (h : x < a ∨ a + n ≤ x) : paste m a n data x = m x := by
  unfold paste
  rw [if_neg (by omega)]

theorem paste_of_mem {m : Mem} (ha : a ≤ x)
    (hn : x < a + n) : paste m a n data x = data (x - a) := if_pos ⟨ha, hn⟩

/-- Four bytes make up a word. -/
theorem load32_of_bytes {m : Mem} (h0 : m a = byteOf v 0) (h1 : m (a + 1) = byteOf v 1)
    (h2 : m (a + 2) = byteOf v 2) (h3 : m (a + 3) = byteOf v 3) : load32 m a = u32 v := by
  rw [load32, h0, h1, h2, h3]
  simp only [byteOf, UInt8.toNat_ofNat', u32]
  omega

/-- A stored word is read back. -/
theorem load32_store32_self (m : Mem) (a v : ℕ) : load32 (store32 m a v) a = u32 v := by
  have hb : ∀ k, k < 4 → store32 m a v (a + k) = byteOf v k := by
    intro k hk
    unfold store32
    rw [if_pos (by omega)]
    congr 1
    omega
  exact load32_of_bytes (hb 0 (by decide)) (hb 1 (by decide)) (hb 2 (by decide)) (hb 3 (by decide))

/-- A store leaves the words apart from it alone. -/
theorem load32_store32_of_apart {m : Mem} (h : b + 4 ≤ a ∨ a + 4 ≤ b) :
    load32 (store32 m a v) b = load32 m b :=
  load32_congr fun _ hx hx' => store32_of_not_mem (by omega)

/-- A word inside a zeroed range reads zero. -/
theorem load32_fill_zero {m : Mem} (ha : a ≤ b) (hb : b + 4 ≤ a + n) :
    load32 (fill m a n 0) b = 0 := by
  have hz : ∀ k, k < 4 → fill m a n 0 (b + k) = 0 := by
    intro k hk
    unfold fill
    rw [if_pos (by omega)]
  have h0 : fill m a n 0 b = 0 := hz 0 (by decide)
  unfold load32
  rw [h0, hz 1 (by decide), hz 2 (by decide), hz 3 (by decide)]
  rfl

end Mem

/-! ## Memory that records its writes

`RecMem` keeps the ranges written, newest first; `Confined P` says that all of them lie in `P`. -/

/-- A memory with the ranges (address, length) written so far. -/
structure RecMem where
  bytes : Mem
  writes : List (ℕ × ℕ)

namespace RecMem

/-- Read the 32-bit word at `a`. -/
def load32 (m : RecMem) (a : ℕ) : ℕ := m.bytes.load32 a

/-- Write the 32-bit word `v` at `a`. -/
def store32 (m : RecMem) (a v : ℕ) : RecMem := ⟨m.bytes.store32 a v, (a, 4) :: m.writes⟩

/-- Set the `n` bytes from `a` on to `b`. -/
def fill (m : RecMem) (a n : ℕ) (b : UInt8) : RecMem := ⟨m.bytes.fill a n b, (a, n) :: m.writes⟩

/-- Overwrite the `n` bytes from `a` on with `data`. -/
def paste (m : RecMem) (a n : ℕ) (data : ℕ → UInt8) : RecMem :=
  ⟨m.bytes.paste a n data, (a, n) :: m.writes⟩

@[simp] theorem bytes_store32 (m : RecMem) (a v : ℕ) :
    (m.store32 a v).bytes = m.bytes.store32 a v := rfl

@[simp] theorem bytes_fill (m : RecMem) (a n : ℕ) (b : UInt8) :
    (m.fill a n b).bytes = m.bytes.fill a n b := rfl

@[simp] theorem bytes_paste (m : RecMem) (a n : ℕ) (data : ℕ → UInt8) :
    (m.paste a n data).bytes = m.bytes.paste a n data := rfl

/-- Everything written on the way from `m` to `m'` lies in `P`. -/
structure Confined (P : ℕ → Prop) (m m' : RecMem) : Prop where
  log : ∃ ws, m'.writes = ws ++ m.writes ∧ ∀ w ∈ ws, ∀ x, w.1 ≤ x → x < w.1 + w.2 → P x
  bytes_eq : ∀ x, ¬ P x → m'.bytes x = m.bytes x

variable {P Q : ℕ → Prop} {m m' m'' : RecMem}

theorem Confined.refl (P : ℕ → Prop) (m : RecMem) : Confined P m m :=
  ⟨⟨[], rfl, fun _ h => absurd h List.not_mem_nil⟩, fun _ _ => rfl⟩

theorem Confined.trans (h : Confined P m m') (h' : Confined P m' m'') : Confined P m m'' := by
  obtain ⟨⟨ws, hw, hP⟩, hb⟩ := h
  obtain ⟨⟨ws', hw', hP'⟩, hb'⟩ := h'
  refine ⟨⟨ws' ++ ws, by rw [hw', hw, List.append_assoc], fun w hmem => ?_⟩,
    fun x hx => (hb' x hx).trans (hb x hx)⟩
  rcases List.mem_append.mp hmem with h | h
  · exact hP' w h
  · exact hP w h

theorem Confined.mono (h : Confined P m m') (hPQ : ∀ x, P x → Q x) : Confined Q m m' := by
  obtain ⟨⟨ws, hw, hP⟩, hb⟩ := h
  exact ⟨⟨ws, hw, fun w hmem x h1 h2 => hPQ x (hP w hmem x h1 h2)⟩,
    fun x hx => hb x fun hp => hx (hPQ x hp)⟩

theorem confined_store32 (v : ℕ) (h : ∀ x, a ≤ x → x < a + 4 → P x) :
    Confined P m (m.store32 a v) := by
  refine ⟨⟨[(a, 4)], rfl, fun w hw => ?_⟩, fun x hx => Mem.store32_of_not_mem ?_⟩
  · obtain rfl := List.mem_singleton.mp hw
    exact h
  · by_contra hc
    exact hx (h x (by omega) (by omega))

theorem confined_fill (b : UInt8) (h : ∀ x, a ≤ x → x < a + n → P x) :
    Confined P m (m.fill a n b) := by
  refine ⟨⟨[(a, n)], rfl, fun w hw => ?_⟩, fun x hx => Mem.fill_of_not_mem ?_⟩
  · obtain rfl := List.mem_singleton.mp hw
    exact h
  · by_contra hc
    exact hx (h x (by omega) (by omega))

theorem Confined.store32 (h : Confined P m m') (v : ℕ)
    (ha : ∀ x, a ≤ x → x < a + 4 → P x) : Confined P m (m'.store32 a v) :=
  h.trans (confined_store32 v ha)

end RecMem

end PenOS
