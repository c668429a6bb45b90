import PenOS.HeapSafe

/-!
# The live blocks of the heap

`Heap.liveBlocks` reads the live allocations off the headers: the blocks not marked free, in the
order of the list.
-/

namespace PenOS

open List

open Block

variable {D : Type}
variable {a n x : ℕ} {m : RecMem} {u v : ℕ × ℕ}

/-- The payloads (address, size) of the blocks in use from `block` on. -/
def liveFrom (m : RecMem) : ℕ → ℕ → List (ℕ × ℕ)
  | 0, _ => []
  | n + 1, block =>
    if block = 0 then []
    else if free m block ≠ 0 then liveFrom m n (next m block)
    else (block + blockOverhead, size m block) :: liveFrom m n (next m block)

namespace Heap

/-- The list of live blocks. -/
def liveBlocks (h : Heap D) : List (ℕ × ℕ) := liveFrom h.window heapFuel h.heapHead

/-- The block list is in order. -/
def Sound (h : Heap D) : Prop := ∃ cs, h.Inv cs

variable {h h' : Heap D} {cs : List Chunk} {p k want : ℕ}

theorem liveFrom_eq {prev fuel : ℕ} (hc : Chain m.bytes 0 prev a cs) (ha : a ≠ 0)
    (hfuel : cs.length < fuel) : liveFrom m fuel (headPtr a 0 cs) = usedAt a cs := by
  induction cs generalizing a prev fuel with
  | nil =>
    obtain ⟨n, rfl⟩ := Nat.exists_eq_add_of_lt hfuel
    rfl
  | cons c cs ih =>
    obtain ⟨n, rfl⟩ := Nat.exists_eq_add_of_lt hfuel
    have hrest := ih hc.2 (by omega) (show cs.length < (c :: cs).length + n by
      rw [length_cons]
      omega)
    rw [headPtr_cons, liveFrom, if_neg ha, hc.1.blockNext, hc.1.blockSize, hrest]
    rcases hf : c.free with _ | _
    · rw [if_neg (by rw [hc.1.blockFree, hf]; decide), usedAt_cons_used _ _ hf]
    · rw [if_pos (hc.1.blockFree.mpr hf), usedAt_cons_free _ _ hf]

theorem Inv.liveBlocks_eq (hinv : h.Inv cs) : h.liveBlocks = usedAt heapStart cs := by
  rw [liveBlocks, hinv.head, liveFrom_eq hinv.chain (by decide) (length_lt_fuel hinv.fits)]

/-! ## Where live blocks are -/

theorem Sound.live_mapped (hs : h.Sound) (hu : u ∈ h.liveBlocks) :
    heapStart < u.1 ∧ u.1 + u.2 ≤ h.heapMappedEnd ∧ h.heapMappedEnd ≤ heapEnd := by
  obtain ⟨cs, hinv⟩ := hs
  rw [hinv.liveBlocks_eq] at hu
  have hrange := usedAt_range hu
  have hcurr := hinv.curr
  have hmapped := hinv.mapped
  have hfits := hinv.fits
  have hlayout := heap_layout
  omega

/-- Live blocks do not overlap. -/
theorem Sound.live_apart (hs : h.Sound) (hu : u ∈ h.liveBlocks)
    (hv : v ∈ h.liveBlocks) (hne : u ≠ v) : u.1 + u.2 ≤ v.1 ∨ v.1 + v.2 ≤ u.1 := by
  obtain ⟨cs, hinv⟩ := hs
  rw [hinv.liveBlocks_eq] at hu hv
  have hapart := usedAt_apart hu hv hne
  omega

/-- A live block has an address of its own. -/
theorem Sound.live_inj (hs : h.Sound) (hu : u ∈ h.liveBlocks)
    (hv : v ∈ h.liveBlocks) (heq : u.1 = v.1) : u = v := by
  obtain ⟨cs, hinv⟩ := hs
  rw [hinv.liveBlocks_eq] at hu hv
  by_contra hne
  have hapart := usedAt_apart hu hv hne
  omega

theorem Sound.live_nodup (hs : h.Sound) : h.liveBlocks.Nodup := by
  obtain ⟨cs, hinv⟩ := hs
  rw [hinv.liveBlocks_eq]
  refine (usedAt_pairwise heapStart cs).imp fun hlt heq => ?_
  rw [heq] at hlt
  omega

/-! ## The calls -/

theorem inv_heapInit (h : Heap D) : h.heapInit.Inv [] :=
  ⟨rfl, trivial, rfl, fun c hc => absurd hc not_mem_nil, trivial, Nat.zero_le _,
    show heapStart = (heapStart + 4095) / 4096 * 4096 by decide⟩

theorem Sound.start (h : Heap D) : h.heapInit.Sound ∧ h.heapInit.liveBlocks = [] :=
  ⟨⟨[], h.inv_heapInit⟩, h.inv_heapInit.liveBlocks_eq⟩

/-- The blocks do not depend on the paging layer. -/
theorem Sound.withPaging (hs : h.Sound) (q : Paging D) : Sound { h with paging := q } := by
  obtain ⟨cs, hinv⟩ := hs
  exact ⟨cs, hinv.head, hinv.chain, hinv.curr, hinv.sizes, hinv.settled, hinv.fits, hinv.mapped⟩

/-- The bytes from `a` on belong to a live block, or are not in the window at all. -/
def Owned (h : Heap D) (a n : ℕ) : Prop :=
  a + n ≤ heapStart ∨ ∃ u ∈ h.liveBlocks, u.1 ≤ a ∧ a + n ≤ u.1 + u.2

theorem Inv.write (hinv : h.Inv cs) (ho : h.Owned a n)
    (hm : ∀ x, x < a ∨ a + n ≤ x → m.bytes x = h.window.bytes x) :
    Inv { h with window := m } cs := by
  refine ⟨hinv.head, hinv.chain.congr fun x hx => hm x ?_, hinv.curr, hinv.sizes, hinv.settled,
    hinv.fits, hinv.mapped⟩
  by_contra hin
  rcases ho with hlow | ⟨u, hu, h1, h2⟩
  · have := hx.range.1
    omega
  · rw [hinv.liveBlocks_eq] at hu
    exact hx.not_inUsed ⟨u, hu, by omega, by omega⟩

theorem Sound.write (hs : h.Sound) (ho : h.Owned a n)
    (hm : ∀ x, x < a ∨ a + n ≤ x → m.bytes x = h.window.bytes x) :
    Sound { h with window := m } ∧ liveBlocks { h with window := m } = h.liveBlocks := by
  obtain ⟨cs, hinv⟩ := hs
  have hinv' := hinv.write ho hm
  exact ⟨⟨cs, hinv'⟩, hinv'.liveBlocks_eq.trans hinv.liveBlocks_eq.symm⟩

theorem Owned.mono {n' a' : ℕ} (ho : h.Owned a n) (hlo : a ≤ a')
    (hhi : a' + n' ≤ a + n) : h.Owned a' n' := by
  rcases ho with hlow | ⟨u, hu, h1, h2⟩
  · exact .inl (by omega)
  · exact .inr ⟨u, hu, by omega, by omega⟩

/-- **`kfree`** of a live block takes it out of the list. -/
theorem Sound.kfree (hs : h.Sound) (hu : (p, k) ∈ h.liveBlocks) (hrun : h.kfree p = .ok h') :
    h'.Sound ∧ h'.liveBlocks = h.liveBlocks.erase (p, k) := by
  have hnodup := hs.live_nodup
  obtain ⟨cs, hinv⟩ := hs
  rw [hinv.liveBlocks_eq] at hu hnodup ⊢
  obtain ⟨xs, c, ys, rfl, hc, hpk⟩ := exists_of_mem_usedAt hu
  cases hpk
  obtain ⟨h1, ds, hrun1, hinv1, hused, -⟩ := hinv.kfree hc
  obtain rfl := Except.ok.inj (hrun1.symm.trans hrun)
  refine ⟨⟨ds, hinv1⟩, ?_⟩
  rw [usedAt_append, usedAt_cons_used _ _ hc] at hnodup ⊢
  rw [hinv1.liveBlocks_eq, hused, erase_append_right _ fun hmem =>
    (List.nodup_append.mp hnodup).2.2 _ hmem _ mem_cons_self rfl, erase_cons_head]

/-- The block `(p, k)` was put into the list. -/
def Took (h h' : Heap D) (p k : ℕ) : Prop :=
  ∃ us vs, h.liveBlocks = us ++ vs ∧ h'.liveBlocks = us ++ (p, k) :: vs

theorem Took.mem_iff (ht : h.Took h' p k) : u ∈ h'.liveBlocks ↔ u = (p, k) ∨ u ∈ h.liveBlocks := by
  obtain ⟨us, vs, hus, hvs⟩ := ht
  rw [hus, hvs]
  simp only [mem_append, mem_cons]
  tauto

theorem Took.mem (ht : h.Took h' p k) : (p, k) ∈ h'.liveBlocks := ht.mem_iff.mpr (.inl rfl)

theorem Took.subset (ht : h.Took h' p k) : ∀ u ∈ h.liveBlocks, u ∈ h'.liveBlocks := fun _ hu =>
  ht.mem_iff.mpr (.inr hu)

theorem Took.length_eq (ht : h.Took h' p k) : h'.liveBlocks.length = h.liveBlocks.length + 1 := by
  obtain ⟨us, vs, hus, hvs⟩ := ht
  rw [hus, hvs, length_append, length_append, length_cons, Nat.add_assoc]

/-- Taking the block out again gives the list back. -/
theorem Took.erase (ht : h.Took h' p k) (hs : h'.Sound) :
    h'.liveBlocks.erase (p, k) = h.liveBlocks := by
  have hnodup := hs.live_nodup
  obtain ⟨us, vs, hus, hvs⟩ := ht
  rw [hvs] at hnodup ⊢
  rw [hus, erase_append_right _ fun hmem =>
    (List.nodup_append.mp hnodup).2.2 _ hmem _ mem_cons_self rfl, erase_cons_head]

/-- The address was not in use before. -/
theorem Took.fresh (ht : h.Took h' p k) (hs : h'.Sound) (hu : u ∈ h.liveBlocks) : u.1 ≠ p := by
  intro heq
  have hsame := hs.live_inj (ht.subset u hu) ht.mem heq
  have hnodup := hs.live_nodup
  obtain ⟨us, vs, hus, hvs⟩ := ht
  rw [hsame, hus] at hu
  rw [hvs] at hnodup
  obtain ⟨-, hright, hcross⟩ := List.nodup_append.mp hnodup
  rcases List.mem_append.mp hu with hmem | hmem
  · exact hcross _ hmem _ mem_cons_self rfl
  · exact (List.nodup_cons.mp hright).1 hmem

/-- **`kmalloc`** puts a block into the list, or returns `NULL` and changes nothing. -/
theorem Sound.kmalloc [Disk D] (hs : h.Sound) (hwant : want ≤ heapSize)
    (hrun : h.kmalloc want = .ok (h', p)) :
    p = 0 ∧ h' = h ∨ p ≠ 0 ∧ h'.Sound ∧ ∃ k, want ≤ k ∧ h.Took h' p k := by
  obtain ⟨cs, hinv⟩ := hs
  rcases hinv.kmalloc_ok hwant hrun with hnull | ⟨ds, hinv', hp, ⟨us, vs, k, hk, hcs, hds⟩, -⟩
  · exact .inl hnull
  · exact .inr ⟨hp, ⟨ds, hinv'⟩, k, hk, us, vs, hinv.liveBlocks_eq.trans hcs,
      hinv'.liveBlocks_eq.trans hds⟩

/-- Neither call writes to a live block. -/
theorem Sound.kmalloc_bytes [Disk D] (hs : h.Sound) (hwant : want ≤ heapSize)
    (hrun : h.kmalloc want = .ok (h', p)) (hu : u ∈ h.liveBlocks)
    (hlo : u.1 ≤ x) (hhi : x < u.1 + u.2) : h'.window.bytes x = h.window.bytes x := by
  obtain ⟨cs, hinv⟩ := hs
  rw [hinv.liveBlocks_eq] at hu
  rcases hinv.kmalloc_ok hwant hrun with ⟨-, rfl⟩ | ⟨ds, halloc⟩
  · rfl
  · exact halloc.confined.bytes_eq x fun hx => hx ⟨u, hu, hlo, hhi⟩

theorem Sound.kfree_bytes (hs : h.Sound) (hp : (p, k) ∈ h.liveBlocks) (hrun : h.kfree p = .ok h')
    (hu : u ∈ h.liveBlocks) (hlo : u.1 ≤ x) (hhi : x < u.1 + u.2) :
    h'.window.bytes x = h.window.bytes x := by
  obtain ⟨cs, hinv⟩ := hs
  rw [hinv.liveBlocks_eq] at hu hp
  obtain ⟨h1, ds, hrun1, -, -, hconf⟩ := hinv.kfree_used hp
  obtain rfl := Except.ok.inj (hrun1.symm.trans hrun)
  exact hconf.bytes_eq x fun hx => hx.not_inUsed ⟨u, hu, hlo, hhi⟩

end Heap

end PenOS
