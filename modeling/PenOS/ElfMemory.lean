import PenOS.Elf
import PenOS.HeapLoans

/-!
# Loading without segments

A program with nothing to load leaves the traces of reading it: a buffer allocated, read through and
freed. `MemInv` survives that and the mapping of the user stack.
-/

namespace PenOS

open Finset List

variable {D : Type}
variable {a e i k n off r size virt : ℕ} {s : Paging D} {m : RecMem}

/-! ## Files without segments -/

namespace FileAnswer

/-- The number in `n` bytes of the file, least significant byte first. -/
def field (file : FileAnswer) : ℕ → ℕ → ℕ
  | 0, _ => 0
  | n + 1, off => (file.bytes.getD off 0).toNat + 256 * file.field n (off + 1)

/-- The offset of program header `i`. -/
def header (file : FileAnswer) (i : ℕ) : ℕ := file.field 4 28 + 32 * i

/-- Nothing is loaded: the file cannot be read, is not accepted, or has its headers inside and no
loadable one with bytes or pages. -/
def Segmentless (file : FileAnswer) : Prop :=
  file.bytes.length = file.size → elfValidate (fun k => file.bytes.getD k 0) file.size = true →
    ∀ i < file.field 2 44, file.header i + 32 ≤ file.size ∧
      (file.field 4 (file.header i) = 1 →
        file.field 4 (file.header i + 16) = 0 ∧ file.field 4 (file.header i + 20) = 0)

instance (file : FileAnswer) : Decidable file.Segmentless :=
  inferInstanceAs (Decidable (_ → _ → ∀ i < _, _ ∧ (_ → _)))

theorem field_lt (file : FileAnswer) (n off : ℕ) : file.field n off < 256 ^ n := by
  induction n generalizing off with
  | zero => exact Nat.one_pos
  | succ n ih =>
    have hbyte := (file.bytes.getD off 0).toNat_lt
    have hrest := ih (off + 1)
    rw [field, Nat.pow_succ]
    omega

end FileAnswer

/-! ## The file in its buffer -/

theorem pasteChunks_of_not_mem {x : ℕ} {cs : List (List UInt8)}
    (hx : x < a ∨ a + cs.flatten.length ≤ x) : (pasteChunks m a cs).bytes x = m.bytes x := by
  induction cs generalizing m a with
  | nil => rfl
  | cons c cs ih =>
    rw [flatten_cons, length_append] at hx
    rw [pasteChunks, ih (by omega), RecMem.bytes_paste, Mem.paste_of_not_mem (by omega)]

/-- The pieces make up the file. -/
theorem pasteChunks_bytes {cs : List (List UInt8)} (hk : k < cs.flatten.length) :
    (pasteChunks m a cs).bytes (a + k) = cs.flatten.getD k 0 := by
  induction cs generalizing m a k with
  | nil => exact absurd hk (Nat.not_lt_zero k)
  | cons c cs ih =>
    rw [flatten_cons, length_append] at hk
    rw [pasteChunks, flatten_cons]
    rcases Nat.lt_or_ge k c.length with hlt | hge
    · -- in the first piece, which the later ones leave alone
      rw [pasteChunks_of_not_mem (by omega), getD_append _ _ _ _ hlt, RecMem.bytes_paste,
        Mem.paste_of_mem (by omega) (by omega), Nat.add_sub_cancel_left]
    · obtain ⟨j, rfl⟩ := Nat.exists_eq_add_of_le hge
      rw [← Nat.add_assoc, ih (by omega), getD_append_right _ _ _ _ hge,
        Nat.add_sub_cancel_left]

/-- The buffer at `data` is in the mapped part of the window and holds the file. -/
structure Heap.Holds (h : Heap D) (data : ℕ) (file : FileAnswer) : Prop where
  lo : heapStart ≤ data
  hi : data + file.size ≤ h.heapMappedEnd
  mapped : h.heapMappedEnd ≤ heapEnd
  complete : file.bytes.length = file.size
  bytes : ∀ k < file.size, h.window.bytes (data + k) = file.bytes.getD k 0

variable [Disk D] {h h' : Heap D} {data : ℕ} {file : FileAnswer}

namespace Heap.Holds

/-- A field of the file is read from the buffer. -/
theorem loadBytes (hf : h.Holds data file) (hoff : off + n ≤ file.size) :
    h.loadBytes n (data + off) = .ok (h, file.field n off) := by
  induction n generalizing off with
  | zero => rfl
  | succ n ih =>
    have hlo := hf.lo
    have hhi := hf.hi
    have hmapped := hf.mapped
    have hlayout := heap_layout
    have hbyte : h.loadByte (data + off) = .ok (h, file.bytes.getD off 0) := by
      rw [Heap.loadByte, if_pos (by omega), hf.bytes off (by omega)]
    have hrest := ih (show off + 1 + n ≤ file.size by omega)
    rw [← Nat.add_assoc] at hrest
    rw [Heap.loadBytes, u32_of_lt (by omega)]
    simp only [hbyte, hrest, FileAnswer.field]

theorem loadSegment (hf : h.Holds data file) (hoff : off + 32 ≤ file.size)
    (hnone : file.field 4 off = 1 → file.field 4 (off + 16) = 0 ∧ file.field 4 (off + 20) = 0) :
    PenOS.loadSegment h data (data + off) = .ok h := by
  rw [PenOS.loadSegment, hf.loadBytes (by omega)]
  dsimp only
  split_ifs with htype
  · rfl
  obtain ⟨hfilesz, hmemsz⟩ := hnone (not_not.mp htype)
  have hread : ∀ k, k + 4 ≤ 32 →
      h.loadBytes 4 (data + off + k) = .ok (h, file.field 4 (off + k)) := fun k hk => by
    rw [Nat.add_assoc]
    exact hf.loadBytes (by omega)
  simp only [hread 8 (by decide), hread 20 (by decide), hread 16 (by decide), hmemsz, hfilesz]
  rfl

section

variable (hf : h.Holds data file) (hsize : 52 ≤ file.size)
  (hnone : ∀ i < file.field 2 44, file.header i + 32 ≤ file.size ∧
    (file.field 4 (file.header i) = 1 →
      file.field 4 (file.header i + 16) = 0 ∧ file.field 4 (file.header i + 20) = 0))

include hf hsize hnone

theorem loadSegments
    {fuel : ℕ} (hfuel : file.field 2 44 < fuel + i) :
    PenOS.loadSegments data (data + file.field 4 28) fuel i h = .ok h ∨ fuel = 0 := by
  induction fuel generalizing i with
  | zero => exact .inr rfl
  | succ fuel ih =>
    left
    rw [PenOS.loadSegments, hf.loadBytes (by omega)]
    dsimp only
    split_ifs with hi
    · obtain ⟨hfits, hload⟩ := hnone i hi
      rw [Nat.add_assoc data]
      rw [FileAnswer.header] at hfits hload
      rw [hf.loadSegment hfits hload]
      exact (ih (i := i + 1) (by omega)).resolve_right (by omega)
    · rfl

theorem elfLoadImage
    (hrun : PenOS.elfLoadImage h data = .ok (h', r, e)) :
    ∃ h1, h.kfree data = .ok h1 ∧ h1.loadBytes 4 (data + 24) = .ok (h', r) := by
  have hcount := file.field_lt 2 44
  have hloop := (hf.loadSegments hsize hnone
    (show file.field 2 44 < 65536 + 0 by omega)).resolve_right (by decide)
  rw [PenOS.elfLoadImage, hf.loadBytes (by omega)] at hrun
  dsimp only at hrun
  rw [hloop] at hrun
  dsimp only at hrun
  rw [hf.loadBytes (by omega)] at hrun
  dsimp only at hrun
  rcases hfree : h.kfree data with x | h1 <;> rw [hfree] at hrun
  · cases hrun
  dsimp only at hrun
  rcases hread : h1.loadBytes 4 (data + 24) with x | ⟨h2, b⟩ <;> rw [hread] at hrun
  · cases hrun
  obtain ⟨rfl, hout⟩ := ok_pair hrun
  obtain ⟨rfl, -⟩ := Prod.mk.inj hout
  exact ⟨h1, rfl, hread⟩

end

end Heap.Holds

/-! ## Reading where a page may be gone -/

omit [Disk D] in
theorem Paging.translate_of_zero
    (h : s.pte s.currentPd (pdIndex virt) (ptIndex virt) = 0) : s.translate virt = none := by
  rw [Paging.translate, Paging.findPageTable_eq]
  by_cases hp : s.entry s.currentPd (pdIndex virt) % 2 = 1
  · rw [Paging.pte_of_present hp] at h
    simp only [if_pos hp, h]
    rfl
  · simp only [if_neg hp]

theorem Heap.loadByte_same {b : UInt8} (hlo : heapStart ≤ virt) (hhi : virt < heapEnd)
    (hgone : h.heapMappedEnd ≤ virt →
      h.paging.pte h.paging.currentPd (pdIndex virt) (ptIndex virt) = 0)
    (hrun : h.loadByte virt = .ok (h', b)) : h' = h := by
  rw [Heap.loadByte] at hrun
  split_ifs at hrun with hin
  · exact (ok_pair hrun).1.symm
  have hlayout := heap_layout
  have hzero := hgone (by omega)
  have hfault : h.paging.pageFaultHandler virt 0 = .error .pageFault := by
    rw [Paging.pageFaultHandler_eq (by omega), hzero]
    rfl
  rw [Paging.translate_of_zero hzero] at hrun
  rw [hfault] at hrun
  cases hrun

theorem Heap.loadBytes_same (hlo : heapStart ≤ virt) (hhi : virt + n ≤ heapEnd)
    (hgone : ∀ v, h.heapMappedEnd ≤ v → v < virt + n →
      h.paging.pte h.paging.currentPd (pdIndex v) (ptIndex v) = 0)
    (hrun : h.loadBytes n virt = .ok (h', r)) : h' = h := by
  induction n generalizing virt r with
  | zero => exact (ok_pair hrun).1.symm
  | succ n ih =>
    have hlayout := heap_layout
    rw [Heap.loadBytes, u32_of_lt (by omega)] at hrun
    rcases hbyte : h.loadByte virt with e | ⟨h1, b⟩ <;> rw [hbyte] at hrun
    · cases hrun
    obtain rfl := Heap.loadByte_same hlo (by omega) (fun hv => hgone virt hv (by omega)) hbyte
    dsimp only at hrun
    rcases hrest : h1.loadBytes n (virt + 1) with e | ⟨h2, rest⟩ <;> rw [hrest] at hrun
    · cases hrun
    cases hrun
    exact ih (by omega) (by omega) (fun v hv hlt => hgone v hv (by omega)) hrest

/-! ## The loader -/

omit [Disk D] in
theorem Paging.plenty_of_card (hs : s.pmm.Inv)
    (hcard : k + 4 ≤ s.pmm.freeSet.card) : s.Plenty k := by
  have hmissing : s.missingTables.card ≤ 4 := card_filter_le _ _
  refine .inr ?_
  rw [hs.count]
  omega

/-- An accepted file has a header. -/
theorem le_of_elfValidate {d : ℕ → UInt8} (h : elfValidate d size = true) : 52 ≤ size := by
  simp only [elfValidate, Bool.and_eq_true, decide_eq_true_eq] at h
  exact h.1.1.1.1.1.1.1.1

theorem elfValidate_congr {d d' : ℕ → UInt8} (h : ∀ k < size, d k = d' k) :
    elfValidate d size = elfValidate d' size := by
  simp only [elfValidate]
  by_cases hsize : 52 ≤ size
  · rw [h 0 (by omega), h 1 (by omega), h 2 (by omega), h 3 (by omega), h 4 (by omega),
      h 5 (by omega), h 16 (by omega), h 17 (by omega), h 18 (by omega), h 19 (by omega)]
  · simp [hsize]

/-- The frames that reading and loading a file take at most. -/
def loadFrames : Option FileAnswer → ℕ
  | none => 12
  | some file => 2 * (file.size / 4096) + 12

namespace MemInv

variable {boot : ℕ} {live dirs : List ℕ} {allocs : List (ℕ × ℕ)} {cs : List Chunk}

/-- **`p9_read_file`**, without evicting: the buffer holds the file; once it is freed the heap is as
it was. -/
theorem readFile (hm : MemInv h boot live allocs) (hinv : h.Inv cs) {r : Option (ℕ × ℕ)}
    (hsup : Unevicted h file.size) (hdirs : dirs ⊆ live) (hmem : h.paging.currentPd ∈ dirs)
    (hrun : PenOS.readFile h (some file) = .ok (h', r)) : h.paging.SameRest h'.paging ∧
      h.paging.pmm.freeSet.card ≤ h'.paging.pmm.freeSet.card + 2 * (file.size / 4096 + 2) ∧
      (r = none ∧ MemInv h' boot live allocs ∧ h.Unspent h' live dirs cs ∨
        ∃ data, r = some (data, file.size) ∧ MemInv h' boot live ((data, file.size) :: allocs) ∧
          h'.Holds data file ∧ ∀ h1, h'.kfree data = .ok h1 → h.Unspent h1 live dirs cs ∧
            ∀ v, h1.heapMappedEnd ≤ v → v < h'.heapMappedEnd →
              h1.paging.pte h1.paging.currentPd (pdIndex v) (ptIndex v) = 0) := by
  have hsize := file.size_le
  have hlayout := heap_layout
  simp only [PenOS.readFile] at hrun
  rcases hk : h.kmalloc file.size with e | ⟨h1, data⟩ <;> rw [hk] at hrun
  · cases hrun
  obtain ⟨hm1, hkept, hcard1, -⟩ := hm.kmalloc (by omega) hsup hk
  dsimp only at hrun
  by_cases hdata : data = 0
  · rw [if_pos hdata] at hrun hm1
    obtain ⟨rfl, rfl⟩ := ok_pair hrun
    rcases hinv.kmalloc_ok (by omega) hk with ⟨-, rfl⟩ | ⟨ds, halloc⟩
    · exact ⟨.refl _, hcard1, .inl ⟨rfl, hm, .of_same hinv rfl rfl⟩⟩
    · exact absurd hdata halloc.nonnull
  rw [if_neg hdata] at hrun hm1
  -- the pieces are written into the block
  obtain ⟨ds, halloc, hloan⟩ := hm.loan hinv (by omega) hsup hdirs hmem hk hdata
  have hfits := file.fits
  have hm2 := hm1.writeIn (m := pasteChunks h1.window data file.chunks) List.mem_cons_self
    fun x hx => pasteChunks_of_not_mem (by omega)
  have hinv2 : Heap.Inv { h1 with window := pasteChunks h1.window data file.chunks } ds := by
    obtain ⟨ds', hs'⟩ := hm1.blocks
    obtain rfl := halloc.inv.unique hs'.inv
    exact (hs'.writeIn List.mem_cons_self fun x hx => pasteChunks_of_not_mem (by omega)).inv
  have hback := fun h3 => hloan { h1 with window := pasteChunks h1.window data file.chunks } h3
    (.of_same hinv2 rfl rfl) hkept.currentPd hm2
  split_ifs at hrun with hshort
  · -- the server sent less than it said: the buffer is freed
    rcases hfree : { h1 with window := pasteChunks h1.window data file.chunks }.kfree data with
      e | h3 <;> rw [hfree] at hrun
    · cases hrun
    obtain ⟨rfl, rfl⟩ := ok_pair hrun
    obtain ⟨hm3, hkept3, hsub⟩ := hm2.kfree List.mem_cons_self hfree
    rw [erase_cons_head] at hm3
    exact ⟨hkept.toSameRest.trans hkept3.toSameRest,
      hcard1.trans (Nat.add_le_add_right (card_le_card hsub) _),
      .inl ⟨rfl, hm3, (hback h3 hfree).1⟩⟩
  · obtain ⟨rfl, rfl⟩ := ok_pair hrun
    have hcomplete := not_not.mp hshort
    obtain ⟨hlo, hhi, hend⟩ := hm1.alloc_range List.mem_cons_self
    refine ⟨hkept.toSameRest, hcard1,
      .inr ⟨data, rfl, hm2, ⟨hlo, hhi, hend, hcomplete, ?_⟩, hback⟩⟩
    exact fun k hk => pasteChunks_bytes (by rw [← FileAnswer.bytes, hcomplete]; exact hk)

/-- **`elf_load`** of a file without segments, without evicting: whichever way it ends, the
heap is as it was. -/
theorem elfLoad (hm : MemInv h boot live allocs) (hinv : h.Inv cs) {file : Option FileAnswer}
    (hfile : ∀ f ∈ file, f.Segmentless) (hsup : ∀ f ∈ file, Unevicted h f.size)
    (hdirs : dirs ⊆ live) (hmem : h.paging.currentPd ∈ dirs)
    (hrun : PenOS.elfLoad h file = .ok (h', r, e)) :
    MemInv h' boot live allocs ∧ h.paging.SameRest h'.paging ∧
      h.paging.pmm.freeSet.card ≤ h'.paging.pmm.freeSet.card + loadFrames file ∧
      h.Unspent h' live dirs cs := by
  rcases file with _ | file
  · cases hrun
    exact ⟨hm, .refl _, Nat.le_add_right _ _, .of_same hinv rfl rfl⟩
  rw [loadFrames]
  rw [PenOS.elfLoad] at hrun
  rcases hread : PenOS.readFile h (some file) with x | ⟨h1, out⟩ <;> rw [hread] at hrun
  · cases hrun
  obtain ⟨hrest1, hcard1, ⟨rfl, hm1, hback⟩ | ⟨data, rfl, hm1, hf, hback⟩⟩ :=
    hm.readFile hinv (hsup file rfl) hdirs hmem hread
  · cases hrun
    exact ⟨hm1, hrest1, by omega, hback⟩
  -- the buffer is freed, and nothing happens afterwards
  have hfreed : h1.kfree data = .ok h' := by
    dsimp only at hrun
    split_ifs at hrun with hvalid
    · have hsize := le_of_elfValidate hvalid
      rw [elfValidate_congr hf.bytes] at hvalid
      obtain ⟨h2, hfree, hentry⟩ :=
        hf.elfLoadImage hsize (hfile file rfl hf.complete hvalid) hrun
      have hlo := hf.lo
      have hhi := hf.hi
      have hend := hf.mapped
      obtain rfl := Heap.loadBytes_same (by omega) (by omega)
        (fun v hv hlt => (hback h2 hfree).2 v hv (by omega)) hentry
      exact hfree
    · rcases hfree : h1.kfree data with x | h2 <;> rw [hfree] at hrun
      · cases hrun
      · rw [(ok_pair hrun).1]
  obtain ⟨hm2, hkept2, hsub⟩ := hm1.kfree List.mem_cons_self hfreed
  rw [erase_cons_head] at hm2
  have hcard2 := card_le_card hsub
  exact ⟨hm2, hrest1.trans hkept2.toSameRest, by omega, (hback h' hfreed).1⟩

end MemInv

/-! ## The user stack -/

/-- **The user stack**: its pages are new frames, with two frames at hand for each. -/
theorem Paging.PageInv.mapUserStack {s' : Paging D} {boot : ℕ} {live : List ℕ}
    {own : ℕ → Role} (hs : s.PageInv boot live own) (hcur : s.currentPd ∈ live) (hn : i + n ≤ 4)
    (hcard : 2 * n ≤ s.pmm.freeSet.card) (hrun : Sched.mapUserStack n i s = .ok s') :
    (∃ own', s'.PageInv boot live own') ∧ s.SameRest s' := by
  induction n generalizing s i own with
  | zero =>
    obtain rfl := Except.ok.inj hrun
    exact ⟨⟨own, hs⟩, .refl s⟩
  | succ n ih =>
    simp only [Sched.mapUserStack] at hrun
    rcases hmap : { s with pmm := (pmmAllocFrame s.pmm).1 }.pagingMap (0xBFFFF000 - i * 0x1000)
      (pmmAllocFrame s.pmm).2 (pagePresent ||| pageRw ||| pageUser) with e | s1 <;>
      rw [hmap] at hrun
    · cases hrun
    have hne : s.pmm.freeSet.Nonempty := Finset.card_pos.mp (by omega)
    have hready : s.Ready (0xBFFFF000 - i * 0x1000) := by
      refine .inr (Finset.card_pos.mp ?_)
      rw [pmmAllocFrame_of_nonempty hs.pmm hne, Pmm.freeSet_takeFrame,
        card_erase_of_mem (min'_mem _ hne)]
      omega
    have hpd : pdIndex (0xBFFFF000 - i * 0x1000) < 1023 := by
      rw [pdIndex]
      omega
    obtain ⟨own1, f, hg, -⟩ := hs.mapNew hcur hpd hne hready hmap
    have htwo := hg.card hs.toTableInv
    obtain ⟨hinv, hrest⟩ := ih hg.inv (hg.currentPd ▸ hcur) (by omega) (by omega) hrun
    exact ⟨hinv, hg.toSameRest.trans hrest⟩

/-- The user stack in the memory below the tasks. -/
theorem MemInv.mapUserStack {boot : ℕ} {live : List ℕ} {allocs : List (ℕ × ℕ)} {p : Paging D}
    (hm : MemInv h boot live allocs) (hcard : 8 ≤ h.paging.pmm.freeSet.card)
    (hrun : Sched.mapUserStack 4 0 h.paging = .ok p) :
    MemInv { h with paging := p } boot live allocs := by
  obtain ⟨own, hs⟩ := hm.pages
  obtain ⟨hpages, hrest⟩ := hs.mapUserStack hm.current (by decide) hcard hrun
  exact hm.withPaging hpages (hrest.hand.1 ▸ hm.hand) (hrest.currentPd ▸ hm.current)

end PenOS
