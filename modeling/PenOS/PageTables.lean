import PenOS.PageEntry
import PenOS.PmmSet

/-!
# Directories and tables as owners of frames

Writing one word changes one translation because a frame has a single role: free, a directory, or
the table behind one entry. The roles are a function `own : ℕ → Role`, not part of the machine;
`TableInv` says that the memory agrees with them. Kernel tables are shared, so only the role of a
user table names its directory.
-/

namespace PenOS

open Finset Function

variable {d d' d0 f i i' i0 j k v virt : ℕ}

/-- What a frame is used for. -/
inductive Role : Type where
  /-- free in the frame manager -/
  | free : Role
  /-- a page directory -/
  | directory : Role
  /-- the table behind entry `i < 768` of the directory at `d` -/
  | userTable (d i : ℕ) : Role
  /-- a table behind entry `i ≥ 768`, shared -/
  | kernelTable (i : ℕ) : Role
  /-- the page behind entry `j` of table `i < 768` of the directory at `d` -/
  | userPage (d i j : ℕ) : Role
  /-- the page behind entry `j` of the shared table in frame `t` -/
  | kernelPage (t j : ℕ) : Role
  /-- any other use, and frames the manager does not hand out -/
  | other : Role
  deriving DecidableEq

/-- The role of the table behind directory entry `i` of `d`. -/
def tableRole (d i : ℕ) : Role := if i < 768 then .userTable d i else .kernelTable i

theorem tableRole_ne_free (d i : ℕ) : tableRole d i ≠ .free := by
  unfold tableRole
  split <;> exact Role.noConfusion

theorem tableRole_ne_directory (d i : ℕ) : tableRole d i ≠ .directory := by
  unfold tableRole
  split <;> exact Role.noConfusion

/-- A table role determines the directory entry. -/
theorem tableRole_inj (h : tableRole d i = tableRole d' i') : i = i' ∧ (i < 768 → d = d') := by
  unfold tableRole at h
  split at h <;> split at h
  · cases h
    exact ⟨rfl, fun _ => rfl⟩
  · cases h
  · cases h
  · cases h
    exact ⟨rfl, fun h' => absurd h' (by omega)⟩

/-- Neither a directory nor a table: the frame holds no entries. -/
def Role.Loose : Role → Prop
  | .directory => False
  | .userTable _ _ => False
  | .kernelTable _ => False
  | _ => True

theorem Role.Loose.ne_directory {r : Role} (h : r.Loose) : r ≠ .directory := by
  rintro rfl
  exact h

theorem Role.Loose.ne_table {r : Role} (h : r.Loose) (d i : ℕ) : r ≠ tableRole d i := by
  rintro rfl
  simp only [tableRole] at h
  split at h <;> exact h

namespace Paging

variable {D : Type}

/-- The page-table word for page `(i, j)` in directory `d`; `0` when there is no table. -/
def pte (s : Paging D) (d i j : ℕ) : ℕ :=
  if s.entry d i % 2 = 1 then s.entry (s.entry d i / 4096 * 4096) j else 0

theorem pte_of_present {s : Paging D} (h : s.entry d i % 2 = 1) (j : ℕ) :
    s.pte d i j = s.entry (s.entry d i / 4096 * 4096) j := if_pos h

theorem pte_of_absent {s : Paging D} (h : s.entry d i % 2 ≠ 1) (j : ℕ) : s.pte d i j = 0 := if_neg h

theorem pte_lt (s : Paging D) (d i j : ℕ) : s.pte d i j < 4294967296 := by
  unfold pte
  split
  · exact s.entry_lt _ _
  · decide

theorem findPageTable_eq (s : Paging D) (virt : ℕ) : s.findPageTable virt =
      if s.entry s.currentPd (pdIndex virt) % 2 = 1 then
        some (s.entry s.currentPd (pdIndex virt) / 4096 * 4096) else none := by
  unfold findPageTable
  simp only [hasFlag_present, frameOf_entry]
  by_cases h : s.entry s.currentPd (pdIndex virt) % 2 = 1 <;> simp [h]

/-- Translation reads one page-table word. -/
theorem pagingVirtToPhys_eq (s : Paging D) (virt : ℕ) : s.pagingVirtToPhys virt =
      if s.pte s.currentPd (pdIndex virt) (ptIndex virt) % 2 = 1 then
        s.pte s.currentPd (pdIndex virt) (ptIndex virt) / 4096 * 4096 + virt % 4096 else 0 := by
  unfold pagingVirtToPhys
  rw [findPageTable_eq]
  by_cases h : s.entry s.currentPd (pdIndex virt) % 2 = 1
  · rw [if_pos h, pte_of_present h]
    simp only [hasFlag_present, frameOf_entry, and_offsetMask]
    rw [or_offset _ (Nat.mod_lt _ (by decide))]
    split <;> simp_all
  · rw [if_neg h, pte_of_absent h]
    rfl

/-- The memory agrees with the roles of the frames, for the directories `live`. -/
structure TableInv (s : Paging D) (live : List ℕ) (own : ℕ → Role) : Prop where
  pmm : s.pmm.Inv
  free_iff : ∀ f, own f = .free ↔ f ∈ s.pmm.freeSet
  /-- a frame the manager does not hand out has no role here -/
  unmanaged : ∀ f, f < s.pmm.baseUsableFrame ∨ s.pmm.totalFrames ≤ f → own f = .other
  dir_aligned : ∀ d ∈ live, d % 4096 = 0
  dir_own : ∀ d ∈ live, own (d / 4096) = .directory
  table_own : ∀ d ∈ live, ∀ i < 1023, s.entry d i % 2 = 1 →
    own (s.entry d i / 4096) = tableRole d i

variable {s : Paging D} {live : List ℕ} {own : ℕ → Role}

section

variable (hs : s.TableInv live own)

include hs

/-- A table is not a directory. -/
theorem TableInv.table_ne_dir (hd : d ∈ live) (hi : i < 1023)
    (hp : s.entry d i % 2 = 1) (hd' : d' ∈ live) : d' ≠ s.entry d i / 4096 * 4096 := by
  intro heq
  have h := hs.table_own d hd i hi hp
  have h' := hs.dir_own d' hd'
  rw [show d' / 4096 = s.entry d i / 4096 by omega] at h'
  exact tableRole_ne_directory d i (h.symm.trans h')

/-- Tables of different entries are different frames. -/
theorem TableInv.table_inj (hd : d ∈ live)
    (hd' : d' ∈ live) (hi : i < 1023) (hi' : i' < 1023) (hp : s.entry d i % 2 = 1)
    (hp' : s.entry d' i' % 2 = 1) (h : s.entry d i / 4096 = s.entry d' i' / 4096) :
    i = i' ∧ (i < 768 → d = d') := by
  have h1 := hs.table_own d hd i hi hp
  have h2 := hs.table_own d' hd' i' hi' hp'
  rw [h] at h1
  exact tableRole_inj (h1.symm.trans h2)

/-- A free frame is neither a directory nor a table. -/
theorem TableInv.free_apart (hf : f ∈ s.pmm.freeSet) (hd : d ∈ live) :
    d ≠ f * 4096 ∧ ∀ i < 1023, s.entry d i % 2 = 1 → s.entry d i / 4096 ≠ f := by
  have hfree := (hs.free_iff f).mpr hf
  constructor
  · intro heq
    have h := hs.dir_own d hd
    rw [heq, frame_div, hfree] at h
    cases h
  · intro i hi hp heq
    have h := hs.table_own d hd i hi hp
    rw [heq, hfree] at h
    exact tableRole_ne_free d i h.symm

/-- A frame with a role comes from the manager. -/
theorem TableInv.managed (h : own f ≠ .other) :
    s.pmm.baseUsableFrame ≤ f ∧ f < s.pmm.totalFrames := by
  by_contra hout
  exact h (hs.unmanaged f (by omega))

/-- Giving a role to a frame of the manager, or taking it away. -/
theorem TableInv.unmanaged_update {r : Role}
    (h : s.pmm.baseUsableFrame ≤ f ∧ f < s.pmm.totalFrames ∨ r = .other) (g : ℕ)
    (hg : g < s.pmm.baseUsableFrame ∨ s.pmm.totalFrames ≤ g) :
    Function.update own f r g = .other := by
  by_cases hgf : g = f
  · subst hgf
    rw [update_self]
    exact h.resolve_left (by omega)
  · rw [update_of_ne hgf]
    exact hs.unmanaged g hg

/-! ## Writing a page-table word -/

section

variable (hd0 : d0 ∈ live) (hi0 : i0 < 1023) (hk : k < 1024) (hp : s.entry d0 i0 % 2 = 1)

include hd0 hi0 hk hp

/-- Writing word `k` of the table behind entry `i₀` of `d₀`. -/
theorem TableInv.entry_setPte (hd : d ∈ live) (hi : i < 1024) :
    (s.setEntry (s.entry d0 i0 / 4096 * 4096) k v).entry d i = s.entry d i :=
  entry_setEntry_of_ne s v (by omega) (hs.dir_aligned d hd) hk hi
    (.inl (hs.table_ne_dir hd0 hi0 hp hd))

theorem TableInv.setPte :
    (s.setEntry (s.entry d0 i0 / 4096 * 4096) k v).TableInv live own := by
  refine ⟨hs.pmm, hs.free_iff, hs.unmanaged, hs.dir_aligned, hs.dir_own, fun d hd i hi hpi => ?_⟩
  rw [hs.entry_setPte hd0 hi0 hk hp hd (by omega)] at hpi ⊢
  exact hs.table_own d hd i hi hpi

/-- **One word, one translation**: the write is seen at index `k` through the
entries that share the table, and nowhere else. -/
theorem TableInv.pte_setPte (hd : d ∈ live)
    (hi : i < 1023) (hj : j < 1024) : (s.setEntry (s.entry d0 i0 / 4096 * 4096) k v).pte d i j =
      if j = k ∧ s.entry d i % 2 = 1 ∧ s.entry d i / 4096 = s.entry d0 i0 / 4096 then u32 v
      else s.pte d i j := by
  have he := hs.entry_setPte (v := v) hd0 hi0 hk hp hd (i := i) (by omega)
  by_cases hpi : s.entry d i % 2 = 1
  · rw [pte_of_present (by rw [he]; exact hpi), he]
    by_cases hsame : s.entry d i / 4096 = s.entry d0 i0 / 4096
    · rw [hsame]
      by_cases hjk : j = k
      · rw [if_pos ⟨hjk, hpi, rfl⟩, hjk]
        exact entry_setEntry_self _ _ _ _
      · rw [if_neg (by tauto), pte_of_present hpi, hsame]
        exact entry_setEntry_of_ne s v (by omega) (by omega) hk hj (.inr hjk)
    · rw [if_neg (by tauto), pte_of_present hpi]
      exact entry_setEntry_of_ne s v (by omega) (by omega) hk hj (.inl (by omega))
  · rw [pte_of_absent (by rw [he]; exact hpi), if_neg (by tauto), pte_of_absent hpi]

theorem TableInv.pte_setPte_of_ne (hd : d ∈ live)
    (hi : i < 1023) (hj : j < 1024) (hne : i ≠ i0 ∨ j ≠ k) :
    (s.setEntry (s.entry d0 i0 / 4096 * 4096) k v).pte d i j = s.pte d i j := by
  rw [hs.pte_setPte hd0 hi0 hk hp hd hi hj]
  refine if_neg ?_
  rintro ⟨hjk, hpi, hsame⟩
  have := (hs.table_inj hd hd0 hi hi0 hpi hp hsame).1
  omega

end

end

/-! ## Making a table on demand -/

/-- Besides memory and the set of free frames nothing has changed. -/
structure SameRest (s s' : Paging D) : Prop where
  currentPd : s'.currentPd = s.currentPd
  swap : s'.swap = s.swap
  hand : s'.evictPdIdx = s.evictPdIdx ∧ s'.evictPtIdx = s.evictPtIdx
  range : s'.pmm.baseUsableFrame = s.pmm.baseUsableFrame ∧ s'.pmm.totalFrames = s.pmm.totalFrames

theorem SameRest.refl (s : Paging D) : s.SameRest s := ⟨rfl, rfl, ⟨rfl, rfl⟩, ⟨rfl, rfl⟩⟩

theorem SameRest.trans {s1 s2 : Paging D} (h : s.SameRest s1) (h' : s1.SameRest s2) :
    s.SameRest s2 :=
  ⟨h'.currentPd.trans h.currentPd, h'.swap.trans h.swap,
    ⟨h'.hand.1.trans h.hand.1, h'.hand.2.trans h.hand.2⟩,
    ⟨h'.range.1.trans h.range.1, h'.range.2.trans h.range.2⟩⟩

theorem SameRest.setEntry {s' : Paging D} (h : s.SameRest s') (base i v : ℕ) :
    s.SameRest (s'.setEntry base i v) := ⟨h.currentPd, h.swap, h.hand, h.range⟩

/-- Frames in use that are neither directories nor tables keep their contents. -/
def BytesKept (s s' : Paging D) (own : ℕ → Role) : Prop :=
  ∀ x, (own (x / 4096)).Loose → own (x / 4096) ≠ .free → s'.mem x = s.mem x

theorem BytesKept.refl (s : Paging D) (own : ℕ → Role) : s.BytesKept s own := fun _ _ _ => rfl

theorem BytesKept.trans {s1 s2 : Paging D} {own1 : ℕ → Role} (h : s.BytesKept s1 own)
    (h' : s1.BytesKept s2 own1) (hown : ∀ g, own g ≠ .free → own1 g = own g) :
    s.BytesKept s2 own := by
  intro x hl hf
  have hx := hown _ hf
  rw [h' x (by rw [hx]; exact hl) (by rw [hx]; exact hf), h x hl hf]

theorem mem_setEntry_of_loose (s : Paging D) {base : ℕ} (v : ℕ) (hb : base % 4096 = 0)
    (hi : i < 1024) (hown : ¬ (own (base / 4096)).Loose) {x : ℕ} (hl : (own (x / 4096)).Loose) :
    (s.setEntry base i v).mem x = s.mem x := by
  refine Mem.store32_of_not_mem ?_
  by_contra hx
  rw [show x / 4096 = base / 4096 by omega] at hl
  exact hown hl

theorem tableRole_not_loose (d i : ℕ) : ¬ (tableRole d i).Loose :=
  fun h => h.ne_table d i rfl

/-- What taking and zeroing the free frame `f` leaves: it has a use of its own and no entries, and
no directory or table has changed. -/
structure FreshFrame (s s' : Paging D) (live : List ℕ) (own : ℕ → Role) (f : ℕ) : Prop extends
    SameRest s s' where
  inv : s'.TableInv live (Function.update own f .other)
  was_free : own f = .free
  managed : s.pmm.baseUsableFrame ≤ f ∧ f < s.pmm.totalFrames
  taken : s'.pmm.freeSet = s.pmm.freeSet.erase f
  zero : ∀ j < 1024, s'.entry (f * 4096) j = 0
  entry_eq : ∀ b, b % 4096 = 0 → b ≠ f * 4096 → ∀ i < 1024, s'.entry b i = s.entry b i
  pte_eq : ∀ d ∈ live, ∀ i < 1023, ∀ j < 1024, s'.pte d i j = s.pte d i j
  zero_bytes : ∀ k < 4096, s'.mem (f * 4096 + k) = 0
  bytes : BytesKept s s' own

theorem FreshFrame.lt {s' : Paging D} (hs : s.pmm.Inv) (h : s.FreshFrame s' live own f) :
    256 ≤ f ∧ f < 1048576 := by
  have := hs.floor
  have := hs.total_le
  have := h.managed
  omega

/-- Taking any free frame. -/
theorem TableInv.take (hs : s.TableInv live own) (hf : f ∈ s.pmm.freeSet)
    (hinv : (s.pmm.takeFrame f).1.Inv) :
    s.FreshFrame (zeroFrame { s with pmm := (s.pmm.takeFrame f).1 } (f * 4096)) live own f := by
  have hfree := (hs.free_iff f).mpr hf
  have hentry : ∀ b, b % 4096 = 0 → b ≠ f * 4096 → ∀ i < 1024,
      (zeroFrame { s with pmm := (s.pmm.takeFrame f).1 } (f * 4096)).entry b i = s.entry b i :=
    fun b hb hne i hi => entry_zeroFrame_of_ne _ (by omega) hb hi hne
  have hdir : ∀ d ∈ live, ∀ i < 1024,
      (zeroFrame { s with pmm := (s.pmm.takeFrame f).1 } (f * 4096)).entry d i = s.entry d i :=
    fun d hd i hi => hentry d (hs.dir_aligned d hd) (hs.free_apart hf hd).1 i hi
  refine ⟨⟨rfl, rfl, ⟨rfl, rfl⟩, ⟨rfl, rfl⟩⟩, ⟨hinv, ?_, ?_, hs.dir_aligned, ?_, ?_⟩, hfree, ?_,
    Pmm.freeSet_takeFrame _ _, fun j hj => entry_zeroFrame_self _ _ hj, hentry, ?_,
    fun k hk => Mem.fill_of_mem (by omega) (by omega), fun x _ hx => ?_⟩
  · intro g
    change _ ↔ g ∈ (s.pmm.takeFrame f).1.freeSet
    rw [Pmm.freeSet_takeFrame, mem_erase]
    by_cases hg : g = f
    · subst hg
      simp
    · rw [update_of_ne hg, hs.free_iff]
      tauto
  · exact hs.unmanaged_update (.inr rfl)
  · intro d hd
    have hne : d / 4096 ≠ f := by
      intro heq
      have := hs.dir_own d hd
      rw [heq, hfree] at this
      cases this
    rw [update_of_ne hne]
    exact hs.dir_own d hd
  · intro d hd i hi hp
    rw [hdir d hd i (by omega)] at hp ⊢
    rw [update_of_ne ((hs.free_apart hf hd).2 i hi hp)]
    exact hs.table_own d hd i hi hp
  · exact ⟨(Pmm.mem_freeSet.mp hf).1, (Pmm.mem_freeSet.mp hf).2.1⟩
  · intro d hd i hi j hj
    have he := hdir d hd i (by omega)
    by_cases hp : s.entry d i % 2 = 1
    · have hne := (hs.free_apart hf hd).2 i hi hp
      rw [pte_of_present (by rw [he]; exact hp), pte_of_present hp, he]
      exact hentry _ (by omega) (by omega) j hj
    · rw [pte_of_absent (by rw [he]; exact hp), pte_of_absent hp]
  · refine Mem.fill_of_not_mem ?_
    by_contra hin
    rw [show x / 4096 = f by omega] at hx
    exact hx hfree

theorem TableInv.withPmm (hs : s.TableInv live own) {pmm : Pmm} {r : Role}
    (hpmm : pmm.Inv) (hf : (own f).Loose)
    (hfree : ∀ g, Function.update own f r g = .free ↔ g ∈ pmm.freeSet)
    (hout : ∀ g, g < pmm.baseUsableFrame ∨ pmm.totalFrames ≤ g →
      Function.update own f r g = .other) :
    { s with pmm := pmm }.TableInv live (Function.update own f r) := by
  refine ⟨hpmm, hfree, hout, hs.dir_aligned, fun d hd => ?_, fun d hd i hi hp => ?_⟩
  · have hdir := hs.dir_own d hd
    have hne : d / 4096 ≠ f := by
      rintro rfl
      exact hf.ne_directory hdir
    rw [update_of_ne hne]
    exact hdir
  · have htable := hs.table_own d hd i hi hp
    have hne : s.entry d i / 4096 ≠ f := by
      rintro rfl
      exact hf.ne_table d i htable
    change update own f r (s.entry d i / 4096) = _
    rw [update_of_ne hne]
    exact htable

/-- A client takes a frame with `pmm_alloc_frame`. -/
theorem TableInv.pmmAlloc (hs : s.TableInv live own) (hne : s.pmm.freeSet.Nonempty) :
    ∃ f, own f = .free ∧ (pmmAllocFrame s.pmm).2 = f * 4096 ∧
      { s with pmm := (pmmAllocFrame s.pmm).1 }.TableInv live (Function.update own f .other) := by
  have hmem := min'_mem _ hne
  have hfree := (hs.free_iff _).mpr hmem
  rw [pmmAllocFrame_of_nonempty hs.pmm hne]
  refine ⟨_, hfree, (hs.pmm.address_eq hmem).trans (mul_comm _ _),
    hs.withPmm (hs.pmm.takeFrame hmem fun g hg => min'_le _ _ hg)
      (by rw [hfree]; trivial) ?_ (hs.unmanaged_update (.inr rfl))⟩
  intro g
  rw [Pmm.freeSet_takeFrame, mem_erase]
  by_cases hg : g = s.pmm.freeSet.min' hne
  · rw [hg, update_self]
    simp
  · rw [update_of_ne hg, hs.free_iff]
    tauto

/-- A client gives a frame back with `pmm_free_frame`. -/
theorem TableInv.pmmFree (hs : s.TableInv live own) {addr : ℕ} (hown : (own (addr / 4096)).Loose) :
    ∃ own', { s with pmm := pmmFreeFrame s.pmm addr }.TableInv live own' ∧
      (∀ g, g ≠ addr / 4096 → own' g = own g) ∧
      (own (addr / 4096) ≠ .other → own' (addr / 4096) = .free) := by
  by_cases hrange : s.pmm.baseUsableFrame ≤ addr / 4096 ∧ addr / 4096 < s.pmm.totalFrames
  · have hrest : ∀ g, g < (pmmFreeFrame s.pmm addr).baseUsableFrame ∨
        (pmmFreeFrame s.pmm addr).totalFrames ≤ g →
        update own (addr / 4096) .free g = .other := by
      rw [pmmFreeFrame_base, pmmFreeFrame_total]
      exact hs.unmanaged_update (.inl hrange)
    refine ⟨_, hs.withPmm (pmmFreeFrame_inv hs.pmm addr) hown ?_ hrest,
      fun g hg => update_of_ne hg _ _, fun _ => update_self ..⟩
    intro g
    rw [freeSet_pmmFreeFrame hs.pmm hrange.1 hrange.2, mem_insert]
    by_cases hg : g = addr / 4096
    · rw [hg, update_self]
      simp
    · rw [update_of_ne hg, hs.free_iff]
      tauto
  · rw [pmmFreeFrame_of_not_mem (by omega)]
    exact ⟨own, hs, fun _ _ => rfl, fun h => absurd (hs.managed h) hrange⟩

/-- What `get_page_table` leaves: the entry names the table returned, with the User bit when asked
for; no page-table word has changed. -/
structure TableReady (s s' : Paging D) (live : List ℕ) (own own' : ℕ → Role)
    (i₀ table flags : ℕ) : Prop extends SameRest s s' where
  inv : s'.TableInv live own'
  bytes : BytesKept s s' own
  present : s'.entry s.currentPd i₀ % 2 = 1
  table_eq : table = s'.entry s.currentPd i₀ / 4096 * 4096
  entry_eq : ∀ d ∈ live, ∀ i < 1024, ¬ (d = s.currentPd ∧ i = i₀) → s'.entry d i = s.entry d i
  pte_eq : ∀ d ∈ live, ∀ i < 1023, ∀ j < 1024, s'.pte d i j = s.pte d i j
  user : flags / 4 % 2 = 1 → s'.entry s.currentPd i₀ / 4 % 2 = 1
  /-- an entry that was present has at most gained the User bit -/
  kept : s.entry s.currentPd i₀ % 2 = 1 →
    s'.entry s.currentPd i₀ = s.entry s.currentPd i₀ ∨
      s.entry s.currentPd i₀ / 4 % 2 ≠ 1 ∧
        s'.entry s.currentPd i₀ = s.entry s.currentPd i₀ ||| pageUser

/-- A frame is taken exactly when the table has to be made. -/
structure FramesUsed (s s' : Paging D) (i₀ : ℕ) : Prop where
  pmm_kept : s.entry s.currentPd i₀ % 2 = 1 → s'.pmm = s.pmm
  table_frame : s.entry s.currentPd i₀ % 2 ≠ 1 →
    s'.entry s.currentPd i₀ / 4096 ∈ s.pmm.freeSet ∧
      s'.pmm.freeSet = s.pmm.freeSet.erase (s'.entry s.currentPd i₀ / 4096)

theorem FramesUsed.pmm_taken {s' : Paging D} (h : s.FramesUsed s' i0)
    (hp : s.entry s.currentPd i0 % 2 ≠ 1) :
    ∃ f ∈ s.pmm.freeSet, s'.pmm.freeSet = s.pmm.freeSet.erase f := ⟨_, h.table_frame hp⟩

theorem TableInv.entry_setPde (hs : s.TableInv live own) (hd0 : d0 ∈ live)
    (hi0 : i0 < 1024) (hd : d ∈ live) (hi : i < 1024) (hne : ¬ (d = d0 ∧ i = i0)) :
    (s.setEntry d0 i0 v).entry d i = s.entry d i :=
  entry_setEntry_of_ne s v (hs.dir_aligned d0 hd0) (hs.dir_aligned d hd) hi0 hi (by omega)

theorem TableInv.bytesKept_setPde (hs : s.TableInv live own) (hd : d ∈ live)
    (hi : i < 1024) : s.BytesKept (s.setEntry d i v) own := fun _ hl _ =>
  mem_setEntry_of_loose s v (hs.dir_aligned d hd) hi (fun h => h.ne_directory (hs.dir_own d hd)) hl

theorem TableInv.bytes_setPte (hs : s.TableInv live own) (hd : d ∈ live)
    (hi : i < 1023) (hk : k < 1024) (hp : s.entry d i % 2 = 1) (x : ℕ)
    (hl : (own (x / 4096)).Loose) :
    (s.setEntry (s.entry d i / 4096 * 4096) k v).mem x = s.mem x := by
  refine mem_setEntry_of_loose s v (Nat.mul_mod_left _ _) hk ?_ hl
  rw [frame_div, hs.table_own d hd i hi hp]
  exact tableRole_not_loose d i

theorem TableInv.install (hs : s.TableInv live own) (flags : ℕ)
    (hcur : s.currentPd ∈ live) (hi0 : i0 < 1023) (habs : s.entry s.currentPd i0 % 2 ≠ 1)
    (hown : own f = .other) (hmanaged : s.pmm.baseUsableFrame ≤ f ∧ f < s.pmm.totalFrames)
    (hzero : ∀ j < 1024, s.entry (f * 4096) j = 0) :
    s.TableReady (s.setEntry s.currentPd i0 (f * 4096 ||| tableFlags flags)) live own
      (Function.update own f (tableRole s.currentPd i0)) i0 (f * 4096) flags := by
  have hflags := tableFlags_cases flags
  have hf : f < 1048576 := hmanaged.2.trans_le hs.pmm.total_le
  have hword : (s.setEntry s.currentPd i0 (f * 4096 ||| tableFlags flags)).entry s.currentPd i0 =
      f * 4096 + tableFlags flags := by
    rw [entry_setEntry_self, or_tableFlags]
    exact u32_of_lt (by omega)
  have hother : ∀ d ∈ live, ∀ i < 1024, ¬ (d = s.currentPd ∧ i = i0) →
      (s.setEntry s.currentPd i0 (f * 4096 ||| tableFlags flags)).entry d i = s.entry d i :=
    fun d hd i hi hne => hs.entry_setPde hcur (by omega) hd hi hne
  -- `f` has no role yet, so it is neither a directory nor a table
  have hdir : ∀ d ∈ live, d / 4096 ≠ f := by
    intro d hd heq
    have := hs.dir_own d hd
    rw [heq, hown] at this
    cases this
  have htable : ∀ d ∈ live, ∀ i < 1023, s.entry d i % 2 = 1 → s.entry d i / 4096 ≠ f := by
    intro d hd i hi hp heq
    have h := hs.table_own d hd i hi hp
    rw [heq, hown] at h
    unfold tableRole at h
    split at h <;> cases h
  have haligned := hs.dir_aligned _ hcur
  refine ⟨(SameRest.refl s).setEntry _ _ _, ⟨hs.pmm, ?_, hs.unmanaged_update (.inl hmanaged),
    hs.dir_aligned, ?_, ?_⟩, hs.bytesKept_setPde hcur (by omega), ?_, ?_, hother, ?_, ?_,
    fun h => absurd h habs⟩
  · intro g
    by_cases hg : g = f
    · subst hg
      rw [update_self]
      have := hs.free_iff g
      rw [hown] at this
      exact ⟨fun h => absurd h (tableRole_ne_free _ _),
        fun h => absurd (this.mpr h) Role.noConfusion⟩
    · rw [update_of_ne hg]
      exact hs.free_iff g
  · intro d hd
    rw [update_of_ne (hdir d hd)]
    exact hs.dir_own d hd
  · intro d hd i hi hp
    by_cases heq : d = s.currentPd ∧ i = i0
    · obtain ⟨rfl, rfl⟩ := heq
      rw [hword, show (f * 4096 + tableFlags flags) / 4096 = f by omega, update_self]
    · rw [hother d hd i (by omega) heq] at hp ⊢
      rw [update_of_ne (htable d hd i hi hp)]
      exact hs.table_own d hd i hi hp
  · rw [hword]
    omega
  · rw [hword]
    omega
  · intro d hd i hi j hj
    have hcurf := hdir _ hcur
    by_cases heq : d = s.currentPd ∧ i = i0
    · -- the new table is zeroed, so the page still has no translation
      obtain ⟨rfl, rfl⟩ := heq
      rw [pte_of_present (by rw [hword]; omega), pte_of_absent habs, hword,
        show (f * 4096 + tableFlags flags) / 4096 * 4096 = f * 4096 by omega,
        entry_setEntry_of_ne s _ haligned (by omega) (by omega) hj (.inl (by omega))]
      exact hzero j hj
    · have he := hother d hd i (by omega) heq
      by_cases hp : s.entry d i % 2 = 1
      · rw [pte_of_present (by rw [he]; exact hp), pte_of_present hp, he]
        have hnd := hs.table_ne_dir hd hi hp hcur
        exact entry_setEntry_of_ne s _ haligned (by omega) (by omega) hj (.inl hnd.symm)
      · rw [pte_of_absent (by rw [he]; exact hp), pte_of_absent hp]
  · intro hu
    rw [hword]
    omega

theorem TableInv.addUser (hs : s.TableInv live own) (flags : ℕ)
    (hcur : s.currentPd ∈ live) (hi0 : i0 < 1023) (hp0 : s.entry s.currentPd i0 % 2 = 1)
    (hu0 : s.entry s.currentPd i0 / 4 % 2 ≠ 1) :
    s.TableReady (s.setEntry s.currentPd i0 (s.entry s.currentPd i0 ||| pageUser)) live own own i0
      (s.entry s.currentPd i0 / 4096 * 4096) flags := by
  obtain ⟨hlt, hdiv, hmod, huser⟩ := or_user_facts (s.entry_lt s.currentPd i0)
  have hword : (s.setEntry s.currentPd i0 (s.entry s.currentPd i0 ||| pageUser)).entry
      s.currentPd i0 = s.entry s.currentPd i0 ||| pageUser := by
    rw [entry_setEntry_self]
    exact u32_of_lt hlt
  have hother : ∀ d ∈ live, ∀ i < 1024, ¬ (d = s.currentPd ∧ i = i0) →
      (s.setEntry s.currentPd i0 (s.entry s.currentPd i0 ||| pageUser)).entry d i = s.entry d i :=
    fun d hd i hi hne => hs.entry_setPde hcur (by omega) hd hi hne
  have haligned := hs.dir_aligned _ hcur
  -- presence and frame of every entry are as before
  have hsame : ∀ d ∈ live, ∀ i < 1024,
      (s.setEntry s.currentPd i0 (s.entry s.currentPd i0 ||| pageUser)).entry d i % 2 =
        s.entry d i % 2 ∧
      (s.setEntry s.currentPd i0 (s.entry s.currentPd i0 ||| pageUser)).entry d i / 4096 =
        s.entry d i / 4096 := by
    intro d hd i hi
    by_cases heq : d = s.currentPd ∧ i = i0
    · obtain ⟨rfl, rfl⟩ := heq
      rw [hword]
      exact ⟨hmod, hdiv⟩
    · rw [hother d hd i hi heq]
      exact ⟨rfl, rfl⟩
  refine ⟨(SameRest.refl s).setEntry _ _ _, ⟨hs.pmm, hs.free_iff, hs.unmanaged, hs.dir_aligned,
    hs.dir_own, ?_⟩, hs.bytesKept_setPde hcur (by omega), ?_, ?_, hother, ?_,
    fun _ => by rw [hword]; exact huser, fun _ => .inr ⟨hu0, hword⟩⟩
  · intro d hd i hi hp
    obtain ⟨hm, hq⟩ := hsame d hd i (by omega)
    rw [hm] at hp
    rw [hq]
    exact hs.table_own d hd i hi hp
  · rw [hword, hmod]
    exact hp0
  · rw [hword, hdiv]
  · intro d hd i hi j hj
    obtain ⟨hm, hq⟩ := hsame d hd i (by omega)
    by_cases hp : s.entry d i % 2 = 1
    · rw [pte_of_present (by rw [hm]; exact hp), pte_of_present hp, hq]
      have hnd := hs.table_ne_dir hd hi hp hcur
      exact entry_setEntry_of_ne s _ haligned (by omega) (by omega) hj (.inl hnd.symm)
    · rw [pte_of_absent (by rw [hm]; exact hp), pte_of_absent hp]

variable [Disk D]

theorem allocFrameZero_of_free (hs : s.pmm.Inv) (hne : s.pmm.freeSet.Nonempty) : s.allocFrameZero =
      .ok (zeroFrame { s with pmm := (s.pmm.takeFrame (s.pmm.freeSet.min' hne)).1 }
        (s.pmm.freeSet.min' hne * 4096), s.pmm.freeSet.min' hne * 4096) := by
  have hmem := min'_mem _ hne
  have hbase := (Pmm.mem_freeSet.mp hmem).1
  have hfloor := hs.floor
  have haddr : (s.pmm.takeFrame (s.pmm.freeSet.min' hne)).2 = s.pmm.freeSet.min' hne * 4096 := by
    change u32 (s.pmm.freeSet.min' hne * 4096) = _
    rw [hs.address_eq hmem]
    omega
  unfold allocFrameZero
  rw [pmmAllocFrame_of_nonempty hs hne]
  dsimp only
  rw [haddr, if_neg (by omega)]

/-- `alloc_frame_zero` with a free frame at hand. -/
theorem TableInv.allocFrameZero (hs : s.TableInv live own) (hne : s.pmm.freeSet.Nonempty) :
    ∃ s' f, s.allocFrameZero = .ok (s', f * 4096) ∧ f ∈ s.pmm.freeSet ∧
      s.FreshFrame s' live own f := by
  have hmem := min'_mem _ hne
  refine ⟨_, _, allocFrameZero_of_free hs.pmm hne, hmem, hs.take hmem ?_⟩
  exact hs.pmm.takeFrame hmem fun g hg => min'_le _ _ hg

/-- **`get_page_table(virt, 1, flags)`**, when the table exists or a frame is free. -/
theorem TableInv.getPageTable (hs : s.TableInv live own) (hcur : s.currentPd ∈ live)
    (hv : pdIndex virt < 1023) (flags : ℕ)
    (havail : s.entry s.currentPd (pdIndex virt) % 2 = 1 ∨ s.pmm.freeSet.Nonempty) :
    ∃ s' table own', s.getPageTable virt flags = .ok (s', table) ∧
      s.TableReady s' live own own' (pdIndex virt) table flags ∧
      (∀ g, own g ≠ .free → own' g = own g) ∧ s.FramesUsed s' (pdIndex virt) := by
  unfold Paging.getPageTable
  simp only [hasFlag_present, hasFlag_user, frameOf_entry]
  by_cases hp : s.entry s.currentPd (pdIndex virt) % 2 = 1
  · rw [if_neg (by simp [hp])]
    by_cases hu : (decide (flags / 4 % 2 = 1) &&
        !decide (s.entry s.currentPd (pdIndex virt) / 4 % 2 = 1)) = true
    · rw [if_pos hu]
      exact ⟨_, _, own, rfl, hs.addUser flags hcur hv hp (by simp at hu; omega), fun _ _ => rfl,
        ⟨fun _ => rfl, fun ha => absurd hp ha⟩⟩
    · rw [if_neg hu]
      refine ⟨_, _, own, rfl, ⟨SameRest.refl s, hs, .refl s own, hp, rfl, fun _ _ _ _ _ => rfl,
        fun _ _ _ _ _ _ => rfl, fun hf => ?_, fun _ => .inl rfl⟩, fun _ _ => rfl,
        ⟨fun _ => rfl, fun ha => absurd hp ha⟩⟩
      simpa [hf] using hu
  · rw [if_pos (by simp [hp])]
    obtain ⟨s1, f, halloc, hf, hfresh⟩ := hs.allocFrameZero (havail.resolve_left hp)
    have hcurf := (hs.free_apart hf hcur).1
    have habs : s1.entry s.currentPd (pdIndex virt) = s.entry s.currentPd (pdIndex virt) :=
      hfresh.entry_eq _ (hs.dir_aligned _ hcur) hcurf _ (by omega)
    have hready := hfresh.inv.install flags
      (by rw [hfresh.currentPd]; exact hcur) hv
      (by rw [hfresh.currentPd, habs]; exact hp) (update_self ..)
      (by rw [hfresh.range.1, hfresh.range.2]; exact hfresh.managed) hfresh.zero
    rw [halloc]
    refine ⟨_, _, _, rfl, ⟨hfresh.toSameRest.trans hready.toSameRest, hready.inv,
      hfresh.bytes.trans hready.bytes ?_, ?_, ?_, ?_, ?_, ?_, fun h => absurd h hp⟩, fun g hg => ?_,
      ⟨fun h => absurd h hp, fun _ => ?_⟩⟩
    · intro g hg
      refine update_of_ne ?_ _ _
      rintro rfl
      exact hg hfresh.was_free
    · rw [← hfresh.currentPd]
      exact hready.present
    · rw [← hfresh.currentPd]
      rfl
    · intro d hd i hi hne
      rw [hready.entry_eq d hd i hi (by rw [hfresh.currentPd]; exact hne)]
      exact hfresh.entry_eq d (hs.dir_aligned d hd) (hs.free_apart hf hd).1 i hi
    · intro d hd i hi j hj
      rw [hready.pte_eq d hd i hi j hj]
      exact hfresh.pte_eq d hd i hi j hj
    · rw [← hfresh.currentPd]
      exact hready.user
    · have hgf : g ≠ f := by
        rintro rfl
        exact hg hfresh.was_free
      rw [update_of_ne hgf, update_of_ne hgf]
    · have hlt := hfresh.lt hs.pmm
      have hword : f * 4096 + tableFlags flags < 4294967296 ∧
          (f * 4096 + tableFlags flags) / 4096 = f := by
        rcases tableFlags_cases flags with ⟨-, h⟩ | ⟨-, h⟩ <;> rw [h] <;> omega
      rw [← hfresh.currentPd, entry_setEntry_self, or_tableFlags, u32_of_lt hword.1, hword.2]
      exact ⟨hf, hfresh.taken⟩

/-- What `paging_map` leaves: the word of `virt` is `word`, seen through every entry that shares the
table; all others are as before. -/
structure Mapped (s s' : Paging D) (live : List ℕ) (own own' : ℕ → Role) (virt word flags : ℕ) :
    Prop extends SameRest s s', FramesUsed s s' (pdIndex virt) where
  inv : s'.TableInv live own'
  bytes : BytesKept s s' own
  /-- frames in use keep their role -/
  own_kept : ∀ g, own g ≠ .free → own' g = own g
  present : s'.entry s.currentPd (pdIndex virt) % 2 = 1
  entry_eq : ∀ d ∈ live, ∀ i < 1024, ¬ (d = s.currentPd ∧ i = pdIndex virt) →
    s'.entry d i = s.entry d i
  user : flags / 4 % 2 = 1 → s'.entry s.currentPd (pdIndex virt) / 4 % 2 = 1
  kept : s.entry s.currentPd (pdIndex virt) % 2 = 1 →
    s'.entry s.currentPd (pdIndex virt) = s.entry s.currentPd (pdIndex virt) ∨
      s.entry s.currentPd (pdIndex virt) / 4 % 2 ≠ 1 ∧
        s'.entry s.currentPd (pdIndex virt) = s.entry s.currentPd (pdIndex virt) ||| pageUser
  pte_other : ∀ d ∈ live, ∀ i < 1023, ∀ j < 1024, i ≠ pdIndex virt ∨ j ≠ ptIndex virt →
    s'.pte d i j = s.pte d i j
  pte_virt : ∀ d ∈ live,
    s'.pte d (pdIndex virt) (ptIndex virt) =
      if s'.entry d (pdIndex virt) % 2 = 1 ∧
          s'.entry d (pdIndex virt) / 4096 = s'.entry s.currentPd (pdIndex virt) / 4096 then word
      else s.pte d (pdIndex virt) (ptIndex virt)

omit [Disk D] in
theorem ptIndex_lt (virt : ℕ) : ptIndex virt < 1024 := Nat.mod_lt _ (by decide)

/-- **`paging_map`**, when the table exists or a frame is free. -/
theorem TableInv.pagingMap (hs : s.TableInv live own) (hcur : s.currentPd ∈ live)
    (hv : pdIndex virt < 1023) (phys flags : ℕ)
    (havail : s.entry s.currentPd (pdIndex virt) % 2 = 1 ∨ s.pmm.freeSet.Nonempty) :
    ∃ s' own', s.pagingMap virt phys flags = .ok s' ∧
      s.Mapped s' live own own' virt (pageEntry phys flags) flags := by
  obtain ⟨s1, table, own', hget, hready, hkept, hframes⟩ := hs.getPageTable hcur hv flags havail
  have hpt := ptIndex_lt virt
  have hword : u32 (pageEntry phys flags) = pageEntry phys flags :=
    u32_of_lt (pageEntry_lt phys flags)
  refine ⟨s1.setEntry table (ptIndex virt) (pageEntry phys flags), own', ?_, ?_⟩
  · unfold Paging.pagingMap
    rw [hget]
  rw [hready.table_eq]
  have hentry : ∀ d ∈ live, ∀ i < 1024,
      (s1.setEntry (s1.entry s.currentPd (pdIndex virt) / 4096 * 4096) (ptIndex virt)
        (pageEntry phys flags)).entry d i = s1.entry d i :=
    fun d hd i hi => hready.inv.entry_setPte hcur hv hpt hready.present hd hi
  refine ⟨hready.toSameRest.setEntry _ _ _,
    ⟨hframes.pmm_kept, by rw [hentry _ hcur _ (by omega)]; exact hframes.table_frame⟩,
    hready.inv.setPte hcur hv hpt hready.present,
    hready.bytes.trans (fun x hl _ =>
    hready.inv.bytes_setPte hcur hv hpt hready.present x hl) hkept,
    hkept, ?_, ?_, ?_, ?_, ?_, ?_⟩
  · rw [hentry _ hcur _ (by omega)]
    exact hready.present
  · intro d hd i hi hne
    rw [hentry d hd i hi]
    exact hready.entry_eq d hd i hi hne
  · intro hu
    rw [hentry _ hcur _ (by omega)]
    exact hready.user hu
  · intro hp
    rw [hentry _ hcur _ (by omega)]
    exact hready.kept hp
  · intro d hd i hi j hj hne
    rw [hready.inv.pte_setPte_of_ne hcur hv hpt hready.present hd hi hj hne]
    exact hready.pte_eq d hd i hi j hj
  · intro d hd
    rw [hready.inv.pte_setPte hcur hv hpt hready.present hd hv hpt, hentry d hd _ (by omega),
      hentry _ hcur _ (by omega), hword, hready.pte_eq d hd _ hv _ hpt]
    simp only [true_and]

omit [Disk D] in
/-- The page itself, in the current directory. -/
theorem Mapped.pte_current {s' : Paging D} {own' : ℕ → Role} {word flags : ℕ}
    (h : s.Mapped s' live own own' virt word flags) (hcur : s.currentPd ∈ live) :
    s'.pte s.currentPd (pdIndex virt) (ptIndex virt) = word := by
  rw [h.pte_virt _ hcur, if_pos ⟨h.present, rfl⟩]

end Paging

end PenOS
