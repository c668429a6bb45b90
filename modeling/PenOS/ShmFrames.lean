import PenOS.Shm
import PenOS.DirectMap
import PenOS.KernelFrames

/-!
# The frames of shared memory

The frames listed by the regions have no other use. What ends this is `paging_destroy_directory`,
which frees every frame mapped in the user half, the eviction of an attached page, and addresses of
the kernel half given to `shm_attach`.
-/

namespace PenOS

open Function List

variable {D : Type}
variable {f flags i k key n p pd phys r size virt : ℕ} {I : Finset ℕ} {l : List ℕ} {t : Shm D}

/-! ## A list of frames in the heap -/

/-- The frames of the words `i`, …, `i + n - 1` of the list at `p`. -/
def Heap.wordFrames (h : Heap D) (p i n : ℕ) : List ℕ :=
  (List.range' i n).map fun k => h.window.load32 (p + 4 * k) / 4096

theorem Heap.wordFrames_succ (h : Heap D) (p i n : ℕ) : h.wordFrames p i (n + 1) =
    h.window.load32 (p + 4 * i) / 4096 :: h.wordFrames p (i + 1) n := by
  simp only [wordFrames, range'_succ, map_cons]

theorem Heap.wordFrames_congr {h h' : Heap D}
    (heq : ∀ x, p + 4 * i ≤ x → x < p + 4 * (i + n) → h'.window.bytes x = h.window.bytes x) :
    h'.wordFrames p i n = h.wordFrames p i n := by
  refine map_congr_left fun k hk => ?_
  obtain ⟨h1, h2⟩ := mem_range'_1.mp hk
  simp only [RecMem.load32]
  rw [Mem.load32_congr fun x hx hx' => heq x (by omega) (by omega)]

/-- The loop of `shm_get` has written `c` frames to the list at `p`, from word `i` on. -/
structure TookFrames (a : Kernel D) (out : Heap D × Option ℕ) (ex : ℕ → ℕ → Prop)
    (own : ℕ → Role) (p n i c : ℕ) : Prop where
  inv : { a with heap := out.1, held := out.1.wordFrames p i c ++ a.held }.Inv ex own
  blocks : out.1.liveBlocks = a.heap.liveBlocks
  mem : out.1.paging.mem = a.paging.mem
  bytes : ∀ x, x < p + 4 * i ∨ p + 4 * (i + n) ≤ x →
    out.1.window.bytes x = a.heap.window.bytes x
  all : out.2 = none → c = n
  failed : ∀ j, out.2 = some j → j = i + c ∧ c ≤ n

namespace Kernel.Inv

variable {a b : Kernel D} {ex : ℕ → ℕ → Prop} {own : ℕ → Role}

theorem heldPerm (hs : a.Inv ex own) (hperm : l.Perm a.held) : { a with held := l }.Inv ex own :=
  ⟨hs.sound, hs.pages, hs.nodup, hs.current, hs.hand, hperm.nodup_iff.mpr hs.held_nodup,
    fun f hf => hs.held_own f (hperm.mem_iff.mp hf)⟩

theorem write (hs : a.Inv ex own) (ho : a.heap.Owned p n) {m : RecMem}
    (hm : ∀ x, x < p ∨ p + n ≤ x → m.bytes x = a.heap.window.bytes x) :
    { a with heap := { a.heap with window := m } }.Inv ex own :=
  ⟨(hs.sound.write ho hm).1, hs.pages, hs.nodup, hs.current, hs.hand, hs.held_nodup, hs.held_own⟩

variable [Disk D]

/-- **The frames of a new region** are held when the loop ends, and are those in the list. -/
theorem takeFrames {m : ℕ} (n : ℕ) (hs : a.Inv ex own) (ho : a.heap.Owned p (4 * m))
    (hin : i + n ≤ m) : ∃ own' c, TookFrames a (a.heap.takeFrames p n i) ex own' p n i c := by
  induction n generalizing a own i with
  | zero => exact ⟨own, 0, hs, rfl, rfl, fun _ _ => rfl, fun _ => rfl, by simp [Heap.takeFrames]⟩
  | succ n ih =>
    obtain ⟨own1, hs1⟩ := hs.pmmAlloc rfl
    rw [Heap.takeFrames]
    split
    · rename_i hzero
      rw [if_pos hzero] at hs1
      refine ⟨own1, 0, hs1, rfl, rfl, fun _ _ => rfl, by simp, fun j hj => ?_⟩
      exact ⟨(Option.some.inj hj).symm, Nat.zero_le _⟩
    · rename_i hne
      rw [if_neg hne] at hs1
      have hlt := pmmAllocFrame_lt a.heap.paging.pmm
      -- the word is written to the block of the list
      have hword : ∀ x, x < p + 4 * i ∨ p + 4 * i + 4 ≤ x →
          (a.heap.window.store32 (p + 4 * i) (pmmAllocFrame a.heap.paging.pmm).2).bytes x =
            a.heap.window.bytes x := fun x hx => Mem.store32_of_not_mem hx
      have hown : a.heap.Owned (p + 4 * i) 4 := ho.mono (by omega) (by omega)
      have hs2 : Kernel.Inv ⟨a.heap.storeFrame (p + 4 * i) (pmmAllocFrame a.heap.paging.pmm),
          a.boot, a.dirs, (pmmAllocFrame a.heap.paging.pmm).2 / 4096 :: a.held⟩ ex own1 :=
        hs1.write hown hword
      have hlive : (a.heap.storeFrame (p + 4 * i) (pmmAllocFrame a.heap.paging.pmm)).liveBlocks =
          a.heap.liveBlocks := (hs1.sound.write hown hword).2
      obtain ⟨own', c, htook⟩ :=
        ih (i := i + 1) hs2 (by rw [Heap.Owned, hlive]; exact ho) (by omega)
      refine ⟨own', c + 1, ?_, htook.blocks.trans hlive, htook.mem, fun x hx => ?_, fun h => ?_,
        fun j hj => ?_⟩
      · -- the loop goes on behind this word
        have hload : (Heap.takeFrames p n (i + 1) (a.heap.storeFrame (p + 4 * i)
            (pmmAllocFrame a.heap.paging.pmm))).1.window.load32 (p + 4 * i) =
              (pmmAllocFrame a.heap.paging.pmm).2 :=
          (Mem.load32_congr fun x hx hx' => htook.bytes x (by omega)).trans
            ((Mem.load32_store32_self _ _ _).trans (u32_of_lt hlt))
        refine htook.inv.heldPerm ?_
        rw [Heap.wordFrames_succ, hload]
        exact perm_middle.symm
      · exact (htook.bytes x (by omega)).trans (hword x (by omega))
      · rw [htook.all h]
      · obtain ⟨hj', hc⟩ := htook.failed j hj
        omega

theorem dropFrames {c : ℕ} (hs : { a with held := a.heap.wordFrames p 0 c ++ l }.Inv ex own) :
    (∃ own', { a with heap := a.heap.dropFrames p c, held := l }.Inv ex own') ∧
      ∃ pmm, a.heap.dropFrames p c = a.heap.withPmm pmm := by
  have hloop := foldl_range'_induct (n := c)
    (f := fun h j => h.withPmm (pmmFreeFrame h.paging.pmm (h.window.load32 (p + 4 * j))))
    (P := fun k h => (∃ own', { a with
      heap := h, held := a.heap.wordFrames p k (c - k) ++ l }.Inv ex own') ∧
        ∃ pmm, h = a.heap.withPmm pmm) 0 ⟨⟨own, hs⟩, a.paging.pmm, rfl⟩ ?_
  · rw [Nat.sub_self] at hloop
    rw [Heap.dropFrames, range_eq_range']
    exact hloop
  rintro k hk h ⟨⟨own1, hs1⟩, pmm, rfl⟩
  rw [show c - k = c - (k + 1) + 1 by omega, Heap.wordFrames_succ] at hs1
  have hfirst : a.heap.window.load32 (p + 4 * k) / 4096 ∈ a.heap.window.load32 (p + 4 * k) / 4096 ::
      (a.heap.wordFrames p (k + 1) (c - (k + 1)) ++ l) := mem_cons_self
  obtain ⟨own2, hs2⟩ := hs1.pmmFree hfirst rfl
  simp only [cons_append, erase_cons_head] at hs2
  rw [zero_add]
  exact ⟨⟨own2, hs2⟩, _, rfl⟩

end Kernel.Inv

/-! ## What the regions list -/

namespace Shm

/-- The frames of region `k`. -/
def frames (s : Shm D) (k : ℕ) : List ℕ :=
  s.heap.wordFrames (s.shmTable k).physStart 0 (s.shmTable k).pages

/-- The frames of all regions. -/
def listed (s : Shm D) : List ℕ :=
  ((List.range shmMaxRegions).filter fun k => (s.shmTable k).used).flatMap s.frames

variable {s s' : Shm D}

theorem mem_listed :
    f ∈ s.listed ↔ ∃ k < shmMaxRegions, (s.shmTable k).used = true ∧ f ∈ s.frames k := by
  simp only [listed, mem_flatMap, mem_filter, mem_range, and_assoc]

theorem listed_congr (hused : ∀ k < shmMaxRegions, (s'.shmTable k).used = (s.shmTable k).used)
    (hframes : ∀ k < shmMaxRegions, (s.shmTable k).used = true → s'.frames k = s.frames k) :
    s'.listed = s.listed := by
  have hfilter : (range shmMaxRegions).filter (fun k => (s'.shmTable k).used) =
      (range shmMaxRegions).filter fun k => (s.shmTable k).used :=
    filter_congr fun k hk => hused k (mem_range.mp hk)
  rw [listed, listed, hfilter]
  refine flatMap_congr fun k hk => ?_
  obtain ⟨hk, hu⟩ := mem_filter.mp hk
  exact hframes k (mem_range.mp hk) hu

theorem listed_eq (s : Shm D) : s.listed = (List.range shmMaxRegions).flatMap fun k =>
    if (s.shmTable k).used = true then s.frames k else [] := by
  rw [listed]
  induction range shmMaxRegions with
  | nil => rfl
  | cons k l ih =>
    rw [flatMap_cons, ← ih, filter_cons]
    split
    · rw [flatMap_cons]
    · rfl

theorem listed_perm (hk : k < shmMaxRegions) (hfree : (s.shmTable k).used = false)
    (hnew : (s'.shmTable k).used = true)
    (hused : ∀ i < shmMaxRegions, i ≠ k → (s'.shmTable i).used = (s.shmTable i).used)
    (hframes : ∀ i < shmMaxRegions, (s.shmTable i).used = true → s'.frames i = s.frames i) :
    s'.listed.Perm (s'.frames k ++ s.listed) := by
  obtain ⟨xs, ys, hsplit⟩ := append_of_mem (mem_range.mpr hk)
  have hnodup := nodup_range (n := shmMaxRegions)
  rw [hsplit] at hnodup
  obtain ⟨-, hys, hxs⟩ := nodup_append.mp hnodup
  have hsame : ∀ l : List ℕ, (∀ i ∈ l, i ∈ range shmMaxRegions ∧ i ≠ k) →
      (l.flatMap fun i => if (s'.shmTable i).used = true then s'.frames i else []) =
        l.flatMap fun i => if (s.shmTable i).used = true then s.frames i else [] := by
    refine fun l hl => flatMap_congr fun i hi => ?_
    obtain ⟨hmem, hne⟩ := hl i hi
    have hlt := mem_range.mp hmem
    rw [hused i hlt hne]
    split
    · rename_i hu
      rw [hframes i hlt hu]
    · rfl
  rw [listed_eq, listed_eq, hsplit, flatMap_append, flatMap_append, flatMap_cons,
    flatMap_cons, if_pos hnew, hfree, if_neg (by decide), nil_append,
    hsame xs fun i hi => ⟨hsplit ▸ mem_append_left _ hi,
      hxs i hi k mem_cons_self⟩,
    hsame ys fun i hi => ⟨hsplit ▸ mem_append_right _ (mem_cons_of_mem _ hi),
      fun heq => (nodup_cons.mp hys).1 (heq ▸ hi)⟩]
  exact perm_append_comm_assoc _ _ _

end Shm

/-! ## Runs -/

/-- The machine with the region table; `boot` is the directory of `paging_init`, `dirs` are those
made since and not destroyed. -/
structure ShmKernel (D : Type) extends Shm D where
  boot : ℕ
  dirs : List ℕ

/-- What processes and the kernel do. -/
inductive ShmOp : Type where
  /-- `shm_get(key, size, flags)` -/
  | get (key size flags : ℕ) : ShmOp
  /-- `shm_attach(id, addr, flags)` in the directory that is loaded -/
  | attach (id addr : ℕ) : ShmOp
  /-- `paging_create_directory()` -/
  | create : ShmOp
  /-- `paging_switch_directory(pd)` -/
  | switch (pd : ℕ) : ShmOp
  /-- `paging_destroy_directory(pd)` -/
  | destroy (pd : ℕ) : ShmOp

namespace ShmKernel

/-- The machine without the table: the listed frames are held by the regions. -/
def kernel (a : ShmKernel D) : Kernel D := ⟨a.heap, a.boot, a.dirs, a.listed⟩

/-- The paging layer. -/
abbrev paging (a : ShmKernel D) : Paging D := a.heap.paging

/-- The directories. -/
abbrev live (a : ShmKernel D) : List ℕ := a.boot :: a.dirs

/-- The result of a call that does not know about regions. -/
def withKernel (a : ShmKernel D) (b : Kernel D) : ShmKernel D :=
  { a with heap := b.heap, dirs := b.dirs }

variable [Disk D]

/-- One step. -/
def exec (a : ShmKernel D) : ShmOp → Except Halt (ShmKernel D)
  | .get key size flags => (a.shmGet key size flags).map fun out => { a with toShm := out.1 }
  | .attach id addr => (a.shmAttach id addr).map fun out => { a with toShm := out.1 }
  | .create => (a.kernel.exec .create).map a.withKernel
  | .switch pd => (a.kernel.exec (.switch pd)).map a.withKernel
  | .destroy pd => (a.kernel.exec (.destroy pd)).map a.withKernel

omit [Disk D] in
/-- Only directories that exist are loaded, and only those of processes destroyed. -/
def Valid (a : ShmKernel D) : ShmOp → Prop
  | .switch pd => pd ∈ a.live
  | .destroy pd => pd ∈ a.dirs
  | _ => True

end ShmKernel

/-! ## Mapping pages one after the other -/

namespace Paging

variable {s s' : Paging D} {ex : ℕ → ℕ → Prop} {live : List ℕ} {own own' : ℕ → Role}

/-- The tables that are not there, of those numbered by `I`. -/
def absentTables (s : Paging D) (I : Finset ℕ) : Finset ℕ :=
  I.filter fun i => s.entry s.currentPd i % 2 ≠ 1

theorem mem_absentTables :
    i ∈ s.absentTables I ↔ i ∈ I ∧ s.entry s.currentPd i % 2 ≠ 1 := Finset.mem_filter

/-- The tables that have to be made to map `n` pages from `virt` on. -/
def tablesFor (s : Paging D) (virt n : ℕ) : Finset ℕ :=
  ((Finset.range n).image fun k => pdIndex (virt + k * 4096)).filter fun i =>
    s.entry s.currentPd i % 2 ≠ 1

theorem tablesFor_eq (s : Paging D) (virt n : ℕ) :
    s.tablesFor virt n = s.absentTables
      ((Finset.range n).image fun k => pdIndex (virt + k * 4096)) := rfl

theorem Mapped.absentTables_subset {word : ℕ}
    (hm : s.Mapped s' live own own' virt word flags) (hcur : s.currentPd ∈ live)
    (hI : ∀ i ∈ I, i < 1023) : s'.absentTables I ⊆ (s.absentTables I).erase (pdIndex virt) := by
  intro i hi
  obtain ⟨hmem, habs⟩ := mem_absentTables.mp hi
  rw [hm.currentPd] at habs
  have hne : i ≠ pdIndex virt := by
    rintro rfl
    exact habs hm.present
  refine Finset.mem_erase.mpr ⟨hne, mem_absentTables.mpr ⟨hmem, ?_⟩⟩
  have hlt := hI i hmem
  rw [hm.entry_eq _ hcur i (by omega) (by tauto)] at habs
  exact habs

variable [Disk D]

theorem TableInv.mapped_of_absent (hs : s.TableInv live own) (hcur : s.currentPd ∈ live)
    (hmem : pdIndex virt ∈ I) (hI : ∀ i ∈ I, i < 1023)
    (hroom : s.RoomFor (s.absentTables I).card) (hrun : s.pagingMap virt phys flags = .ok s') :
    ∃ own', s.Mapped s' live own own' virt (pageEntry phys flags) flags ∧
      s'.RoomFor (s'.absentTables I).card := by
  have hv := hI _ hmem
  by_cases hp : s.entry s.currentPd (pdIndex virt) % 2 = 1
  · obtain ⟨s1, own', hrun1, hm⟩ := hs.pagingMap hcur hv phys flags (.inl hp)
    obtain rfl := Except.ok.inj (hrun1.symm.trans hrun)
    have hle := Finset.card_le_card
      ((hm.absentTables_subset hcur hI).trans (Finset.erase_subset _ _))
    refine ⟨own', hm, hroom.imp (fun h => by rw [hm.swap]; exact h) fun h => ?_⟩
    rw [hm.pmm_kept hp]
    omega
  · have hcard := Finset.card_erase_add_one (mem_absentTables.mpr ⟨hmem, hp⟩)
    rw [← hcard] at hroom
    obtain ⟨own', hm⟩ := hs.mapped_of_room hcur hv hroom hrun
    have hle := Finset.card_le_card (hm.absentTables_subset hcur hI)
    obtain ⟨f, hf, hfree⟩ := hm.pmm_taken hp
    have hcard2 := Finset.card_erase_add_one hf
    refine ⟨own', hm, hroom.imp (fun h => by rw [hm.swap]; exact h) fun h => ?_⟩
    rw [hs.pmm.count] at h
    rw [hm.inv.pmm.count, hfree]
    omega

theorem TableInv.mapped_of_tables (hs : s.TableInv live own) (hcur : s.currentPd ∈ live)
    (hlast : virt + n * 4096 < 4290772992) (hroom : s.RoomFor (s.tablesFor virt (n + 1)).card)
    (hrun : s.pagingMap virt phys flags = .ok s') :
    ∃ own', s.Mapped s' live own own' virt (pageEntry phys flags) flags ∧
      s'.RoomFor (s'.tablesFor (virt + 4096) n).card := by
  rw [tablesFor_eq] at hroom
  obtain ⟨own', hm, hroom'⟩ := hs.mapped_of_absent hcur
    (Finset.mem_image.mpr ⟨0, mem_range.mpr (by omega), by rw [zero_mul, add_zero]⟩)
    (fun i hi => by
      obtain ⟨k, hk, rfl⟩ := Finset.mem_image.mp hi
      rw [Finset.mem_range] at hk
      rw [pdIndex]
      omega) hroom hrun
  refine ⟨own', hm, hroom'.imp_right (le_trans (Finset.card_le_card ?_))⟩
  rw [tablesFor_eq]
  refine Finset.filter_subset_filter _ fun i hi => ?_
  obtain ⟨k, hk, rfl⟩ := Finset.mem_image.mp hi
  rw [Finset.mem_range] at hk
  exact Finset.mem_image.mpr ⟨k + 1, mem_range.mpr (by omega), by
    rw [show virt + (k + 1) * 4096 = virt + 4096 + k * 4096 by omega]⟩

end Paging

/-! ## The invariant -/

/-- What `shm_attach` does not change in an entry of the table. -/
structure ShmRegion.SameFrames (r r' : ShmRegion) : Prop where
  used : r'.used = r.used
  id : r'.id = r.id
  key : r'.key = r.key
  physStart : r'.physStart = r.physStart
  pages : r'.pages = r.pages

theorem ShmRegion.SameFrames.refl (r : ShmRegion) : r.SameFrames r := ⟨rfl, rfl, rfl, rfl, rfl⟩

/-- The live blocks of `h` are live in `h'`, with the same contents. -/
def Heap.KeepsBlocks (h h' : Heap D) : Prop := ∀ u ∈ h.liveBlocks,
  u ∈ h'.liveBlocks ∧ ∀ x, u.1 ≤ x → x < u.1 + u.2 → h'.window.bytes x = h.window.bytes x

theorem Shm.frames_eq {s : Shm D}
    (hblock : ∃ n, 4 * (t.shmTable k).pages ≤ n ∧ ((t.shmTable k).physStart, n) ∈ t.heap.liveBlocks)
    (hkeep : t.heap.KeepsBlocks s.heap)
    (hstart : (s.shmTable k).physStart = (t.shmTable k).physStart)
    (hpages : (s.shmTable k).pages = (t.shmTable k).pages) : s.frames k = t.frames k := by
  obtain ⟨n, hn, hmem⟩ := hblock
  rw [frames, frames, hstart, hpages]
  refine Heap.wordFrames_congr fun x h1 h2 => (hkeep _ hmem).2 x ?_ ?_
  · dsimp only
    omega
  · dsimp only
    omega

namespace ShmKernel

variable {a b : ShmKernel D} {own : ℕ → Role}

/-- The listed frames have no other use, the lists are in live blocks, and what the directories of
processes map is listed. -/
structure Inv (a : ShmKernel D) (own : ℕ → Role) : Prop where
  inv : a.kernel.Inv Paging.InWindow own
  blocks : ∀ k < shmMaxRegions, (a.shmTable k).used = true →
    ∃ n, 4 * (a.shmTable k).pages ≤ n ∧ ((a.shmTable k).physStart, n) ∈ a.heap.liveBlocks
  words : ∀ d ∈ a.dirs, ∀ i < 768, ∀ j < 1024, a.paging.pte d i j % 2 = 1 →
    a.paging.pte d i j / 4096 ∈ a.listed

/-- The regions of `a` are in `b`, with the same frames. -/
def Keeps (a b : ShmKernel D) : Prop := ∀ k < shmMaxRegions, (a.shmTable k).used = true →
  (b.shmTable k).used = true ∧ (b.shmTable k).id = (a.shmTable k).id ∧
    (b.shmTable k).key = (a.shmTable k).key ∧ (b.shmTable k).pages = (a.shmTable k).pages ∧
    b.frames k = a.frames k

theorem Keeps.refl (a : ShmKernel D) : a.Keeps a := fun _ _ hu => ⟨hu, rfl, rfl, rfl, rfl⟩

theorem Keeps.trans {c : ShmKernel D} (h : a.Keeps b) (h' : b.Keeps c) : a.Keeps c := by
  intro k hk hu
  obtain ⟨hu1, hid1, hkey1, hpages1, hframes1⟩ := h k hk hu
  obtain ⟨hu2, hid2, hkey2, hpages2, hframes2⟩ := h' k hk hu1
  exact ⟨hu2, hid2.trans hid1, hkey2.trans hkey1, hpages2.trans hpages1, hframes2.trans hframes1⟩

theorem Inv.pages (hs : a.Inv own) : a.paging.PageInvOn Paging.InWindow a.live own := hs.inv.pages

theorem Inv.current (hs : a.Inv own) : a.paging.currentPd ∈ a.live := hs.inv.current

theorem Inv.updated (hs : a.Inv own) {s : Shm D} (hkeep : a.heap.KeepsBlocks s.heap)
    (htable : ∀ k, (a.shmTable k).SameFrames (s.shmTable k))
    (hinv : ∃ own', Kernel.Inv ⟨s.heap, a.boot, a.dirs, a.listed⟩ Paging.InWindow own')
    (hwords : ∀ d ∈ a.dirs, ∀ i < 768, ∀ j < 1024, s.heap.paging.pte d i j % 2 = 1 →
      s.heap.paging.pte d i j / 4096 ∈ a.listed) :
    (∃ own', Inv { a with toShm := s } own') ∧ a.Keeps { a with toShm := s } := by
  have hframes : ∀ k < shmMaxRegions, (a.shmTable k).used = true → s.frames k = a.frames k :=
    fun k hk hu => Shm.frames_eq (hs.blocks k hk hu) hkeep (htable k).physStart (htable k).pages
  have hlisted : s.listed = a.listed := Shm.listed_congr (fun k _ => (htable k).used) hframes
  obtain ⟨own', hinv⟩ := hinv
  refine ⟨⟨own', ?_, fun k hk hu => ?_, fun d hd i hi j hj hp => ?_⟩, fun k hk hu =>
    ⟨(htable k).used.trans hu, (htable k).id, (htable k).key, (htable k).pages, hframes k hk hu⟩⟩
  · change Kernel.Inv ⟨s.heap, a.boot, a.dirs, s.listed⟩ Paging.InWindow own'
    rw [hlisted]
    exact hinv
  · obtain ⟨n, hn, hmem⟩ := hs.blocks k hk ((htable k).used.symm.trans hu)
    refine ⟨n, ?_, ?_⟩
    · dsimp only
      rw [(htable k).pages]
      exact hn
    · dsimp only
      rw [(htable k).physStart]
      exact (hkeep _ hmem).1
  · change s.heap.paging.pte d i j / 4096 ∈ s.listed
    rw [hlisted]
    exact hwords d hd i hi j hj hp

/-- A region is entered in the table. -/
theorem Inv.addRegion (hs : a.Inv own) {s : Shm D}
    (hk : k < shmMaxRegions) (hfree : (a.shmTable k).used = false)
    (hnew : (s.shmTable k).used = true) (hother : ∀ i, i ≠ k → s.shmTable i = a.shmTable i)
    (hkeep : a.heap.KeepsBlocks s.heap) (hblock : ∃ n, 4 * (s.shmTable k).pages ≤ n ∧
      ((s.shmTable k).physStart, n) ∈ s.heap.liveBlocks)
    (hinv : ∃ own', Kernel.Inv ⟨s.heap, a.boot, a.dirs, s.frames k ++ a.listed⟩
      Paging.InWindow own')
    (hwords : ∀ d ∈ a.dirs, ∀ i < 768, ∀ j < 1024, s.heap.paging.pte d i j = a.paging.pte d i j) :
    (∃ own', Inv { a with toShm := s } own') ∧ a.Keeps { a with toShm := s } := by
  have hne : ∀ i, (a.shmTable i).used = true → i ≠ k := by
    rintro i hu rfl
    rw [hfree] at hu
    cases hu
  have hframes : ∀ i < shmMaxRegions, (a.shmTable i).used = true → s.frames i = a.frames i :=
    fun i hi hu => Shm.frames_eq (hs.blocks i hi hu) hkeep (by rw [hother i (hne i hu)])
      (by rw [hother i (hne i hu)])
  have hperm : s.listed.Perm (s.frames k ++ a.listed) :=
    Shm.listed_perm hk hfree hnew (fun i _ hi => by rw [hother i hi]) hframes
  obtain ⟨own', hinv⟩ := hinv
  refine ⟨⟨own', hinv.heldPerm hperm, fun i hi hu => ?_, fun d hd i hi j hj hpt => ?_⟩,
    fun i hi hu => ?_⟩
  · rcases eq_or_ne i k with rfl | hik
    · exact hblock
    · dsimp only at hu ⊢
      rw [hother i hik] at hu ⊢
      obtain ⟨n, hn, hmem⟩ := hs.blocks i hi hu
      exact ⟨n, hn, (hkeep _ hmem).1⟩
  · change s.heap.paging.pte d i j % 2 = 1 at hpt
    change s.heap.paging.pte d i j / 4096 ∈ s.listed
    rw [hwords d hd i hi j hj] at hpt ⊢
    exact hperm.mem_iff.mpr (mem_append_right _ (hs.words d hd i hi j hj hpt))
  · dsimp only
    rw [hother i (hne i hu)]
    exact ⟨hu, rfl, rfl, rfl, hframes i hi hu⟩

variable [Disk D]

/-- The pages of a region of `size` bytes. -/
abbrev pagesNeeded (size : ℕ) : ℕ := u32 (size + 4095) / 4096

theorem createRegion_cases {s : Shm D} (h : t.createRegion k key size = .ok (s, r)) :
    ∃ h1 p, t.heap.kmalloc (pagesNeeded size * 4) = .ok (h1, p) ∧
      (p = 0 ∧ r = shmError ∧ s = { t with heap := h1 } ∨
      p ≠ 0 ∧ ∃ h2, ((∃ i h3, h1.takeFrames p (pagesNeeded size) 0 = (h2, some i) ∧
          (h2.dropFrames p i).kfree p = .ok h3 ∧ r = shmError ∧ s = { t with heap := h3 }) ∨
        h1.takeFrames p (pagesNeeded size) 0 = (h2, none) ∧ r = t.nextShmId ∧
          s = { t with
            heap := h2
            shmTable := Function.update t.shmTable k
              ⟨t.nextShmId, key, p, size, pagesNeeded size, 0, 0, true⟩
            nextShmId := u32 (t.nextShmId + 1) })) := by
  have hsmall : u32 (size + 4095) < 4294967296 := Nat.mod_lt _ (by decide)
  rw [Shm.createRegion, u32_of_lt (show u32 (size + 4095) / 4096 * 4 < 4294967296 by omega)] at h
  dsimp only at h
  split at h
  · cases h
  rename_i h1 p hmalloc
  refine ⟨h1, p, hmalloc, ?_⟩
  split_ifs at h with hp
  · cases h
    exact .inl ⟨hp, rfl, rfl⟩
  refine .inr ⟨hp, ?_⟩
  split at h
  · rename_i h2 i htake
    split at h
    · cases h
    · rename_i h3 hfree
      cases h
      exact ⟨h2, .inl ⟨i, h3, htake, hfree, rfl, rfl⟩⟩
  · rename_i h2 htake
    cases h
    exact ⟨h2, .inr ⟨htake, rfl, rfl⟩⟩

/-- **A new region**: its list is a block of its own, its frames were free. -/
theorem Inv.createRegion (hs : a.Inv own) {s : Shm D} (hk : k < shmMaxRegions)
    (hfree : (a.shmTable k).used = false) (hsup : Unevicted a.heap (pagesNeeded size * 4))
    (h : a.createRegion k key size = .ok (s, r)) :
    (∃ own', Inv { a with toShm := s } own') ∧ a.Keeps { a with toShm := s } := by
  have hlayout := heap_layout
  have hwant : pagesNeeded size * 4 ≤ heapSize := by
    have hsmall : u32 (size + 4095) < 4294967296 := Nat.mod_lt _ (by decide)
    rw [pagesNeeded]
    omega
  have hsound : a.heap.Sound := hs.inv.sound
  obtain ⟨h₁, p, hmalloc, hcase⟩ := createRegion_cases h
  rcases hsound.kmalloc hwant hmalloc with ⟨rfl, rfl⟩ | ⟨hp, -, m, hm, htook⟩
  · obtain ⟨-, -, rfl⟩ := hcase.resolve_right fun hne => hne.1 rfl
    exact ⟨⟨own, hs⟩, .refl a⟩
  obtain ⟨-, h₂, hcase⟩ := hcase.resolve_left fun h0 => hp h0.1
  -- the call of `kmalloc`
  have hexec : a.kernel.exec (.kmalloc (pagesNeeded size * 4)) =
      .ok ⟨h₁, a.boot, a.dirs, a.listed⟩ := by
    simp only [Kernel.exec, kernel, hmalloc]
  obtain ⟨⟨own1, hs1⟩, huser, -⟩ := hs.inv.kmalloc hwant hsup hexec
  -- the loop over the frames writes to the new block only
  obtain ⟨own2, c, htaken⟩ := hs1.takeFrames (pagesNeeded size) (i := 0)
    (m := pagesNeeded size) (.inr ⟨(p, m), htook.mem, le_rfl, by dsimp only; omega⟩) (by omega)
  dsimp only at htaken
  have hkeep : ∀ u ∈ a.heap.liveBlocks,
      u ∈ (h₁.takeFrames p (pagesNeeded size) 0).1.liveBlocks ∧ u ≠ (p, m) ∧
      ∀ x, u.1 ≤ x → x < u.1 + u.2 →
        (h₁.takeFrames p (pagesNeeded size) 0).1.window.bytes x = a.heap.window.bytes x := by
    intro u hu
    have hu1 := htook.subset u hu
    have hne : u ≠ (p, m) := fun heq => htook.fresh hs1.sound hu (by rw [heq])
    have hapart := hs1.sound.live_apart hu1 htook.mem hne
    dsimp only at hapart
    refine ⟨htaken.blocks ▸ hu1, hne, fun x h1 h2 => ?_⟩
    exact (htaken.bytes x (by omega)).trans (hsound.kmalloc_bytes hwant hmalloc hu h1 h2)
  have hwords : ∀ d ∈ a.dirs, ∀ i < 768, ∀ j < 1024,
      (h₁.takeFrames p (pagesNeeded size) 0).1.paging.pte d i j = a.paging.pte d i j :=
    fun d hd i hi j hj => (Paging.pte_congr htaken.mem d i j).trans
      (huser.pte_user d (mem_cons_of_mem _ hd) i hi j hj)
  rcases hcase with ⟨i, h3, htake, hkfree, -, rfl⟩ | ⟨htake, -, rfl⟩
  · -- the frames and the block of the list are given back
    rw [htake] at htaken hkeep hwords
    obtain ⟨rfl, -⟩ := htaken.failed i rfl
    rw [zero_add] at hkfree
    obtain ⟨⟨own3, hs3⟩, pmm, hdrop⟩ := Kernel.Inv.dropFrames
      (a := ⟨h₂, a.boot, a.dirs, a.listed⟩) htaken.inv
    dsimp only at hdrop hs3
    rw [hdrop] at hkfree hs3
    have hmem : (p, m) ∈ (h₂.withPmm pmm).liveBlocks := htaken.blocks ▸ htook.mem
    have hexec3 : Kernel.exec ⟨h₂.withPmm pmm, a.boot, a.dirs, a.listed⟩ (.kfree p) =
        .ok ⟨h3, a.boot, a.dirs, a.listed⟩ := by
      simp only [Kernel.exec, hkfree]
    obtain ⟨hinv, huser3, -⟩ :=
      hs3.kfree_of_window Paging.inWindow_uniform (fun _ _ => id) hmem hexec3
    refine hs.updated (fun u hu => ?_) (fun _ => .refl _) hinv
      fun d hd i hi j hj hpt => ?_
    · obtain ⟨hu2, hne, hbytes⟩ := hkeep u hu
      refine ⟨?_, fun x h1 h2 => ?_⟩
      · rw [(hs3.sound.kfree hmem hkfree).2]
        exact (mem_erase_of_ne hne).mpr hu2
      · exact (hs3.sound.kfree_bytes hmem hkfree hu2 h1 h2).trans (hbytes x h1 h2)
    · have hword : h3.paging.pte d i j = a.paging.pte d i j :=
        (huser3.pte_user d (mem_cons_of_mem _ hd) i hi j hj).trans (hwords d hd i hi j hj)
      dsimp only at hpt ⊢
      rw [hword] at hpt ⊢
      exact hs.words d hd i hi j hj hpt
  · -- the region is entered in the table
    rw [htake] at htaken hkeep hwords
    have hself : update a.shmTable k
        ⟨a.nextShmId, key, p, size, pagesNeeded size, 0, 0, true⟩ k =
          ⟨a.nextShmId, key, p, size, pagesNeeded size, 0, 0, true⟩ := update_self ..
    have hinv := htaken.inv
    rw [htaken.all rfl] at hinv
    refine hs.addRegion hk hfree (by dsimp only; rw [hself])
      (fun i hi => update_of_ne hi _ _) (fun u hu => ⟨(hkeep u hu).1, (hkeep u hu).2.2⟩)
      ⟨m, ?_, ?_⟩ ⟨own2, ?_⟩ hwords
    · dsimp only
      rw [hself]
      dsimp only
      omega
    · dsimp only
      rw [hself]
      exact htaken.blocks ▸ htook.mem
    · rw [Shm.frames]
      dsimp only
      rw [hself]
      exact hinv

omit [Disk D] in
theorem findRegion_some {p : ShmRegion → Bool} (h : t.findRegion p = some k) :
    k < shmMaxRegions ∧ p (t.shmTable k) = true := by
  rw [Shm.findRegion] at h
  have hp := find?_some h
  exact ⟨mem_range.mp (mem_of_find?_eq_some h), hp⟩

theorem shmGet_cases {s : Shm D} (h : t.shmGet key size flags = .ok (s, r)) :
    (∃ k, t.findRegionByKey key = some k ∧ s = t ∧ r =
        if hasFlag flags shmCreat && hasFlag flags shmExcl then shmError else (t.shmTable k).id) ∨
      t.findRegionByKey key = none ∧ (s = t ∧ r = shmError ∨
        ∃ k, t.findFreeRegion = some k ∧ t.createRegion k key size = .ok (s, r)) := by
  rw [Shm.shmGet] at h
  split at h
  · rename_i k hkey
    split_ifs at h with hexcl <;> cases h
    · exact .inl ⟨k, hkey, rfl, (if_pos hexcl).symm⟩
    · exact .inl ⟨k, hkey, rfl, (if_neg hexcl).symm⟩
  · rename_i hnone
    refine .inr ⟨hnone, ?_⟩
    split_ifs at h
    · cases h
      exact .inl ⟨rfl, rfl⟩
    · split at h
      · cases h
        exact .inl ⟨rfl, rfl⟩
      · rename_i k hfind
        exact .inr ⟨k, hfind, h⟩

/-- **`shm_get`** -/
theorem Inv.shmGet (hs : a.Inv own) {s : Shm D}
    (hsup : a.findRegionByKey key = none → Unevicted a.heap (pagesNeeded size * 4))
    (h : a.shmGet key size flags = .ok (s, r)) :
    (∃ own', Inv { a with toShm := s } own') ∧ a.Keeps { a with toShm := s } := by
  have hsame : s = a.toShm →
      (∃ own', Inv { a with toShm := s } own') ∧ a.Keeps { a with toShm := s } := by
    rintro rfl
    exact ⟨⟨own, hs⟩, .refl a⟩
  rcases shmGet_cases h with ⟨-, -, heq, -⟩ | ⟨hnone, ⟨heq, -⟩ | ⟨k, hfind, hnew⟩⟩
  · exact hsame heq
  · exact hsame heq
  · obtain ⟨hk, hfree⟩ := findRegion_some hfind
    exact hs.createRegion hk (by simpa using hfree) (hsup hnone) hnew

theorem Inv.attachLoop (hs : a.Inv own) {p : Paging D} (hk : k < shmMaxRegions)
    (hu : (a.shmTable k).used = true) (hlow : virt + (a.shmTable k).pages * 4096 ≤ kernelVirtBase)
    (hroom : a.paging.RoomFor (a.paging.tablesFor virt (a.shmTable k).pages).card)
    (h : (List.range (a.shmTable k).pages).foldlM (fun p i =>
      p.pagingMap (u32 (virt + i * 4096)) (a.physPage (a.shmTable k) i)
        (pageUser ||| pageRw ||| pagePresent)) a.paging = .ok p) :
    (∃ own', Kernel.Inv ⟨{ a.heap with paging := p }, a.boot, a.dirs, a.listed⟩
    Paging.InWindow own') ∧
      ∀ d ∈ a.dirs, ∀ i < 768, ∀ j < 1024, p.pte d i j % 2 = 1 → p.pte d i j / 4096 ∈ a.listed := by
  have hbase := kernelVirtBase_eq
  set n := (a.shmTable k).pages with hn
  have hloop := foldlM_range_induct
    (P := fun m q => (∃ own', Kernel.Inv ⟨{ a.heap with paging := q },
      a.boot, a.dirs, a.listed⟩ Paging.InWindow own') ∧
      (∀ d ∈ a.dirs, ∀ i < 768, ∀ j < 1024, q.pte d i j % 2 = 1 → q.pte d i j / 4096 ∈ a.listed) ∧
      q.RoomFor (q.tablesFor (virt + m * 4096) (n - m)).card)
    ⟨⟨own, hs.inv⟩, hs.words, by rw [zero_mul]; exact hroom⟩ ?_ h
  · exact ⟨hloop.1, hloop.2.1⟩
  rintro m hm q q' ⟨⟨own1, hs1⟩, hwords, hroom1⟩ hmap
  rw [u32_of_lt (by omega)] at hmap
  rw [show n - m = n - (m + 1) + 1 by omega] at hroom1
  obtain ⟨own2, hmapped, hroom2⟩ := hs1.pages.toTableInv.mapped_of_tables hs1.current
    (by omega) hroom1 hmap
  have hpd : pdIndex (virt + m * 4096) < 768 := by
    rw [pdIndex]
    omega
  have hpages := hs1.pages.mapped_outside Paging.inWindow_uniform hs1.current
    (by simp only [Paging.InWindow]; omega) hmapped
  refine ⟨⟨own2, ?_⟩, fun d hd i hi j hj hp => ?_, ?_⟩
  · refine hs1.withPaging hpages hmapped.currentPd (hmapped.hand.1 ▸ hs1.hand) hmapped.range
      fun f hf => ?_
    rw [hmapped.own_kept f (hs1.held_ne_free hf), (hs1.held_own f hf).1]
  · have hlive : d ∈ a.live := mem_cons_of_mem _ hd
    by_cases hij : i = pdIndex (virt + m * 4096) ∧ j = ptIndex (virt + m * 4096)
    · obtain ⟨rfl, rfl⟩ := hij
      rw [hmapped.pte_virt d hlive] at hp ⊢
      split_ifs at hp ⊢
      · -- the word names a frame of the region
        have hword : a.physPage (a.shmTable k) m < 4294967296 := Mem.load32_lt _ _
        rw [pageEntry_div hword]
        refine Shm.mem_listed.mpr ⟨k, hk, hu, mem_map.mpr ⟨m, ?_, rfl⟩⟩
        exact mem_range'_1.mpr ⟨Nat.zero_le _, by omega⟩
      · exact hwords d hd _ hi _ hj hp
    · rw [hmapped.pte_other d hlive i (by omega) j hj (by tauto)] at hp ⊢
      exact hwords d hd i hi j hj hp
  · rw [show virt + (m + 1) * 4096 = virt + m * 4096 + 4096 by omega]
    exact hroom2

/-- **`shm_attach`** -/
theorem Inv.shmAttach (hs : a.Inv own) {id addr : ℕ} {s : Shm D}
    (hsafe : ∀ k, a.findRegionById id = some k →
      Shm.attachStart id addr + (a.shmTable k).pages * 4096 ≤ kernelVirtBase ∧ a.paging.RoomFor
        (a.paging.tablesFor (Shm.attachStart id addr) (a.shmTable k).pages).card)
    (h : a.shmAttach id addr = .ok (s, r)) :
    (∃ own', Inv { a with toShm := s } own') ∧ a.Keeps { a with toShm := s } := by
  rw [Shm.shmAttach] at h
  split at h
  · cases h
    exact ⟨⟨own, hs⟩, .refl a⟩
  rename_i k hfind
  obtain ⟨hlow, hroom⟩ := hsafe k hfind
  obtain ⟨hk, hused⟩ := findRegion_some hfind
  have hu : (a.shmTable k).used = true := (Bool.and_eq_true_iff.mp hused).1
  dsimp only at h
  split at h
  · cases h
  rename_i p hloop
  cases h
  obtain ⟨⟨own', hinv⟩, hwords⟩ := hs.attachLoop hk hu hlow hroom hloop
  -- the count of references is all that changes in the table
  refine hs.updated (fun u hu => ⟨hu, fun _ _ _ => rfl⟩) (fun i => ?_) ⟨own', hinv⟩ hwords
  rcases eq_or_ne i k with rfl | hne
  · dsimp only
    rw [update_self]
    exact ⟨rfl, rfl, rfl, rfl, rfl⟩
  · dsimp only
    rw [update_of_ne hne]
    exact .refl _

/-- **`paging_create_directory`** -/
theorem Inv.create (hs : a.Inv own) {b : Kernel D} (hroom : a.paging.RoomFor 1)
    (h : a.kernel.exec .create = .ok b) :
    (∃ own', Inv (a.withKernel b) own') ∧ a.Keeps (a.withKernel b) := by
  simp only [Kernel.exec] at h
  rcases hrun : a.paging.pagingCreateDirectory with e | ⟨p, pd⟩
  · rw [show a.kernel.paging = a.paging from rfl, hrun] at h
    cases h
  rw [show a.kernel.paging = a.paging from rfl, hrun] at h
  cases h
  obtain ⟨f, rfl, hc⟩ := hs.inv.pages.toTableInv.created_of_room hs.inv.current hroom hrun
  have hnew : f * 4096 ∉ a.kernel.live := fun hmem =>
    (hs.inv.pages.free_apart ((hs.inv.pages.free_iff f).mp hc.was_free) hmem).1 rfl
  have hinv := hs.inv.addDirectory (hs.inv.pages.created Paging.inWindow_uniform hs.inv.current hc)
    hnew hc.currentPd (hc.hand.1 ▸ hs.inv.hand) hc.range fun g hg =>
      (Paging.update_kept hc.was_free _ g (hs.inv.held_ne_free hg)).trans (hs.inv.held_own g hg).1
  refine ⟨⟨_, hinv, hs.blocks, fun d hd i hi j hj hp => ?_⟩, fun _ _ hu => ⟨hu, rfl, rfl, rfl, rfl⟩⟩
  rcases mem_cons.mp hd with rfl | hd
  · change p.pte (f * 4096) i j % 2 = 1 at hp
    rw [Paging.pte_of_absent (by rw [hc.user i hi]; decide)] at hp
    cases hp
  · change p.pte d i j % 2 = 1 at hp
    change p.pte d i j / 4096 ∈ a.listed
    rw [hc.pte_eq d (mem_cons_of_mem _ hd) i (by omega) j hj] at hp ⊢
    exact hs.words d hd i hi j hj hp

/-- **`paging_switch_directory`** -/
theorem Inv.switch (hs : a.Inv own) {b : Kernel D} (hpd : pd ∈ a.live)
    (h : a.kernel.exec (.switch pd) = .ok b) :
    (∃ own', Inv (a.withKernel b) own') ∧ a.Keeps (a.withKernel b) := by
  have hinv := hs.inv.switch hpd h
  cases h
  rw [Paging.pagingSwitchDirectory_eq] at hinv ⊢
  exact ⟨⟨own, hinv, hs.blocks, hs.words⟩, fun _ _ hu => ⟨hu, rfl, rfl, rfl, rfl⟩⟩

/-- **`paging_destroy_directory`** of a directory in which no region is attached. -/
theorem Inv.destroy (hs : a.Inv own) {b : Kernel D} (hpd : pd ∈ a.dirs)
    (hdetached : pd = a.paging.currentPd ∨ ∀ i < 768, ∀ j < 1024, a.paging.pte pd i j % 2 = 1 →
      a.paging.pte pd i j / 4096 ∉ a.listed) (h : a.kernel.exec (.destroy pd) = .ok b) :
    (∃ own', Inv (a.withKernel b) own') ∧ a.Keeps (a.withKernel b) := by
  obtain ⟨own', hinv⟩ := hs.inv.destroy_of_pages hpd (fun hne i hi j hj hp => absurd
    (hs.words pd hpd i hi j hj hp) (hdetached.resolve_left hne i hi j hj hp)) h
  cases h
  have hmem : (a.paging.pagingDestroyDirectory pd).mem = a.paging.mem := by
    by_cases hcur : pd = a.paging.currentPd
    · rw [Paging.pagingDestroyDirectory, if_pos hcur]
    · rw [Paging.pagingDestroyDirectory_eq hcur]
  refine ⟨⟨own', hinv, hs.blocks, fun d hd i hi j hj hp => ?_⟩,
    fun _ _ hu => ⟨hu, rfl, rfl, rfl, rfl⟩⟩
  have hd' : d ∈ a.dirs := by
    dsimp only [withKernel] at hd
    split_ifs at hd
    · exact hd
    · exact mem_of_mem_erase hd
  change (a.paging.pagingDestroyDirectory pd).pte d i j % 2 = 1 at hp
  change (a.paging.pagingDestroyDirectory pd).pte d i j / 4096 ∈ a.listed
  rw [Paging.pte_congr hmem] at hp ⊢
  exact hs.words d hd' i hi j hj hp

/-- **What goes wrong**: when a directory is destroyed, the frames of its regions are free, and
still listed. -/
theorem Inv.destroy_frees (hs : a.Inv own) {j : ℕ} (hcur : pd ≠ a.paging.currentPd)
    (hi : i < 768) (hj : j < 1024) (hp : a.paging.pte pd i j % 2 = 1)
    (hf : a.paging.pte pd i j / 4096 = f) (hlisted : f ∈ a.listed) :
    ∃ b, a.exec (.destroy pd) = .ok b ∧ f ∈ b.listed ∧ f ∈ b.paging.pmm.freeSet := by
  obtain ⟨-, hlo, hhi⟩ := hs.inv.held_own f hlisted
  refine ⟨_, rfl, hlisted, ?_⟩
  change f ∈ (a.paging.pagingDestroyDirectory pd).pmm.freeSet
  rw [Paging.pagingDestroyDirectory_eq hcur]
  dsimp only
  have hfloor := hs.pages.pmm.floor
  have hmem := (Paging.mem_freeSet_foldl (p := a.paging.pmm) (by omega) (a.paging.spaceFrames pd)).2
    (f * 4096) (Paging.mem_spaceFrames.mpr (.inr (.inr ⟨i, hi, j, hj, hp, by rw [hf]⟩)))
  rw [Nat.mul_div_cancel f (by decide)] at hmem
  exact hmem hlo hhi

end ShmKernel

/-! ## Every run -/

/-- After `shm_init` on the machine that was just started. -/
inductive ShmStart (syms : Paging.LinkerSymbols) [Disk D] : ShmKernel D → Prop where
  | mk {k : Kernel D} (h : CallStart syms k) (table : ℕ → ShmRegion) :
      ShmStart syms ⟨Shm.shmInit ⟨k.heap, table, 1⟩, k.boot, k.dirs⟩

/-- The runs from `a` in which every step meets `P`. -/
inductive ShmRun [Disk D] (P : ShmKernel D → ShmOp → Prop) (a : ShmKernel D) :
    ShmKernel D → Prop where
  | start : ShmRun P a a
  | step {b b' : ShmKernel D} {c : ShmOp} (hrun : ShmRun P a b) (hvalid : b.Valid c)
      (hp : P b c) (h : b.exec c = .ok b') : ShmRun P a b'

/-- A weaker condition allows more runs. -/
theorem ShmRun.mono [Disk D] {P Q : ShmKernel D → ShmOp → Prop} {a b : ShmKernel D}
    (hrun : ShmRun P a b) (h : ∀ b c, P b c → Q b c) : ShmRun Q a b := by
  induction hrun with
  | start => exact .start
  | step _ hvalid hp hexec ih => exact ih.step hvalid (h _ _ hp) hexec

namespace ShmKernel

/-- The listed frames are allocated and listed once; they are no directories, no page tables, and
not behind the heap. -/
structure FramesOwned (a : ShmKernel D) : Prop where
  taken : ∀ f ∈ a.listed, a.paging.pmm.Taken f
  once : a.listed.Nodup
  directory : ∀ f ∈ a.listed, ∀ d ∈ a.live, d / 4096 ≠ f
  table : ∀ f ∈ a.listed, ∀ d ∈ a.live, ∀ i < 1023, a.paging.entry d i % 2 = 1 →
    a.paging.entry d i / 4096 ≠ f
  heap : ∀ f ∈ a.listed, ∀ d ∈ a.live, ∀ i, Paging.InWindow d i → ∀ j < 1024,
    a.paging.pte d i j % 2 = 1 → a.paging.pte d i j / 4096 ≠ f

/-- Nothing is evicted, regions are attached below the kernel half, and no directory is
destroyed that maps a frame of a region. -/
def Safe (a : ShmKernel D) : ShmOp → Prop
  | .get key size _ => a.findRegionByKey key = none → Unevicted a.heap (pagesNeeded size * 4)
  | .attach id addr => ∀ k, a.findRegionById id = some k →
      Shm.attachStart id addr + (a.shmTable k).pages * 4096 ≤ kernelVirtBase ∧
      a.paging.RoomFor (a.paging.tablesFor (Shm.attachStart id addr) (a.shmTable k).pages).card
  | .create => a.paging.RoomFor 1
  | .switch _ => True
  | .destroy pd => pd = a.paging.currentPd ∨ ∀ i < 768, ∀ j < 1024,
      a.paging.pte pd i j % 2 = 1 → a.paging.pte pd i j / 4096 ∉ a.listed

variable {a b : ShmKernel D} {own : ℕ → Role}

theorem Inv.framesOwned (hs : a.Inv own) : a.FramesOwned := by
  have hother : ∀ f ∈ a.listed, own f = .other := fun f hf => (hs.inv.held_own f hf).1
  refine ⟨fun f hf => ⟨(hs.inv.held_own f hf).2.1, (hs.inv.held_own f hf).2.2, fun hfree => ?_⟩,
    hs.inv.held_nodup, ?_, ?_, ?_⟩
  · exact hs.inv.held_ne_free hf ((hs.pages.free_iff f).mpr hfree)
  · rintro f hf d hd rfl
    have hrole := hs.pages.dir_own d hd
    rw [hother _ hf] at hrole
    cases hrole
  · rintro f hf d hd i hi hp rfl
    have hrole := hs.pages.table_own d hd i hi hp
    rw [hother _ hf, tableRole] at hrole
    split_ifs at hrole
  · rintro f hf d hd i hi j hj hp rfl
    have hlt : i < 1023 := by
      obtain ⟨-, h⟩ := hi
      omega
    have hrole := hs.pages.page_own d hd i hlt j hj hi hp
    rw [hother _ hf] at hrole
    exact pageRole_ne_other _ _ _ _ hrole.symm

variable [Disk D]

/-- **One step** -/
theorem Inv.exec (hs : a.Inv own) {c : ShmOp} (hvalid : a.Valid c) (hsafe : a.Safe c)
    (h : a.exec c = .ok b) : (∃ own', b.Inv own') ∧ a.Keeps b := by
  cases c with
  | get key size flags =>
    obtain ⟨⟨s, r⟩, hrun, rfl⟩ := map_ok h
    exact hs.shmGet hsafe hrun
  | attach id addr =>
    obtain ⟨⟨s, r⟩, hrun, rfl⟩ := map_ok h
    exact hs.shmAttach hsafe hrun
  | create =>
    obtain ⟨k, hrun, rfl⟩ := map_ok h
    exact hs.create hsafe hrun
  | switch pd =>
    rw [ShmKernel.exec] at h
    obtain ⟨k, hrun, rfl⟩ := map_ok h
    exact hs.switch hvalid hrun
  | destroy pd =>
    rw [ShmKernel.exec] at h
    obtain ⟨k, hrun, rfl⟩ := map_ok h
    exact hs.destroy hvalid hsafe hrun

/-- **Every run** -/
theorem Inv.run (hs : a.Inv own) (hrun : ShmRun Safe a b) : (∃ own', b.Inv own') ∧ a.Keeps b := by
  induction hrun with
  | start => exact ⟨⟨own, hs⟩, .refl a⟩
  | step _ hvalid hsafe h ih =>
    obtain ⟨⟨own1, hs1⟩, hkeep⟩ := ih
    obtain ⟨hs2, hkeep2⟩ := hs1.exec hvalid hsafe h
    exact ⟨hs2, hkeep.trans hkeep2⟩

end ShmKernel

/-- There are no regions at the start. -/
theorem ShmStart.inv {syms : Paging.LinkerSymbols} [Disk D] {a : ShmKernel D}
    (h : ShmStart syms a) : ∃ own, a.Inv own := by
  obtain ⟨hstart, table⟩ := h
  obtain ⟨own, hs⟩ := hstart.inv
  refine ⟨own, ⟨hs.sound, ⟨hs.pages.toTableInv, ?_⟩, hs.nodup, hs.current, hs.hand,
    nodup_nil,
    fun f hf => absurd hf not_mem_nil⟩, by simp [Shm.shmInit], ?_⟩
  · exact fun d hd i hi j hj he hp => hs.pages.page_own d hd i hi j hj (.inr he) hp
  · cases hstart
    simp

/-- **Frames of shared memory**: where nothing is evicted, regions are attached below the kernel
half and no directory that maps them is destroyed, the listed frames stay allocated, each listed by
one region, which keeps it. -/
theorem shm_frames_stay {syms : Paging.LinkerSymbols} [Disk D] {s a b : ShmKernel D}
    (hstart : ShmStart syms s) (hrun : ShmRun ShmKernel.Safe s a)
    (hrun' : ShmRun ShmKernel.Safe a b) : b.FramesOwned ∧ a.Keeps b := by
  obtain ⟨own, hs⟩ := hstart.inv
  obtain ⟨⟨own1, hs1⟩, -⟩ := hs.run hrun
  obtain ⟨⟨own2, hs2⟩, hkeep⟩ := hs1.run hrun'
  exact ⟨hs2.framesOwned, hkeep⟩

/-! ## A region that is lost -/

section Small

variable [Disk D]

/-- A region of one page on the small machine. -/
theorem exists_small_region (disk : D) : ∃ s a : ShmKernel D, ShmStart Paging.smallImage s ∧
    s.Safe (.get 1 4096 1) ∧ s.exec (.get 1 4096 1) = .ok a ∧ a.paging.currentPd = a.boot ∧
    a.findRegionById 1 = some 0 ∧ (a.shmTable 0).pages = 1 ∧ 20 ≤ a.paging.pmm.freeSet.card := by
  obtain ⟨k, hk, hcur, hdirs, -, -, hcard, -⟩ := exists_small_kernel disk fun _ => false
  obtain ⟨own, hs⟩ := hk.inv
  have hempty : k.heap.heapHead = 0 ∧ k.heap.heapCurr = heapStart ∧
      k.heap.heapMappedEnd = heapStart := by
    cases hk
    exact ⟨rfl, rfl, rfl⟩
  obtain ⟨hready, p, hgrow⟩ := hs.pages.toTableInv.growPage_ok hs.current
    (show pdIndex heapStart < 1023 by decide) (by omega)
  obtain ⟨own1, f, hgrown, -⟩ := hs.pages.growPage hs.current (by decide) hready hgrow
  have hcard1 := hgrown.card hs.pages.toTableInv
  obtain ⟨h1, hmalloc, rfl⟩ := Heap.kmalloc_first hempty.1 hempty.2.1 hempty.2.2 hgrow
    (show 0 < 4 by decide) (by decide)
  have hne : h1.paging.pmm.freeSet.Nonempty := Finset.card_pos.mp (by omega)
  obtain ⟨g, hg, haddr, -⟩ := hgrown.inv.toTableInv.pmmAlloc hne
  have hfloor := hgrown.inv.pmm.floor
  have hmanaged := hgrown.inv.managed (by rw [hg]; exact Role.noConfusion)
  have hget : Shm.shmGet ⟨k.heap, fun _ => ⟨0, 0, 0, 0, 0, 0, 0, false⟩, 1⟩ 1 4096 1 =
      .ok (⟨h1.storeFrame (heapStart + 16 + 4 * 0) (pmmAllocFrame h1.paging.pmm),
        update (fun _ => ⟨0, 0, 0, 0, 0, 0, 0, false⟩) 0
          ⟨1, 1, heapStart + 16, 4096, 1, 0, 0, true⟩, 2⟩, 1) := by
    change Shm.createRegion _ 0 1 4096 = _
    rw [Shm.createRegion, show u32 (u32 (4096 + 4095) / 4096 * 4) = 4 by decide, hmalloc]
    dsimp only
    rw [if_neg (by decide), show u32 (4096 + 4095) / 4096 = 0 + 1 by decide, Heap.takeFrames,
      if_neg (by omega), Heap.takeFrames]
    rfl
  refine ⟨_, _, .mk hk fun _ => ⟨0, 0, 0, 0, 0, 0, 0, false⟩, fun _ => ?_,
    congrArg (Except.map _) hget, ?_, rfl, rfl, ?_⟩
  · refine .inr (.inr ?_)
    have hmissing : k.paging.missingTables.card ≤ 4 := Finset.card_filter_le _ _
    change 2 + k.paging.missingTables.card ≤ k.paging.pmm.freeFrames
    rw [hs.pages.pmm.count]
    omega
  · exact hgrown.currentPd.trans hcur
  · change 20 ≤ (pmmAllocFrame h1.paging.pmm).1.freeSet.card
    rw [pmmAllocFrame_of_nonempty hgrown.inv.pmm hne, Pmm.freeSet_takeFrame,
      Finset.card_erase_of_mem (Finset.min'_mem _ hne)]
    omega

/-- A process with a directory of its own. -/
theorem exists_small_process (disk : D) : ∃ s a : ShmKernel D, ShmStart Paging.smallImage s ∧
    ShmRun ShmKernel.Safe s a ∧ a.paging.currentPd ∈ a.dirs ∧ a.findRegionById 1 = some 0 ∧
    (a.shmTable 0).pages = 1 ∧ 19 ≤ a.paging.pmm.freeSet.card := by
  obtain ⟨s, a, hstart, hsafe, hget, -, hfind, hpages, hcard⟩ := exists_small_region disk
  have hrun : ShmRun ShmKernel.Safe s a := .step (c := .get 1 4096 1) .start trivial hsafe hget
  obtain ⟨own, hs0⟩ := hstart.inv
  obtain ⟨⟨own1, hs⟩, -⟩ := hs0.run hrun
  obtain ⟨p, g, hcreate, hg, hc⟩ := hs.pages.toTableInv.pagingCreateDirectory hs.current
    (Finset.card_pos.mp (by omega))
  have hcreated : a.exec .create =
      .ok (a.withKernel { a.kernel.withPaging p with dirs := g * 4096 :: a.dirs }) := by
    rw [ShmKernel.exec, Kernel.exec, show a.kernel.paging.pagingCreateDirectory = _ from hcreate]
    rfl
  refine ⟨s, _, hstart, (hrun.step (c := .create) trivial (.inr ?_) hcreated).step
    (c := .switch (g * 4096)) (mem_cons_of_mem _ mem_cons_self) trivial rfl, ?_, hfind,
    hpages, ?_⟩
  · rw [hs.pages.pmm.count]
    omega
  · dsimp only [ShmKernel.withKernel, ShmKernel.paging, Kernel.withPaging]
    rw [Paging.pagingSwitchDirectory_eq]
    exact mem_cons_self
  · dsimp only [ShmKernel.withKernel, ShmKernel.paging, Kernel.withPaging]
    rw [Paging.pagingSwitchDirectory_eq]
    change 19 ≤ p.pmm.freeSet.card
    rw [hc.taken, Finset.card_erase_of_mem hg]
    omega

theorem exists_small_attached (disk : D) : ∃ s a : ShmKernel D, ∃ pd ∈ a.dirs, ∃ i < 768,
    ∃ j < 1024, ShmStart Paging.smallImage s ∧ ShmRun ShmKernel.Safe s a ∧
      pd ≠ a.paging.currentPd ∧ a.paging.pte pd i j % 2 = 1 := by
  obtain ⟨s, a, hstart, hrun, hcur, hfind, hpages, hcard⟩ := exists_small_process disk
  obtain ⟨own, hs0⟩ := hstart.inv
  obtain ⟨⟨own1, hs⟩, -⟩ := hs0.run hrun
  have haddr : Shm.attachStart 1 0 = 0xA0100000 := by decide
  obtain ⟨q, own2, hmap, hm⟩ := hs.pages.toTableInv.pagingMap hs.current
    (show pdIndex 0xA0100000 < 1023 by decide) (a.physPage (a.shmTable 0) 0)
    (pageUser ||| pageRw ||| pagePresent)
    (.inr (Finset.card_pos.mp (by omega)))
  have hloop : (range (a.shmTable 0).pages).foldlM (fun p i =>
      p.pagingMap (u32 (Shm.attachStart 1 0 + i * 4096)) (a.physPage (a.shmTable 0) i)
        (pageUser ||| pageRw ||| pagePresent)) a.paging = .ok q := by
    rw [hpages, haddr]
    exact (bind_pure _).trans hmap
  have hattach : a.shmAttach 1 0 = .ok (⟨{ a.heap with paging := q }, update a.shmTable 0
      { a.shmTable 0 with refCount := u32 ((a.shmTable 0).refCount + 1) }, a.nextShmId⟩,
        Shm.attachStart 1 0) := by
    rw [Shm.shmAttach, hfind]
    dsimp only
    rw [hloop]
  have hne : a.paging.currentPd ≠ a.boot := by
    intro heq
    rw [heq] at hcur
    exact (nodup_cons.mp hs.inv.nodup).1 hcur
  refine ⟨s, _, a.paging.currentPd, ?_, 640, by decide, 256, by decide, hstart,
    (hrun.step (c := .attach 1 0) trivial (fun k hk => ?_) (congrArg (Except.map _) hattach)).step
      (c := .switch a.boot) mem_cons_self trivial rfl, ?_, ?_⟩
  · exact hcur
  · obtain rfl := Option.some.inj (hfind.symm.trans hk)
    rw [hpages, haddr]
    refine ⟨by decide, .inr ?_⟩
    have hle : (a.paging.tablesFor 0xA0100000 1).card ≤ 1 :=
      (Finset.card_filter_le _ _).trans Finset.card_image_le
    rw [hs.pages.pmm.count]
    omega
  · change a.paging.currentPd ≠ (q.pagingSwitchDirectory a.boot).currentPd
    rw [Paging.pagingSwitchDirectory_eq]
    exact hne
  · change (q.pagingSwitchDirectory a.boot).pte a.paging.currentPd 640 256 % 2 = 1
    rw [Paging.pagingSwitchDirectory_eq]
    change q.pte a.paging.currentPd (pdIndex 0xA0100000) (ptIndex 0xA0100000) % 2 = 1
    rw [hm.pte_virt _ hs.current, if_pos ⟨hm.present, rfl⟩]
    exact pageEntry_mod_two _ _

end Small

theorem shm_frames_stay_attached : ∃ s a b : ShmKernel DiskImage,
    ShmStart Paging.smallImage s ∧ ShmRun ShmKernel.Safe s a ∧ ShmRun ShmKernel.Safe a b ∧
      a.listed ≠ [] ∧ b.FramesOwned ∧ a.Keeps b := by
  obtain ⟨s, a, pd, hpd, i, hi, j, hj, hstart, hrun, -, hp⟩ :=
    exists_small_attached (D := DiskImage) fun _ _ _ => 0
  obtain ⟨own, hs0⟩ := hstart.inv
  obtain ⟨⟨own1, hs⟩, -⟩ := hs0.run hrun
  have hrun' : ShmRun ShmKernel.Safe a _ :=
    .step (c := .switch pd) .start (mem_cons_of_mem _ hpd) trivial rfl
  exact ⟨s, a, _, hstart, hrun, hrun', ne_nil_of_mem (hs.words pd hpd i hi j hj hp),
    shm_frames_stay hstart hrun hrun'⟩

/-- A process that has attached a region ends: its directory is destroyed, and a frame that the
region lists is free. -/
theorem shm_frame_freed : ∃ s b : ShmKernel DiskImage, ShmStart Paging.smallImage s ∧
    ShmRun (fun _ _ => True) s b ∧ ∃ f ∈ b.listed, f ∈ b.paging.pmm.freeSet := by
  obtain ⟨s, a, pd, hpd, i, hi, j, hj, hstart, hrun, hne, hp⟩ :=
    exists_small_attached (D := DiskImage) fun _ _ _ => 0
  obtain ⟨own, hs0⟩ := hstart.inv
  obtain ⟨⟨own1, hs⟩, -⟩ := hs0.run hrun
  obtain ⟨b, hdestroy, hlisted, hfree⟩ :=
    hs.destroy_frees hne hi hj hp rfl (hs.words pd hpd i hi j hj hp)
  exact ⟨s, b, hstart, (hrun.mono fun _ _ _ => trivial).step (c := .destroy pd) hpd trivial
    hdestroy, _, hlisted, hfree⟩

end PenOS
