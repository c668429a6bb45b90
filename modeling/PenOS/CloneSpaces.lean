import Mathlib.Order.CompletePartialOrder
import PenOS.Clone
import PenOS.LifeCycle
import PenOS.WideMachine

/-!
# A clone and its source

The copy of `paging_clone_directory` and its source have no frame in common, so a process sees its
own writes only.
-/

namespace PenOS

open Function List

variable {g i j k virt : ℕ} {ws : List (ℕ × ℕ × UInt8)}

namespace Paging

variable {D : Type} {s s' t u : Paging D} {d d' : ℕ}

/-! ## Reading and writing through a user half -/

/-- The byte at a user address in the directory `d`. -/
def userRead (s : Paging D) (d virt : ℕ) : Option UInt8 :=
  if s.pte d (pdIndex virt) (ptIndex virt) % 2 = 1 then
    some (s.mem (s.pte d (pdIndex virt) (ptIndex virt) / 4096 * 4096 + virt % 4096))
  else none

/-- A byte is written to a user address in the directory `d`, if there is a page. -/
def userWrite (s : Paging D) (d virt : ℕ) (b : UInt8) : Paging D :=
  let e := s.pte d (pdIndex virt) (ptIndex virt)
  if e % 2 = 1 then { s with mem := Function.update s.mem (e / 4096 * 4096 + virt % 4096) b }
  else s

/-- Writes one after the other, each with the directory it is made through. -/
def userWrites (s : Paging D) (ws : List (ℕ × ℕ × UInt8)) : Paging D :=
  ws.foldl (fun s w => s.userWrite w.1 w.2.1 w.2.2) s

/-- The frames of the user pages of a directory. -/
def userPages (s : Paging D) (d : ℕ) : Set ℕ :=
  {g | ∃ i < 768, ∃ j < 1024, s.pte d i j % 2 = 1 ∧ g = s.pte d i j / 4096}

/-- The frames of a directory and its user tables. -/
def userTables (s : Paging D) (d : ℕ) : Set ℕ :=
  {g | g = d / 4096 ∨ ∃ i < 768, s.entry d i % 2 = 1 ∧ g = s.entry d i / 4096}

theorem mem_userPages (hi : i < 768) (hj : j < 1024) (hp : s.pte d i j % 2 = 1) :
    s.pte d i j / 4096 ∈ s.userPages d := ⟨i, hi, j, hj, hp, rfl⟩

/-- Translations only depend on the directory and its tables. -/
theorem pte_of_tables (hd : d % 4096 = 0)
    (h : ∀ x, x / 4096 ∈ s.userTables d → t.mem x = s.mem x) (hi : i < 768)
    (hj : j < 1024) : t.pte d i j = s.pte d i j := by
  have hentry : t.entry d i = s.entry d i := entry_eq_of_bytes (by omega) fun x h1 h2 =>
    h x (Or.inl (by omega))
  by_cases hp : s.entry d i % 2 = 1
  · rw [pte_of_present hp, pte_of_present (by rw [hentry]; exact hp), hentry]
    exact entry_eq_of_bytes hj fun x h1 h2 => h x (Or.inr ⟨i, hi, hp, by omega⟩)
  · rw [pte_of_absent hp, pte_of_absent (by rw [hentry]; exact hp)]

/-- Two user halves without a common page, and with no table or directory among their
pages. -/
structure HalvesApart (s : Paging D) (d d' : ℕ) : Prop where
  aligned : d % 4096 = 0 ∧ d' % 4096 = 0
  pages : Disjoint (s.userPages d) (s.userPages d')
  tables : Disjoint (s.userPages d ∪ s.userPages d') (s.userTables d ∪ s.userTables d')

theorem HalvesApart.symm (h : s.HalvesApart d d') : s.HalvesApart d' d where
  aligned := h.aligned.symm
  pages := h.pages.symm
  tables := by
    rw [Set.union_comm, Set.union_comm (s.userTables d')]
    exact h.tables

/-- Only pages have been written since `s`. -/
def PagesWritten (s t : Paging D) (d d' : ℕ) : Prop :=
  ∀ x, x / 4096 ∉ s.userPages d ∪ s.userPages d' → t.mem x = s.mem x

theorem HalvesApart.pte_eq (h : s.HalvesApart d d') (ht : s.PagesWritten t d d')
    (hi : i < 768) (hj : j < 1024) : t.pte d i j = s.pte d i j :=
  pte_of_tables h.aligned.1 (fun x hx => ht x fun hpage =>
    Set.disjoint_left.mp h.tables hpage (Or.inl hx)) hi hj

theorem PagesWritten.symm (h : s.PagesWritten t d d') : s.PagesWritten t d' d :=
  fun x hx => h x (by rwa [Set.union_comm])

theorem pdIndex_user (h : virt < kernelVirtBase) : pdIndex virt < 768 := by
  have hbase := kernelVirtBase_eq
  rw [pdIndex]
  omega

theorem HalvesApart.userWrite (h : s.HalvesApart d d') (hv : virt < kernelVirtBase) (b : UInt8) :
    (∃ x, x / 4096 ∈ s.userPages d ∧ ∀ t, s.PagesWritten t d d' →
      t.userWrite d virt b = { t with mem := Function.update t.mem x b }) ∨
    ∀ t, s.PagesWritten t d d' → t.userWrite d virt b = t := by
  have hi := pdIndex_user hv
  have hj := ptIndex_lt virt
  by_cases hp : s.pte d (pdIndex virt) (ptIndex virt) % 2 = 1
  · refine Or.inl ⟨s.pte d (pdIndex virt) (ptIndex virt) / 4096 * 4096 + virt % 4096, ?_,
      fun t ht => ?_⟩
    · rw [show (s.pte d (pdIndex virt) (ptIndex virt) / 4096 * 4096 + virt % 4096) / 4096 =
        s.pte d (pdIndex virt) (ptIndex virt) / 4096 by omega]
      exact mem_userPages hi hj hp
    · simp only [Paging.userWrite, h.pte_eq ht hi hj, if_pos hp]
  · refine Or.inr fun t ht => ?_
    simp only [Paging.userWrite, h.pte_eq ht hi hj, if_neg hp]

theorem PagesWritten.update (h : s.PagesWritten t d d') {x : ℕ} {b : UInt8}
    (hx : x / 4096 ∈ s.userPages d ∪ s.userPages d') :
    s.PagesWritten { t with mem := Function.update t.mem x b } d d' := by
  intro y hy
  have hne : y ≠ x := fun heq => hy (heq ▸ hx)
  exact (update_of_ne hne _ _).trans (h y hy)

theorem HalvesApart.writes_agree (h : s.HalvesApart d d')
    (hws : ∀ w ∈ ws, (w.1 = d ∨ w.1 = d') ∧ w.2.1 < kernelVirtBase)
    (ht : s.PagesWritten t d d') (hu : s.PagesWritten u d d')
    (htu : ∀ x, x / 4096 ∈ s.userPages d → t.mem x = u.mem x) :
    s.PagesWritten (t.userWrites ws) d d' ∧
      s.PagesWritten (u.userWrites (ws.filter fun w => w.1 = d)) d d' ∧
      ∀ x, x / 4096 ∈ s.userPages d →
        (t.userWrites ws).mem x = (u.userWrites (ws.filter fun w => w.1 = d)).mem x := by
  induction ws generalizing t u with
  | nil => exact ⟨ht, hu, htu⟩
  | cons w ws ih =>
    obtain ⟨hdir, hv⟩ := hws w mem_cons_self
    have hrest := fun w hw => hws w (mem_cons_of_mem _ hw)
    by_cases hd : w.1 = d
    · -- made in both runs
      rw [filter_cons_of_pos (by simpa using hd)]
      simp only [userWrites, foldl_cons]
      rw [hd]
      rcases h.userWrite hv w.2.2 with ⟨x, hx, hwrite⟩ | hskip
      · rw [hwrite t ht, hwrite u hu]
        refine ih hrest (ht.update (Or.inl hx)) (hu.update (Or.inl hx)) fun y hy => ?_
        simp only [update_apply, htu y hy]
      · rw [hskip t ht, hskip u hu]
        exact ih hrest ht hu htu
    · -- made in the first run, on a page of the other directory
      rw [filter_cons_of_neg (by simpa using hd)]
      simp only [userWrites, foldl_cons]
      rw [hdir.resolve_left hd]
      rcases h.symm.userWrite hv w.2.2 with ⟨x, hx, hwrite⟩ | hskip
      · rw [hwrite t ht.symm]
        refine ih hrest (ht.update (Or.inr hx)) hu fun y hy => ?_
        have hne : y ≠ x := by
          rintro rfl
          exact Set.disjoint_left.mp h.pages hy hx
        exact (update_of_ne hne _ _).trans (htu y hy)
      · rw [hskip t ht.symm]
        exact ih hrest ht hu htu

/-- **Noninterference**: what is read through `d` after any writes depends on the writes
through `d` only. -/
theorem HalvesApart.noninterference (h : s.HalvesApart d d')
    (hws : ∀ w ∈ ws, (w.1 = d ∨ w.1 = d') ∧ w.2.1 < kernelVirtBase) (hv : virt < kernelVirtBase) :
    (s.userWrites ws).userRead d virt =
      (s.userWrites (ws.filter fun w => w.1 = d)).userRead d virt := by
  obtain ⟨h1, h2, hagree⟩ := h.writes_agree hws (t := s) (u := s) (fun _ _ => rfl) (fun _ _ => rfl)
    fun _ _ => rfl
  have hi := pdIndex_user hv
  have hj := ptIndex_lt virt
  simp only [userRead, h.pte_eq h1 hi hj, h.pte_eq h2 hi hj]
  split_ifs with hp
  · refine congrArg some (hagree _ ?_)
    rw [show (s.pte d (pdIndex virt) (ptIndex virt) / 4096 * 4096 + virt % 4096) / 4096 =
      s.pte d (pdIndex virt) (ptIndex virt) / 4096 by omega]
    exact mem_userPages hi hj hp
  · rfl

/-! ## The copy is apart from its source -/

variable {src pd : ℕ}

variable [Disk D] {S : FrameStock D} {own : ℕ → Option Place} {p : ℕ}

section

variable (hs : S.Spares s src)

include hs

theorem FrameStock.Spares.page (hg : g ∈ s.userPages src) : S.kept g := by
  obtain ⟨i, hi, j, hj, hp, rfl⟩ := hg
  have h := hs.frames _ (mem_spaceFrames.mpr (Or.inr (Or.inr ⟨i, hi, j, hj, hp, rfl⟩)))
  rwa [frame_div] at h

theorem FrameStock.Spares.userTable (hg : g ∈ s.userTables src) : S.kept g := by
  rcases hg with rfl | ⟨i, hi, hp, rfl⟩
  · exact hs.dir
  · have h := hs.frames _ (mem_spaceFrames.mpr (Or.inr (Or.inl ⟨i, hi, hp, rfl⟩)))
    rwa [frame_div] at h

end

section

variable (h : Copied S s s' own src p)

include h

/-- The source is as it was. -/
theorem Copied.source_pte (hs : S.Spares s src)
    (hi : i < 768) (hj : j < 1024) : s'.pte src i j = s.pte src i j :=
  pte_of_tables hs.aligned (fun x hx => h.kept x (hs.userTable hx)) hi hj

theorem Copied.userPages_source (hs : S.Spares s src) : s'.userPages src = s.userPages src := by
  ext g
  constructor <;> rintro ⟨i, hi, j, hj, hp, rfl⟩
  · rw [h.source_pte hs hi hj] at hp ⊢
    exact mem_userPages hi hj hp
  · rw [← h.source_pte hs hi hj] at hp ⊢
    exact mem_userPages hi hj hp

theorem Copied.userTables_source (hs : S.Spares s src) :
    s'.userTables src = s.userTables src := by
  ext g
  refine or_congr_right (exists_congr fun i => and_congr_right fun hi => ?_)
  rw [h.entry_eq hs.aligned hs.dir (by omega)]

theorem Copied.own_userPages
    (hg : g ∈ s'.userPages (p * 4096)) : ∃ i j, own g = some (.page i j) := by
  obtain ⟨i, hi, j, hj, hp, rfl⟩ := hg
  exact ⟨i, j, h.own_page hi hj hp⟩

theorem Copied.own_userTables (hg : g ∈ s'.userTables (p * 4096)) :
    own g = some .directory ∨ ∃ i, own g = some (.table i) := by
  rcases hg with rfl | ⟨i, hi, hp, rfl⟩
  · rw [frame_div]
    exact Or.inl h.dir
  · exact Or.inr ⟨i, h.own_table hi hp⟩

theorem Copied.halvesApart (hs : S.Spares s src)
    (happ : Disjoint (s.userPages src) (s.userTables src)) : s'.HalvesApart src (p * 4096) := by
  -- a frame of the source is kept, a frame of the copy is not
  have hnew : ∀ {g : ℕ} {r : Place}, own g = some r → ¬ S.kept g := fun {g r} hg =>
    (h.apart g (by rw [hg]; exact Option.some_ne_none _)).1
  refine ⟨⟨hs.aligned, Nat.mul_mod_left _ _⟩, Set.disjoint_left.mpr fun g hg hg' => ?_,
    Set.disjoint_left.mpr ?_⟩
  · obtain ⟨i, j, hown⟩ := h.own_userPages hg'
    rw [h.userPages_source hs] at hg
    exact hnew hown (hs.page hg)
  · rw [h.userPages_source hs, h.userTables_source hs]
    rintro g (hg | hg) (hg' | hg')
    · exact Set.disjoint_left.mp happ hg hg'
    · rcases h.own_userTables hg' with hown | ⟨i, hown⟩
      · exact hnew hown (hs.page hg)
      · exact hnew hown (hs.page hg)
    · obtain ⟨i, j, hown⟩ := h.own_userPages hg
      exact hnew hown (hs.userTable hg')
    · obtain ⟨i, j, hown⟩ := h.own_userPages hg
      rcases h.own_userTables hg' with hown' | ⟨k, hown'⟩ <;>
        · rw [hown] at hown'
          cases hown'

end

/-- **A clone is separate from its source**, if the frames of the source are in use, no page of it
is its directory or a table, and there are free frames enough: what is read through one user half
depends on the writes through that one only. -/
theorem cloned_space_separate (hs : s.CloneSource src)
    (happ : Disjoint (s.userPages src) (s.userTables src))
    (hroom : (s.spaceFrames src).length ≤ s.pmm.freeFrames) :
    ∃ s' pd, s.pagingCloneDirectory src = .ok (s', pd) ∧ s.Cloned s' src pd ∧
      ∀ ws : List (ℕ × ℕ × UInt8), (∀ w ∈ ws, (w.1 = src ∨ w.1 = pd) ∧ w.2.1 < kernelVirtBase) →
        ∀ d, d = src ∨ d = pd → ∀ virt < kernelVirtBase, (s'.userWrites ws).userRead d virt =
            (s'.userWrites (ws.filter fun w => w.1 = d)).userRead d virt := by
  obtain ⟨s', p, own, hclone, hcopy⟩ := hs.clone (hroom.trans_eq hs.pmm.count)
  have hsep := hcopy.halvesApart hs.spared happ
  refine ⟨s', _, hclone, hcopy.cloned hs, fun ws hws d hd virt hv => ?_⟩
  rcases hd with rfl | rfl
  · exact hsep.noninterference hws hv
  · exact hsep.symm.noninterference (fun w hw => ⟨(hws w hw).1.symm, (hws w hw).2⟩) hv

/-! ## The directories of processes -/

section

omit [Disk D]

/-- The directory of a process can be cloned. -/
theorem PageInv.cloneSource {boot : ℕ} {live : List ℕ} {own : ℕ → Role}
    (hs : s.PageInv boot live own) {d : ℕ} (hd : d ∈ live) (hboot : d ≠ boot) :
    s.CloneSource d ∧ Disjoint (s.userPages d) (s.userTables d) := by
  have hdir := hs.dir_own d hd
  have htable : ∀ i < 768, s.entry d i % 2 = 1 → own (s.entry d i / 4096) = .userTable d i := by
    intro i hi hp
    rw [hs.table_own d hd i (by omega) hp, tableRole, if_pos hi]
  have hpage : ∀ i < 768, ∀ j < 1024, s.pte d i j % 2 = 1 →
      own (s.pte d i j / 4096) = .userPage d i j := by
    intro i hi j hj hp
    rw [hs.page_own d hd i (by omega) j hj (exclusive_user hboot hi) hp, pageRole, if_pos hi]
  have hused : ∀ {g : ℕ} {r : Role}, own g = r → r ≠ .free → g ∉ s.pmm.freeSet :=
    fun {g r} hg hr hfree => hr (hg.symm.trans ((hs.free_iff g).mpr hfree))
  refine ⟨⟨hs.pmm, hs.dir_aligned d hd, fun a ha => ?_⟩, Set.disjoint_left.mpr ?_⟩
  · rcases mem_spaceFrames.mp ha with rfl | ⟨i, hi, hp, rfl⟩ | ⟨i, hi, j, hj, hp, rfl⟩
    · exact hused hdir Role.noConfusion
    · rw [frame_div]
      exact hused (htable i hi hp) Role.noConfusion
    · rw [frame_div]
      exact hused (hpage i hi j hj hp) Role.noConfusion
  · rintro g ⟨i, hi, j, hj, hp, rfl⟩ (heq | ⟨k, hk, hpk, heq⟩)
    · have hrole := hpage i hi j hj hp
      rw [heq, hdir] at hrole
      cases hrole
    · have hrole := hpage i hi j hj hp
      rw [heq, htable k hk hpk] at hrole
      cases hrole

theorem filter_range_single {n : ℕ} (hk : k < n) {q : ℕ → Bool}
    (h : ∀ j < n, q j = true ↔ j = k) : (List.range n).filter q = [k] := by
  have hcongr : (List.range n).filter q = (List.range n).filter (· == k) :=
    filter_congr fun j hj => by
      rw [Bool.eq_iff_iff, h j (List.mem_range.mp hj), beq_iff_eq]
  rw [hcongr, filter_beq, count_eq_one_of_mem nodup_range (List.mem_range.mpr hk)]
  rfl

/-- An address space with one table has its frame, that of the directory, and one for each
page. -/
theorem length_spaceFrames_single (hk : k < 768) (h : ∀ i < 768, s.entry d i % 2 = 1 ↔ i = k) :
    (s.spaceFrames d).length = s.pageCount (s.entry d k / 4096 * 4096) 1024 + 2 := by
  have hfilter : (List.range 768).filter (fun i => hasFlag (s.entry d i) pagePresent) = [k] :=
    filter_range_single hk fun i hi => by rw [hasFlag_present, decide_eq_true_eq, h i hi]
  simp only [length_spaceFrames, frameCount, hfilter, flatMap_cons, flatMap_nil,
    append_nil, length_append, length_singleton, length_tableFrames, frameOf_entry]

end

/-- A process with one page, at 4 MiB. -/
theorem exists_one_page (swap : Swap D) (disk : D) :
    ∃ (b : Processes D) (own : ℕ → Role) (d : ℕ), b.Inv own ∧ d ∈ b.dirs ∧
      b.paging.currentPd = d ∧ b.paging.swap = swap ∧ 20 ≤ b.paging.pmm.freeSet.card ∧
      (∀ i < 768, b.paging.entry d i % 2 = 1 ↔ i = 1) ∧
      ∀ i < 768, ∀ j < 1024, (b.paging.pte d i j % 2 = 1 ↔ i = 1 ∧ j = 0) ∧
        ¬ Swapped (b.paging.pte d i j) := by
  obtain ⟨-, a, own, d, -, -, hs, hdirs, hcur, hswap, hcard, hempty⟩ := exists_process swap disk
  have hmem : a.paging.currentPd ∈ a.dirs := by rw [hcur, hdirs]; exact mem_singleton_self d
  have hzero : ∀ i < 768, ∀ j, a.paging.pte d i j = 0 := fun i hi j =>
    pte_of_absent (by rw [hempty i hi]; decide) j
  obtain ⟨s', hmap, hsame, hleft⟩ := hs.pages.mapFresh_of_free hs.current
    (show pdIndex 0x400000 < 1023 by decide) (by omega)
  obtain ⟨t, own1, f, hmap', hf⟩ := hs.pages.toTableInv.mapFresh hs.current
    (show pdIndex 0x400000 < 1023 by decide) (Finset.card_pos.mp (by omega)) (Or.inr (by omega))
  obtain rfl := Except.ok.inj (hmap'.symm.trans hmap)
  have hfault : a.paging.pageFaultHandler 0x400000 4 = .ok t := by
    rw [pageFaultHandler_eq (by decide), hcur, hzero _ (by decide), if_neg (by decide),
      if_pos (by decide)]
    exact hmap
  have habsent : a.paging.pte a.paging.currentPd (pdIndex 0x400000) (ptIndex 0x400000) % 2 ≠ 1 := by
    rw [hcur, hzero _ (by decide)]
    decide
  obtain ⟨own', hs'⟩ := hs.step (.fault hmem (by decide) habsent hfault)
  have hentry := hf.entry_eq
  have hpte := hf.pte_eq
  have hpresent := hf.present
  have hpage := hf.pte_page
  rw [hcur, show pdIndex 0x400000 = 1 by decide] at hentry hpte hpresent hpage
  rw [show ptIndex 0x400000 = 0 by decide] at hpte hpage
  refine ⟨_, own', d, hs', by rw [hdirs]; exact mem_singleton_self d,
    hf.currentPd.trans hcur, hsame.trans hswap, show 20 ≤ t.pmm.freeSet.card by omega,
    fun i hi => ?_, fun i hi j hj => ?_⟩
  · by_cases hi1 : i = 1
    · exact iff_of_true (hi1 ▸ hpresent) hi1
    · rw [hentry i (by omega) hi1, hempty i hi]
      exact iff_of_false (by decide) hi1
  · by_cases hij : i = 1 ∧ j = 0
    · obtain ⟨rfl, rfl⟩ := hij
      rw [hpage]
      exact ⟨iff_of_true (pageEntry_mod_two _ _) ⟨rfl, rfl⟩,
        fun hsw => hsw.1 (pageEntry_mod_two _ _)⟩
    · rw [hpte i (by omega) j hj (by tauto), hzero i hi j]
      exact ⟨iff_of_false (by decide) hij, by decide⟩

omit [Disk D] in
theorem length_one_page (hentry : ∀ i < 768, s.entry d i % 2 = 1 ↔ i = 1)
    (hpte : ∀ i < 768, ∀ j < 1024, s.pte d i j % 2 = 1 ↔ i = 1 ∧ j = 0) :
    (s.spaceFrames d).length = 3 := by
  have hp := (hentry 1 (by decide)).mpr rfl
  have hfilter : (List.range 1024).filter
      (fun j => hasFlag (s.entry (s.entry d 1 / 4096 * 4096) j) pagePresent) = [0] :=
    filter_range_single (by decide) fun j hj => by
      rw [hasFlag_present, decide_eq_true_eq, ← pte_of_present hp, hpte 1 (by decide) j hj]
      exact and_iff_right rfl
  rw [length_spaceFrames_single (by decide) hentry, pageCount, hfilter]
  rfl

/-- A process with one page is cloned. -/
theorem cloned_space_separate_one :
    ∃ (s s' : Paging DiskImage) (src pd : ℕ), s.pte src 1 0 % 2 = 1 ∧
      s.pagingCloneDirectory src = .ok (s', pd) ∧ s.Cloned s' src pd ∧
      (s'.userWrites [(src, 0x400000, 7), (pd, 0x400000, 9)]).userRead src 0x400000 =
        (s'.userWrites [(src, 0x400000, 7)]).userRead src 0x400000 := by
  obtain ⟨b, own, d, hs, hd, -, -, hcard, hentry, hpte⟩ :=
    exists_one_page blankSwap (fun _ _ _ => 0)
  obtain ⟨hsrc, happ⟩ := hs.pages.cloneSource (mem_cons_of_mem _ hd) (hs.ne_boot hd)
  obtain ⟨s', pd, hclone, hcl, hni⟩ := cloned_space_separate hsrc happ
    (by rw [length_one_page hentry fun i hi j hj => (hpte i hi j hj).1, hs.pages.pmm.count]; omega)
  have hne : pd ≠ d := by
    rintro rfl
    have hmem : pd ∈ b.paging.spaceFrames pd := mem_spaceFrames.mpr (Or.inl rfl)
    have hmem' : pd ∈ s'.spaceFrames pd := mem_spaceFrames.mpr (Or.inl rfl)
    exact hcl.disjoint hmem' hmem
  have h := hni [(d, 0x400000, 7), (pd, 0x400000, 9)] (by
    intro w hw
    rcases List.mem_pair.mp hw with rfl | rfl
    · exact ⟨Or.inl rfl, show 0x400000 < kernelVirtBase by decide⟩
    · exact ⟨Or.inr rfl, show 0x400000 < kernelVirtBase by decide⟩) d (Or.inl rfl) 0x400000
      (by decide)
  refine ⟨b.paging, s', d, pd, (hpte 1 (by decide) 0 (by decide)).1.mpr ⟨rfl, rfl⟩, hclone, hcl, ?_⟩
  rw [h]
  simp [hne]

/-! ## The boot directory

Its user half maps free frames to themselves, so the copy is made in frames the source
maps. -/

/-- The directory of the copy is the first frame `alloc_frame_zero` gives. -/
theorem pagingCloneDirectory_dir (hs : s.pmm.Inv) (hne : s.pmm.freeSet.Nonempty)
    (h : s.pagingCloneDirectory src = .ok (s', pd)) : pd = s.pmm.freeSet.min' hne * 4096 := by
  rw [pagingCloneDirectory, allocFrameZero_of_free hs hne] at h
  dsimp only at h
  split at h
  · cases h
  · exact (ok_pair h).2.symm

omit [Disk D] in
theorem Started.pageCount_eq_zero {s0 : Paging D} (h : Started s0 s 4096) (hi : i < 768)
    (hge : 4 ≤ i) (hp : s.entry s.currentPd i % 2 = 1) :
    s.pageCount (s.entry s.currentPd i / 4096 * 4096) 1024 = 0 := by
  refine List.length_eq_zero_iff.mpr (List.filter_eq_nil_iff.mpr fun j hj => ?_)
  have hzero := h.unmapped i hi j (List.mem_range.mp hj) (by omega)
  rw [pte_of_present hp] at hzero
  rw [hzero]
  decide

omit [Disk D] in
/-- The frames of the user half of the boot directory: the pages of four tables at most. -/
theorem Started.length_spaceFrames_le {s0 : Paging D} (h : Started s0 s 4096) :
    (s.spaceFrames s.currentPd).length ≤ 4865 := by
  have hcount : ∀ n ≤ 768, s.frameCount s.currentPd n ≤ n + 1024 * min n 4 := by
    intro n hn
    induction n with
    | zero => exact le_rfl
    | succ n ih =>
      have hle := ih (by omega)
      have hpages : s.pageCount (s.entry s.currentPd n / 4096 * 4096) 1024 ≤ 1024 :=
        (length_filter_le _ _).trans_eq length_range
      rw [frameCount_succ]
      split_ifs with hp
      · by_cases hn4 : n < 4
        · omega
        · have hzero := h.pageCount_eq_zero (by omega) (by omega) hp
          omega
      · omega
  have hle := hcount 768 le_rfl
  rw [length_spaceFrames]
  omega

/-- Cloning the boot directory of a machine with 32 MiB: the copy shares a frame with it. -/
theorem clone_of_boot_shares_frame : ∃ (pmm : Pmm) (s : Paging DiskImage),
      pmmInit 1 smallImage.kernelEnd (some wideMachine) = some pmm ∧
      (boot pmm (fun _ => 0) (fun _ _ _ => 0) : Paging DiskImage).pagingInit smallImage = .ok s ∧
      (∀ i < 768, ∀ j < 1024, ¬ Swapped (s.pte s.currentPd i j)) ∧
      (s.spaceFrames s.currentPd).length ≤ s.pmm.freeFrames ∧
      ¬ ∃ s' pd, s.pagingCloneDirectory s.currentPd = .ok (s', pd) ∧
        s.Cloned s' s.currentPd pd := by
  obtain ⟨pmm, s, hpmm, hrun, hstart, hcard, -, htotal⟩ :=
    exists_wide_start (D := DiskImage) (fun _ => 0) (fun _ _ _ => 0)
  obtain ⟨own, hinv⟩ := hstart.inv
  have hne : s.pmm.freeSet.Nonempty := Finset.card_pos.mp (by omega)
  have hlen := hstart.length_spaceFrames_le
  refine ⟨pmm, s, hpmm, hrun, fun i hi j hj hsw => ?_, by rw [hinv.pmm.count]; omega, ?_⟩
  · -- a word of the user half is present or zero
    by_cases hlt : i * 1024 + j < 4096
    · have hid := hstart.identity (i * 1024 + j) hlt
      rw [show (i * 1024 + j) / 1024 = i by omega, show (i * 1024 + j) % 1024 = j by omega] at hid
      exact hsw.1 (by rw [hid]; exact pageEntry_mod_two _ _)
    · rw [hstart.unmapped i hi j hj (by omega)] at hsw
      exact absurd hsw (by decide)
  · rintro ⟨s', pd, hclone, hcl⟩
    have hpd := pagingCloneDirectory_dir hinv.pmm hne hclone
    have hlt := min_free_lt (by omega) htotal hne
    set f := s.pmm.freeSet.min' hne with hf
    have hid := hstart.identity f hlt
    have hword : s.pte s.currentPd (f / 1024) (f % 1024) / 4096 = f := by
      rw [hid, pageEntry_div (by omega), frame_div]
    refine hcl.disjoint (mem_spaceFrames.mpr (Or.inl rfl)) (mem_spaceFrames.mpr
      (Or.inr (Or.inr ⟨f / 1024, by omega, f % 1024, Nat.mod_lt _ (by decide), ?_, ?_⟩)))
    · rw [hid]
      exact pageEntry_mod_two _ _
    · rw [hword, hpd]

end Paging

end PenOS
