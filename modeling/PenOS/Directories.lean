import PenOS.Lib.Fold
import PenOS.PageMap

/-!
# Making and destroying directories

`paging_create_directory` makes a directory with an empty user half that names the kernel tables
of the current one; `paging_destroy_directory` frees what hangs below the user half.
-/

namespace PenOS

open Function List

namespace Paging

variable {D : Type} {s s' : Paging D} {live : List ℕ} {own : ℕ → Role}

@[simp] theorem pagingSwitchDirectory_eq (s : Paging D) (pd : ℕ) :
    s.pagingSwitchDirectory pd = { s with currentPd := pd } := by
  unfold pagingSwitchDirectory
  split
  · rename_i h
    rw [h]
  · rfl

theorem TableInv.withCurrent (hs : s.TableInv live own) (pd : ℕ) :
    { s with currentPd := pd }.TableInv live own :=
  ⟨hs.pmm, hs.free_iff, hs.unmanaged, hs.dir_aligned, hs.dir_own, hs.table_own⟩

/-! ## Creating -/

/-- What `paging_create_directory` leaves: one more directory, in the frame `f`. -/
structure Created (s s' : Paging D) (live : List ℕ) (own : ℕ → Role) (f : ℕ) : Prop extends
    SameRest s s' where
  inv : s'.TableInv (f * 4096 :: live) (Function.update own f .directory)
  was_free : own f = .free
  taken : s'.pmm.freeSet = s.pmm.freeSet.erase f
  user : ∀ i < 768, s'.entry (f * 4096) i = 0
  kernel : ∀ i, 768 ≤ i → i < 1023 → s'.entry (f * 4096) i = s.entry s.currentPd i
  entry_eq : ∀ d ∈ live, ∀ i < 1024, s'.entry d i = s.entry d i
  pte_eq : ∀ d ∈ live, ∀ i < 1023, ∀ j < 1024, s'.pte d i j = s.pte d i j
  bytes : BytesKept s s' own

/-- The copying loop, after `n` entries: only the words of the new directory change. -/
structure CopyState (s s' : Paging D) (newPd n : ℕ) : Prop extends SameRest s s' where
  pmm : s'.pmm = s.pmm
  copied : ∀ i, 768 ≤ i → i < 768 + n → s'.entry newPd i = s.entry s.currentPd i
  rest : ∀ i < 1024, i < 768 ∨ 768 + n ≤ i → s'.entry newPd i = s.entry newPd i
  other : ∀ b, b % 4096 = 0 → b ≠ newPd → ∀ i < 1024, s'.entry b i = s.entry b i
  bytes : ∀ x, x < newPd ∨ newPd + 4096 ≤ x → s'.mem x = s.mem x

theorem copyKernelHalf_spec {newPd : ℕ} (hnew : newPd % 4096 = 0) (hcur : s.currentPd % 4096 = 0)
    (hne : s.currentPd ≠ newPd) : CopyState s (s.copyKernelHalf newPd) newPd 256 := by
  refine foldl_range'_induct (P := fun n s' => CopyState s s' newPd n) 768
    ⟨SameRest.refl s, rfl, fun i hi hi' => by omega, fun _ _ _ => rfl, fun _ _ _ _ _ => rfl,
      fun _ _ => rfl⟩
    fun k hk s1 h => ?_
  have hword : s1.entry s1.currentPd (768 + k) = s.entry s.currentPd (768 + k) := by
    rw [h.currentPd]
    exact h.other _ hcur hne _ (by omega)
  rw [hword]
  have hself : ∀ i < 1024, i ≠ 768 + k → (s1.setEntry newPd (768 + k)
      (s.entry s.currentPd (768 + k))).entry newPd i = s1.entry newPd i :=
    fun i hi hik => entry_setEntry_of_ne _ _ hnew hnew (by omega) hi (Or.inr hik)
  refine ⟨h.toSameRest.setEntry _ _ _, h.pmm, fun i hlo hhi => ?_, fun i hi hout => ?_,
    fun b hb hbn i hi => ?_, fun x hx => ?_⟩
  · by_cases hik : i = 768 + k
    · rw [hik, entry_setEntry_self]
      exact u32_of_lt (s.entry_lt _ _)
    · rw [hself i (by omega) hik]
      exact h.copied i hlo (by omega)
  · rw [hself i hi (by omega)]
    exact h.rest i hi (by omega)
  · rw [entry_setEntry_of_ne _ _ hnew hb (by omega) hi (Or.inl hbn)]
    exact h.other b hb hbn i hi
  · exact (Mem.store32_of_not_mem (by omega)).trans (h.bytes x hx)

/-- A fresh frame becomes a directory. -/
theorem FreshFrame.created {s1 : Paging D} {f : ℕ} (hs : s.TableInv live own)
    (hcur : s.currentPd ∈ live) (hf : f ∈ s.pmm.freeSet) (hfresh : s.FreshFrame s1 live own f) :
    s.Created ((s1.copyKernelHalf (f * 4096)).setRecursive (f * 4096)) live own f := by
  have hcurf := (hs.free_apart hf hcur).1
  have hcopy := copyKernelHalf_spec (s := s1) (Nat.mul_mod_left f 4096)
    (by rw [hfresh.currentPd]; exact hs.dir_aligned _ hcur) (by rw [hfresh.currentPd]; exact hcurf)
  generalize s1.copyKernelHalf (f * 4096) = s2 at hcopy ⊢
  unfold setRecursive
  generalize f * 4096 ||| pagePresent ||| pageRw = word
  -- words of the new directory, and of all other blocks
  have hself : ∀ i < 1023, (s2.setEntry (f * 4096) 1023 word).entry (f * 4096) i =
      s2.entry (f * 4096) i := fun i hi =>
    entry_setEntry_of_ne _ _ (by omega) (by omega) (by decide) (by omega) (Or.inr (by omega))
  have hother : ∀ b, b % 4096 = 0 → b ≠ f * 4096 → ∀ i < 1024,
      (s2.setEntry (f * 4096) 1023 word).entry b i = s.entry b i := by
    intro b hb hbn i hi
    rw [entry_setEntry_of_ne _ _ (by omega) hb (by decide) hi (Or.inl hbn),
      hcopy.other b hb hbn i hi,
      hfresh.entry_eq b hb hbn i hi]
  have huser : ∀ i < 768, (s2.setEntry (f * 4096) 1023 word).entry (f * 4096) i = 0 := by
    intro i hi
    rw [hself i (by omega), hcopy.rest i (by omega) (Or.inl hi), hfresh.zero i (by omega)]
  have hkernel : ∀ i, 768 ≤ i → i < 1023 →
      (s2.setEntry (f * 4096) 1023 word).entry (f * 4096) i = s.entry s.currentPd i := by
    intro i hlo hhi
    rw [hself i hhi, hcopy.copied i hlo (by omega), hfresh.currentPd,
      hfresh.entry_eq _ (hs.dir_aligned _ hcur) hcurf i (by omega)]
  have hentry : ∀ d ∈ live, ∀ i < 1024,
      (s2.setEntry (f * 4096) 1023 word).entry d i = s.entry d i :=
    fun d hd i hi => hother d (hs.dir_aligned d hd) (hs.free_apart hf hd).1 i hi
  -- a table or directory that existed before is another frame
  have hne : ∀ g, own g ≠ .free → Function.update own f Role.directory g = own g := by
    intro g hg
    refine update_of_ne ?_ _ _
    rintro rfl
    exact hg hfresh.was_free
  have htable : ∀ d ∈ live, ∀ i < 1023, s.entry d i % 2 = 1 →
      Function.update own f Role.directory (s.entry d i / 4096) = tableRole d i := by
    intro d hd i hi hp
    have h := hs.table_own d hd i hi hp
    rw [hne _ (by rw [h]; exact tableRole_ne_free _ _), h]
  refine ⟨(hfresh.toSameRest.trans hcopy.toSameRest).setEntry _ _ _, ⟨?_, ?_, ?_, ?_, ?_, ?_⟩,
    hfresh.was_free, ?_, huser, hkernel, hentry, ?_, fun x hl hx => ?_⟩
  · rw [setEntry_pmm, hcopy.pmm]
    exact hfresh.inv.pmm
  · intro g
    rw [setEntry_pmm, hcopy.pmm, ← hfresh.inv.free_iff]
    by_cases hg : g = f
    · subst hg
      simp
    · rw [update_of_ne hg, update_of_ne hg]
  · rw [setEntry_pmm, hcopy.pmm, hfresh.range.1, hfresh.range.2]
    exact hs.unmanaged_update (Or.inl hfresh.managed)
  · intro d hd
    rcases List.mem_cons.mp hd with rfl | hd
    · omega
    · exact hs.dir_aligned d hd
  · intro d hd
    rcases List.mem_cons.mp hd with rfl | hd
    · rw [frame_div, update_self]
    · rw [hne _ (by rw [hs.dir_own d hd]; exact Role.noConfusion)]
      exact hs.dir_own d hd
  · intro d hd i hi hp
    rcases List.mem_cons.mp hd with rfl | hd
    · by_cases hlo : i < 768
      · rw [huser i hlo] at hp
        cases hp
      · rw [hkernel i (by omega) hi] at hp ⊢
        rw [htable _ hcur i hi hp, tableRole, if_neg hlo, tableRole, if_neg hlo]
    · rw [hentry d hd i (by omega)] at hp ⊢
      exact htable d hd i hi hp
  · rw [setEntry_pmm, hcopy.pmm]
    exact hfresh.taken
  · intro d hd i hi j hj
    have he := hentry d hd i (by omega)
    by_cases hp : s.entry d i % 2 = 1
    · rw [pte_of_present (by rw [he]; exact hp), pte_of_present hp, he]
      have := (hs.free_apart hf hd).2 i hi hp
      exact hother _ (by omega) (by omega) j hj
    · rw [pte_of_absent (by rw [he]; exact hp), pte_of_absent hp]
  · have hxf : x / 4096 ≠ f := fun h => hx (h ▸ hfresh.was_free)
    exact ((Mem.store32_of_not_mem (by omega)).trans (hcopy.bytes x (by omega))).trans
      (hfresh.bytes x hl hx)

/-- **`paging_create_directory`**, with a free frame at hand. -/
theorem TableInv.pagingCreateDirectory [Disk D] (hs : s.TableInv live own)
    (hcur : s.currentPd ∈ live) (hne : s.pmm.freeSet.Nonempty) :
    ∃ s' f, s.pagingCreateDirectory = .ok (s', f * 4096) ∧ f ∈ s.pmm.freeSet ∧
      s.Created s' live own f := by
  obtain ⟨s1, f, halloc, hf, hfresh⟩ := hs.allocFrameZero hne
  refine ⟨_, f, ?_, hf, hfresh.created hs hcur hf⟩
  unfold Paging.pagingCreateDirectory
  rw [halloc]

/-! ## Destroying -/

theorem pagingDestroyDirectory_of_empty {pd : ℕ} (hne : pd ≠ s.currentPd)
    (hempty : ∀ i < 768, s.entry pd i % 2 ≠ 1) :
    s.pagingDestroyDirectory pd = { s with pmm := pmmFreeFrame s.pmm pd } := by
  have hfold : ∀ l : List ℕ, (∀ i ∈ l, i < 768) →
      l.foldl (fun pmm i => if hasFlag (s.entry pd i) pagePresent then
        pmmFreeFrame (s.freeTablePages (frameOf (s.entry pd i)) pmm)
          (frameOf (s.entry pd i)) else pmm) s.pmm = s.pmm := by
    intro l hl
    induction l with
    | nil => rfl
    | cons i l ih =>
      have hi := hempty i (hl i mem_cons_self)
      rw [foldl_cons, hasFlag_present, decide_eq_false hi, if_neg Bool.false_ne_true]
      exact ih fun k hk => hl k (mem_cons_of_mem i hk)
  have hloop : s.freeUserHalf pd = s.pmm := hfold _ fun i hi => List.mem_range.mp hi
  unfold pagingDestroyDirectory
  rw [if_neg hne, hloop]

/-- **Destroying a directory with an empty user half** frees its frame and keeps the other
directories. -/
theorem TableInv.destroyEmpty (hs : s.TableInv live own) (hnd : live.Nodup) {pd : ℕ}
    (hpd : pd ∈ live) :
    ∃ own', { s with pmm := pmmFreeFrame s.pmm pd }.TableInv (live.erase pd) own' ∧
      ∀ g, g ≠ pd / 4096 → own' g = own g := by
  have hmem : ∀ d ∈ live.erase pd, d ∈ live ∧ d / 4096 ≠ pd / 4096 := by
    intro d hd
    have hdl := mem_of_mem_erase hd
    have hne : d ≠ pd := fun h => hnd.not_mem_erase (h ▸ hd)
    have h1 := hs.dir_aligned d hdl
    have h2 := hs.dir_aligned pd hpd
    exact ⟨hdl, by omega⟩
  by_cases hrange : s.pmm.baseUsableFrame ≤ pd / 4096 ∧ pd / 4096 < s.pmm.totalFrames
  · refine ⟨Function.update own (pd / 4096) .free,
      ⟨pmmFreeFrame_inv hs.pmm pd, fun g => ?_, ?_, fun d hd => hs.dir_aligned d (hmem d hd).1,
        fun d hd => ?_, fun d hd i hi hp => ?_⟩, fun g hg => update_of_ne hg _ _⟩
    · rw [freeSet_pmmFreeFrame hs.pmm hrange.1 hrange.2, Finset.mem_insert]
      by_cases hg : g = pd / 4096
      · rw [hg, update_self]
        simp
      · rw [update_of_ne hg, hs.free_iff]
        tauto
    · rw [pmmFreeFrame_base, pmmFreeFrame_total]
      exact hs.unmanaged_update (Or.inl hrange)
    · rw [update_of_ne (hmem d hd).2]
      exact hs.dir_own d (hmem d hd).1
    · have htable := hs.table_own d (hmem d hd).1 i hi hp
      have hne : s.entry d i / 4096 ≠ pd / 4096 := by
        intro heq
        rw [heq, hs.dir_own pd hpd] at htable
        exact tableRole_ne_directory d i htable.symm
      change Function.update own (pd / 4096) .free (s.entry d i / 4096) = _
      rw [update_of_ne hne]
      exact htable
  · rw [pmmFreeFrame_of_not_mem (by omega)]
    exact ⟨own, ⟨hs.pmm, hs.free_iff, hs.unmanaged, fun d hd => hs.dir_aligned d (hmem d hd).1,
      fun d hd => hs.dir_own d (hmem d hd).1, fun d hd => hs.table_own d (hmem d hd).1⟩,
      fun _ _ => rfl⟩

end Paging

end PenOS
