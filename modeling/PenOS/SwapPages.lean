import PenOS.Processes

/-!
# Pages in the swap area

`Paging.view` reads a page from memory while it is present and from its slot while it is swapped
out. For this no two pages may share a slot (`SlotInv`), and the disk must return what was written.
-/

namespace PenOS

open Function List

/-- Writes succeed, and reading sectors gives what was last written to them. -/
class ReliableDisk (D : Type) [Disk D] : Prop where
  write_ok : ∀ (disk : D) (port lba : ℕ) (data : ℕ → UInt8),
    (Disk.ahciWrite disk port lba data).2 = true
  read_write : ∀ (disk : D) (port lba : ℕ) (data buffer : ℕ → UInt8), ∀ k < 4096,
    (Disk.ahciRead (Disk.ahciWrite disk port lba data).1 port lba buffer).1 k = data k
  /-- the sectors of other pages are not touched -/
  read_other : ∀ (disk : D) (port lba lba' : ℕ) (data buffer : ℕ → UInt8),
    lba + 8 ≤ lba' ∨ lba' + 8 ≤ lba → ∀ k < 4096,
      (Disk.ahciRead (Disk.ahciWrite disk port lba data).1 port lba' buffer).1 k =
        (Disk.ahciRead disk port lba' buffer).1 k
  /-- a read fills the buffer, whatever it held -/
  read_buffer : ∀ (disk : D) (port lba : ℕ) (buffer buffer' : ℕ → UInt8), ∀ k < 4096,
    (Disk.ahciRead disk port lba buffer).1 k = (Disk.ahciRead disk port lba buffer').1 k

instance : ReliableDisk DiskImage where
  write_ok _ _ _ _ := rfl
  read_write disk port lba data buffer k _ := by
    change (if port = port ∧ lba = lba then data else disk port lba) k = data k
    rw [if_pos ⟨rfl, rfl⟩]
  read_other disk port lba lba' data buffer h k _ := by
    change (if port = port ∧ lba' = lba then data else disk port lba') k = disk port lba' k
    rw [if_neg (by omega)]
  read_buffer _ _ _ _ _ _ _ := rfl

variable {D : Type} [Disk D]
variable {d i i0 j j0 k port slot : ℕ} {buffer : ℕ → UInt8}

/-! ## Slots -/

/-- The page in a slot. -/
def Swap.slotData (s : Swap D) (slot : ℕ) : Fin 4096 → UInt8 :=
  fun k => (s.swapIn slot fun _ => 0).1 k

theorem Swap.swapIn_eq [ReliableDisk D] (s : Swap D) (slot : ℕ)
    (h : ∀ k < 4096, buffer k = 0) (hk : k < 4096) :
    (s.swapIn slot buffer).1 k = s.slotData slot ⟨k, hk⟩ := by
  simp only [slotData, swapIn]
  rcases s.swapPort with _ | port
  · exact h k hk
  · split_ifs
    · exact h k hk
    · exact ReliableDisk.read_buffer _ _ _ _ _ k hk

/-- A written slot holds the page. -/
theorem SwapWritten.slotData_self [ReliableDisk D] {s s' : Swap D}
    (h : SwapWritten s s' buffer slot port) (k : Fin 4096) : s'.slotData slot k = buffer k := by
  rw [h.result]
  simp only [Swap.slotData, Swap.swapIn, h.port_eq, if_neg (not_le.mpr h.slot_lt)]
  exact ReliableDisk.read_write _ _ _ _ _ k k.isLt

theorem SwapWritten.slotData_other [ReliableDisk D] {s s' : Swap D}
    {slot' : ℕ} (h : SwapWritten s s' buffer slot port) (hne : slot' ≠ slot) :
    s'.slotData slot' = s.slotData slot' := by
  funext k
  rw [h.result]
  simp only [Swap.slotData, Swap.swapIn, h.port_eq]
  split_ifs
  · rfl
  · refine ReliableDisk.read_other _ _ _ _ _ _ ?_ k k.isLt
    simp only [slotLba]
    omega

namespace Paging

variable {s s' : Paging D} {boot : ℕ} {live dirs : List ℕ} {own : ℕ → Role}

omit [Disk D] in
/-- The bytes behind a page-table word. -/
def pageData (s : Paging D) (d i j : ℕ) : Fin 4096 → UInt8 :=
  fun k => s.mem (s.pte d i j / 4096 * 4096 + k)

/-- What a process sees of a page: its contents, wherever they are. -/
def view (s : Paging D) (d i j : ℕ) : Option (Fin 4096 → UInt8) :=
  if s.pte d i j % 2 = 1 then some (s.pageData d i j)
  else if Swapped (s.pte d i j) then some (s.swap.slotData (s.pte d i j / 4096))
  else none

theorem view_of_present (h : s.pte d i j % 2 = 1) :
    s.view d i j = some (s.pageData d i j) := if_pos h

theorem view_of_swapped (h : Swapped (s.pte d i j)) :
    s.view d i j = some (s.swap.slotData (s.pte d i j / 4096)) := by
  rw [view, if_neg h.1, if_pos h]

omit [Disk D] in
/-- Every page that is swapped out has a slot of its own, marked used. -/
structure SlotInv (s : Paging D) (dirs : List ℕ) : Prop where
  slot_lt : ∀ d ∈ dirs, ∀ i < 768, ∀ j < 1024, Swapped (s.pte d i j) →
    s.pte d i j / 4096 < swapSizePages
  slot_used : ∀ d ∈ dirs, ∀ i < 768, ∀ j < 1024, Swapped (s.pte d i j) →
    s.swap.swapBitmap.test (s.pte d i j / 4096) = true
  slot_inj : ∀ d ∈ dirs, ∀ i < 768, ∀ j < 1024, ∀ d' ∈ dirs, ∀ i' < 768, ∀ j' < 1024,
    Swapped (s.pte d i j) → Swapped (s.pte d' i' j') →
    s.pte d i j / 4096 = s.pte d' i' j' / 4096 → d = d' ∧ i = i' ∧ j = j'

omit [Disk D] in
theorem SlotInv.mono {dirs' : List ℕ} (h : s.SlotInv dirs)
    (hold : ∀ d ∈ dirs', ∀ i < 768, ∀ j < 1024, Swapped (s'.pte d i j) →
      d ∈ dirs ∧ s'.pte d i j = s.pte d i j)
    (hused : ∀ d ∈ dirs', ∀ i < 768, ∀ j < 1024, Swapped (s'.pte d i j) →
      s.swap.swapBitmap.test (s.pte d i j / 4096) = true →
      s'.swap.swapBitmap.test (s.pte d i j / 4096) = true) : s'.SlotInv dirs' := by
  refine ⟨fun d hd i hi j hj hsw => ?_, fun d hd i hi j hj hsw => ?_,
    fun d hd i hi j hj d' hd' i' hi' j' hj' hsw hsw' => ?_⟩
  · obtain ⟨hd0, heq⟩ := hold d hd i hi j hj hsw
    rw [heq] at hsw ⊢
    exact h.slot_lt d hd0 i hi j hj hsw
  · obtain ⟨hd0, heq⟩ := hold d hd i hi j hj hsw
    have hu := hused d hd i hi j hj hsw
    rw [heq] at hsw ⊢
    exact hu (h.slot_used d hd0 i hi j hj hsw)
  · obtain ⟨hd0, heq⟩ := hold d hd i hi j hj hsw
    obtain ⟨hd0', heq'⟩ := hold d' hd' i' hi' j' hj' hsw'
    rw [heq] at hsw ⊢
    rw [heq'] at hsw' ⊢
    exact h.slot_inj d hd0 i hi j hj d' hd0' i' hi' j' hj' hsw hsw'

/-! ## Views that stay -/

section

omit [Disk D]

/-- The role of a mapped page of a process. -/
theorem PageInv.user_role (hs : s.PageInv boot live own) (hd : d ∈ live)
    (hne : d ≠ boot) (hi : i < 768) (hj : j < 1024) (hp : s.pte d i j % 2 = 1) :
    own (s.pte d i j / 4096) = .userPage d i j := by
  rw [hs.page_own d hd i (by omega) j hj (exclusive_user hne hi) hp, pageRole, if_pos hi]

/-- Nothing writes to the pages of processes. -/
theorem BytesKept.page (h : s.BytesKept s' own) (x : ℕ)
    (hx : own (x / 4096) = .userPage d i j) : s'.mem x = s.mem x :=
  h x (by rw [hx]; trivial) (by rw [hx]; exact Role.noConfusion)

theorem PageInv.pageData_eq (hs : s.PageInv boot live own) (hd : d ∈ live)
    (hne : d ≠ boot) (hi : i < 768) (hj : j < 1024) (hp : s.pte d i j % 2 = 1)
    (hframe : s'.pte d i j / 4096 = s.pte d i j / 4096)
    (hbytes : ∀ x, own (x / 4096) = .userPage d i j → s'.mem x = s.mem x) :
    s'.pageData d i j = s.pageData d i j := by
  funext k
  simp only [pageData, hframe]
  refine hbytes _ ?_
  rw [show (s.pte d i j / 4096 * 4096 + (k : ℕ)) / 4096 = s.pte d i j / 4096 by
    have := k.isLt
    omega]
  exact hs.user_role hd hne hi hj hp

end

/-- Same word, same bytes, same slot. -/
theorem PageInv.view_eq (hs : s.PageInv boot live own) (hd : d ∈ live)
    (hne : d ≠ boot) (hi : i < 768) (hj : j < 1024) (hpte : s'.pte d i j = s.pte d i j)
    (hbytes : ∀ x, own (x / 4096) = .userPage d i j → s'.mem x = s.mem x)
    (hslot : Swapped (s.pte d i j) → s'.swap.slotData (s.pte d i j / 4096) =
      s.swap.slotData (s.pte d i j / 4096)) : s'.view d i j = s.view d i j := by
  by_cases hp : s.pte d i j % 2 = 1
  · rw [view_of_present hp, view_of_present (by rw [hpte]; exact hp),
      hs.pageData_eq hd hne hi hj hp (by rw [hpte]) hbytes]
  · by_cases hsw : Swapped (s.pte d i j)
    · rw [view_of_swapped hsw, view_of_swapped (by rw [hpte]; exact hsw), hpte, hslot hsw]
    · simp only [view, hpte, if_neg hp, if_neg hsw]

/-! ## Eviction -/

/-- Eviction keeps slots exclusive, and what processes see. -/
structure ViewsKept (s s' : Paging D) (dirs : List ℕ) : Prop where
  slots : s'.SlotInv dirs
  view : ∀ d ∈ dirs, ∀ i < 768, ∀ j < 1024, s'.view d i j = s.view d i j

theorem ViewsKept.trans {s₁ : Paging D} (h : s.ViewsKept s₁ dirs) (h' : s₁.ViewsKept s' dirs) :
    s.ViewsKept s' dirs :=
  ⟨h'.slots, fun d hd i hi j hj => (h'.view d hd i hi j hj).trans (h.view d hd i hi j hj)⟩

section

variable (hs : s.PageInv boot live own) (hdirs : ∀ d ∈ dirs, d ∈ live ∧ d ≠ boot)
  (hslots : s.SlotInv dirs)

include hs hdirs hslots

theorem PageInv.viewsKept (hpte : ∀ d ∈ dirs, ∀ i < 768, ∀ j < 1024, s'.pte d i j = s.pte d i j)
    (hbytes : s.BytesKept s' own) (hswap : s'.swap = s.swap) : s.ViewsKept s' dirs := by
  refine ⟨hslots.mono (fun d hd i hi j hj _ => ⟨hd, hpte d hd i hi j hj⟩)
    (fun _ _ _ _ _ _ _ h => by rw [hswap]; exact h), fun d hd i hi j hj => ?_⟩
  exact hs.view_eq (hdirs d hd).1 (hdirs d hd).2 hi hj (hpte d hd i hi j hj) hbytes.page
    fun _ => by rw [hswap]

theorem PageInv.viewsKept_flags
    (hcur : s.currentPd ∈ live) {v : ℕ} (hi0 : i0 < 768) (hj0 : j0 < 1024)
    (hp : s.pte s.currentPd i0 j0 % 2 = 1) (hdiv : u32 v / 4096 = s.pte s.currentPd i0 j0 / 4096)
    (hmod : u32 v % 2 = 1) :
    s.ViewsKept (s.setEntry (s.entry s.currentPd i0 / 4096 * 4096) j0 v) dirs := by
  have htable := entry_of_pte hp
  have hbytes : s.BytesKept (s.setEntry (s.entry s.currentPd i0 / 4096 * 4096) j0 v) own :=
    fun x hl _ => hs.bytes_setPte hcur (by omega) hj0 htable x hl
  have hpte : ∀ d ∈ dirs, ∀ i < 768, ∀ j < 1024,
      (s.setEntry (s.entry s.currentPd i0 / 4096 * 4096) j0 v).pte d i j =
        if d = s.currentPd ∧ i = i0 ∧ j = j0 then u32 v else s.pte d i j := fun d hd i hi j hj =>
    hs.pte_setPte_user hcur hi0 hj0 htable (hdirs d hd).1 (by omega) hj
  refine ⟨hslots.mono (fun d hd i hi j hj hsw => ⟨hd, ?_⟩) (fun _ _ _ _ _ _ _ h => h),
    fun d hd i hi j hj => ?_⟩
  · rw [hpte d hd i hi j hj] at hsw ⊢
    split_ifs at hsw ⊢
    · exact absurd hmod hsw.1
    · rfl
  · by_cases heq : d = s.currentPd ∧ i = i0 ∧ j = j0
    · have hword := hpte d hd i hi j hj
      rw [if_pos heq] at hword
      obtain ⟨rfl, rfl, rfl⟩ := heq
      rw [view_of_present hp, view_of_present (by rw [hword]; exact hmod),
        hs.pageData_eq hcur (hdirs _ hd).2 hi hj hp (by rw [hword]; exact hdiv) hbytes.page]
    · have hword := hpte d hd i hi j hj
      rw [if_neg heq] at hword
      exact hs.view_eq (hdirs d hd).1 (hdirs d hd).2 hi hj hword hbytes.page fun _ => rfl

theorem PageInv.viewsKept_swapped [ReliableDisk D]
    (hcur : s.currentPd ∈ live) (hi0 : i0 < 768) (hj0 : j0 < 1024)
    (h : s.SwappedOut s' i0 j0 slot port) : s.ViewsKept s' dirs := by
  have hlt : slot < 4096 := h.swap.slot_lt
  have htable := entry_of_pte h.present
  have hmem : s'.mem = (s.setEntry (s.entry s.currentPd i0 / 4096 * 4096) j0
      (slot * 4096 + 512)).mem := by rw [h.result]
  have hbytes : s.BytesKept s' own := fun x hl _ => by
    rw [hmem]
    exact hs.bytes_setPte hcur (by omega) hj0 htable x hl
  have hpte : ∀ d ∈ dirs, ∀ i < 768, ∀ j < 1024, s'.pte d i j =
      if d = s.currentPd ∧ i = i0 ∧ j = j0 then slot * 4096 + 512 else s.pte d i j :=
    fun d hd i hi j hj => h.pte_eq hs.toTableInv hcur hi0 hj0 (hdirs d hd).1 (by omega) hj
  have hdiv : (slot * 4096 + 512) / 4096 = slot := by omega
  have hbit : ∀ x, s'.swap.swapBitmap.test x = (decide (x = slot) || s.swap.swapBitmap.test x) := by
    intro x
    rw [h.swap.result]
    exact Bitmap.test_set _ _ _
  -- a slot in use is not the one just taken
  have hused : ∀ {x}, s.swap.swapBitmap.test x = true → x ≠ slot := by
    rintro x hx rfl
    rw [h.swap.was_free] at hx
    cases hx
  constructor
  · refine ⟨fun d hd i hi j hj hsw => ?_, fun d hd i hi j hj hsw => ?_,
      fun d hd i hi j hj d' hd' i' hi' j' hj' hsw hsw' heq => ?_⟩
    · rw [hpte d hd i hi j hj] at hsw ⊢
      split_ifs at hsw ⊢
      · rw [hdiv]
        exact hlt
      · exact hslots.slot_lt d hd i hi j hj hsw
    · rw [hpte d hd i hi j hj] at hsw ⊢
      rw [hbit]
      split_ifs at hsw ⊢
      · rw [hdiv, decide_eq_true rfl, Bool.true_or]
      · rw [hslots.slot_used d hd i hi j hj hsw, Bool.or_true]
    · rw [hpte d hd i hi j hj] at hsw heq
      rw [hpte d' hd' i' hi' j' hj'] at hsw' heq
      split_ifs at hsw hsw' heq with h1 h2 h2
      · obtain ⟨rfl, rfl, rfl⟩ := h1
        obtain ⟨rfl, rfl, rfl⟩ := h2
        exact ⟨rfl, rfl, rfl⟩
      · rw [hdiv] at heq
        exact absurd heq.symm (hused (hslots.slot_used d' hd' i' hi' j' hj' hsw'))
      · rw [hdiv] at heq
        exact absurd heq (hused (hslots.slot_used d hd i hi j hj hsw))
      · exact hslots.slot_inj d hd i hi j hj d' hd' i' hi' j' hj' hsw hsw' heq
  · intro d hd i hi j hj
    have hword := hpte d hd i hi j hj
    by_cases heq : d = s.currentPd ∧ i = i0 ∧ j = j0
    · rw [if_pos heq] at hword
      have hsw : Swapped (s'.pte d i j) := by
        rw [hword]
        constructor <;> omega
      rw [view_of_swapped hsw, hword, hdiv]
      obtain ⟨rfl, rfl, rfl⟩ := heq
      rw [view_of_present h.present]
      exact congrArg some (funext fun k => h.swap.slotData_self k)
    · rw [if_neg heq] at hword
      exact hs.view_eq (hdirs d hd).1 (hdirs d hd).2 hi hj hword hbytes.page fun hsw =>
        h.swap.slotData_other (hused (hslots.slot_used d hd i hi j hj hsw))

/-- One step of eviction. -/
theorem PageInv.viewsKept_step [ReliableDisk D]
    (hcur : s.currentPd ∈ live) (h : EvictStep s s') : s.ViewsKept s' dirs := by
  cases h with
  | hand pd pt hpd =>
    exact hs.viewsKept hdirs hslots (fun _ _ _ _ _ _ => pte_congr rfl _ _ _) (fun _ _ _ => rfl) rfl
  | clear i j hi hj hp =>
    refine hs.viewsKept_flags hdirs hslots hcur hi hj hp ?_ ?_ <;>
      rw [u32_of_lt (clearAccessed_lt _)]
    · exact clearAccessed_div (s.pte_lt _ _ _)
    · rw [clearAccessed_mod_two]
      exact hp
  | failed disk hdisk =>
    -- on a reliable disk nothing was asked for
    obtain rfl : disk = s.swap.disk := by
      rcases hdisk with rfl | ⟨port, lba, data, hw⟩
      · rfl
      · have hok := ReliableDisk.write_ok s.swap.disk port lba data
        rw [hw] at hok
        cases hok
    exact hs.viewsKept hdirs hslots (fun _ _ _ _ _ _ => pte_congr rfl _ _ _) (fun _ _ _ => rfl) rfl
  | swapped i j slot port hi hj h => exact hs.viewsKept_swapped hdirs hslots hcur hi hj h

theorem PageInv.viewsKept_steps [ReliableDisk D]
    (hcur : s.currentPd ∈ live) (hne : s.currentPd ≠ boot) (h : EvictSteps s s') :
    s.ViewsKept s' dirs := by
  induction h with
  | refl => exact ⟨hslots, fun _ _ _ _ _ _ => rfl⟩
  | tail hsteps hstep ih =>
    obtain ⟨own₁, hev⟩ := hs.evictSteps hcur hne hsteps
    exact ih.trans (hev.inv.viewsKept_step hdirs ih.slots (hev.currentPd ▸ hcur) hstep)

end

/-! ## Faults -/

omit [Disk D] in
theorem Mapped.pte_user {own' : ℕ → Role} {virt word flags : ℕ}
    (h : s.Mapped s' live own own' virt word flags) (hcur : s.currentPd ∈ live)
    (hv : pdIndex virt < 768) (hd : d ∈ live) (hi : i < 768) (hj : j < 1024) :
    s'.pte d i j = if d = s.currentPd ∧ i = pdIndex virt ∧ j = ptIndex virt then word
      else s.pte d i j := by
  by_cases hij : i = pdIndex virt ∧ j = ptIndex virt
  · obtain ⟨rfl, rfl⟩ := hij
    rw [h.pte_virt d hd]
    refine if_congr ⟨fun hsame => ⟨?_, rfl, rfl⟩, ?_⟩ rfl rfl
    · exact (h.inv.table_inj hd hcur (by omega) (by omega) hsame.1 h.present hsame.2).2 hi
    · rintro ⟨rfl, -, -⟩
      exact ⟨h.present, rfl⟩
  · rw [h.pte_other d hd i (by omega) j hj (by tauto), if_neg (by tauto)]

section NewPage

variable {s₁ s₂ s₃ : Paging D} {own₁ own₃ own₄ : ℕ → Role} {virt flags f : ℕ}
  (h : NewPage s s₁ s₂ s₃ s' boot live own own₁ own₃ own₄ virt flags f)

include h

theorem NewPage.viewsKept [ReliableDisk D]
    (hs : s.PageInv boot live own) (hdirs : ∀ d ∈ dirs, d ∈ live ∧ d ≠ boot)
    (hslots : s.SlotInv dirs) (hcur : s.currentPd ∈ live) (hne : s.currentPd ≠ boot) :
    s.ViewsKept s₃ dirs := by
  have h1 := hs.viewsKept_steps hdirs hslots hcur hne h.steps₁
  have h2 := h.evicted₁.inv.viewsKept hdirs h1.slots
    (fun d hd i hi j hj => h.fresh.pte_eq d (hdirs d hd).1 i (by omega) j hj) h.fresh.bytes
    h.fresh.swap
  have hcur2 : s₂.currentPd = s.currentPd := h.fresh.currentPd.trans h.evicted₁.currentPd
  have hinv2 : s₂.PageInv boot live _ := FreshFrame.pageInv h.evicted₁.inv h.fresh
  have h3 := hinv2.viewsKept_steps hdirs h2.slots (hcur2 ▸ hcur) (hcur2 ▸ hne) h.steps₂
  exact (h1.trans h2).trans h3

/-- The frame is still zero when it is mapped. -/
theorem NewPage.zero_bytes (hk : k < 4096) : s'.mem (f * 4096 + k) = 0 := by
  have hx : (f * 4096 + k) / 4096 = f := by omega
  have hrole2 : update own₁ f Role.other f = .other := update_self ..
  have hrole3 : own₃ f = .other :=
    (h.evicted₂.own_kept f (by rw [hrole2]; exact fun _ _ _ => Role.noConfusion)).trans hrole2
  rw [h.mapped.bytes _ (by rw [hx, hrole3]; trivial) (by rw [hx, hrole3]; exact Role.noConfusion),
    h.evicted₂.bytes _ (by rw [hx, hrole2]; trivial), h.fresh.zero_bytes k hk]

theorem NewPage.pte_user (hcur : s.currentPd ∈ live) (hv : pdIndex virt < 768) (hd : d ∈ live)
    (hi : i < 768) (hj : j < 1024) :
    s'.pte d i j = if d = s.currentPd ∧ i = pdIndex virt ∧ j = ptIndex virt then
      pageEntry (f * 4096) flags else s₃.pte d i j := by
  rw [h.mapped.pte_user (h.currentPd₃ ▸ hcur) hv hd hi hj, h.currentPd₃]

end NewPage

theorem slotData_swapFree (s : Swap D) (slot x : ℕ) :
    (s.swapFree slot).slotData x = s.slotData x := by
  simp only [Swap.swapFree]
  split_ifs <;> rfl

/-- The mapping keeps the views of all other pages. -/
theorem NewPage.view_other {s₁ s₂ s₃ : Paging D} {own₁ own₃ own₄ : ℕ → Role} {virt flags f : ℕ}
    (h : NewPage s s₁ s₂ s₃ s' boot live own own₁ own₃ own₄ virt flags f)
    (hdirs : ∀ d ∈ dirs, d ∈ live ∧ d ≠ boot) (hslots : s₃.SlotInv dirs)
    (hcur : s.currentPd ∈ live) (hv : pdIndex virt < 768) :
    s'.SlotInv dirs ∧ ∀ d ∈ dirs, ∀ i < 768, ∀ j < 1024,
      ¬ (d = s.currentPd ∧ i = pdIndex virt ∧ j = ptIndex virt) →
        s'.view d i j = s₃.view d i j := by
  have hpte : ∀ d ∈ dirs, ∀ i < 768, ∀ j < 1024, s'.pte d i j =
      if d = s.currentPd ∧ i = pdIndex virt ∧ j = ptIndex virt then pageEntry (f * 4096) flags
      else s₃.pte d i j := fun d hd i hi j hj => h.pte_user hcur hv (hdirs d hd).1 hi hj
  constructor
  · refine hslots.mono (fun d hd i hi j hj hsw => ⟨hd, ?_⟩) fun _ _ _ _ _ _ _ hu => by
      rw [h.mapped.swap]
      exact hu
    rw [hpte d hd i hi j hj] at hsw ⊢
    split_ifs at hsw ⊢
    · exact absurd (pageEntry_mod_two _ _) hsw.1
    · rfl
  · intro d hd i hi j hj hother
    have hword := hpte d hd i hi j hj
    rw [if_neg hother] at hword
    exact h.evicted₂.inv.view_eq (hdirs d hd).1 (hdirs d hd).2 hi hj hword h.mapped.bytes.page
      fun _ => by rw [h.mapped.swap]

theorem NewPage.readBack_views [ReliableDisk D] {s₁ s₂ s₃ : Paging D} {own₁ own₃ own₄ : ℕ → Role}
    {page f : ℕ} (h : NewPage s s₁ s₂ s₃ s' boot live own own₁ own₃ own₄ page 7 f)
    (hdirs : ∀ d ∈ dirs, d ∈ live ∧ d ≠ boot) (hslots : s₃.SlotInv dirs)
    (hcur : s.currentPd ∈ dirs) (hv : pdIndex page < 768) (hpage : page % 4096 = 0)
    (hsw : Swapped (s₃.pte s.currentPd (pdIndex page) (ptIndex page)))
    (hslot : s₃.pte s.currentPd (pdIndex page) (ptIndex page) / 4096 = slot) :
    s₃.ViewsKept (s'.readBack page slot) dirs ∧
      (s'.readBack page slot).pte s.currentPd (pdIndex page) (ptIndex page) % 2 = 1 ∧
      (s'.readBack page slot).swap.swapBitmap.test slot = false := by
  have hlive := (hdirs _ hcur).1
  have hpt := ptIndex_lt page
  obtain ⟨-, -, hpte'⟩ := h.readBack_inv hlive hpage slot
  obtain ⟨hslots', hother⟩ := h.view_other hdirs hslots hlive hv
  have hword := h.pte_virt hlive
  have hlt : slot < swapSizePages :=
    hslot ▸ hslots.slot_lt _ hcur _ hv _ hpt hsw
  have hbit : (s'.readBack page slot).swap.swapBitmap = s'.swap.swapBitmap.clear slot := by
    simp only [readBack, Swap.swapFree, if_pos hlt, Swap.markSlot]
    rfl
  have hdata : ∀ x, (s'.readBack page slot).swap.slotData x = s'.swap.slotData x :=
    slotData_swapFree _ _
  have hpresent : (s'.readBack page slot).pte s.currentPd (pdIndex page)
      (ptIndex page) % 2 = 1 := by
    rw [hpte' _ hlive _ (by omega) _ hpt, hword]
    exact pageEntry_mod_two _ _
  -- a page that is still swapped out has another slot
  have hne : ∀ d ∈ dirs, ∀ i < 768, ∀ j < 1024, Swapped (s'.pte d i j) →
      s'.pte d i j / 4096 ≠ slot := by
    intro d hd i hi j hj hsw' heq
    have hpte := h.pte_user hlive hv (hdirs d hd).1 hi hj
    rw [hpte] at hsw' heq
    split_ifs at hsw' heq with hsame
    · exact hsw'.1 (pageEntry_mod_two _ _)
    · exact hsame (hslots.slot_inj d hd i hi j hj _ hcur _ hv _ hpt hsw' hsw (heq.trans hslot.symm))
  refine ⟨⟨?_, fun d hd i hi j hj => ?_⟩, hpresent, by rw [hbit]; exact Bitmap.test_clear_self _ _⟩
  · refine hslots'.mono (fun d hd i hi j hj _ => ⟨hd, hpte' d (hdirs d hd).1 i (by omega) j hj⟩)
      fun d hd i hi j hj hsw' hu => ?_
    rw [hpte' d (hdirs d hd).1 i (by omega) j hj] at hsw'
    rw [hbit, Bitmap.test_clear_of_ne _ (hne d hd i hi j hj hsw')]
    exact hu
  · by_cases hsame : d = s.currentPd ∧ i = pdIndex page ∧ j = ptIndex page
    · -- the page itself: what is read into the zeroed frame
      obtain ⟨rfl, rfl, rfl⟩ := hsame
      have hf := h.fresh.lt h.evicted₁.inv.pmm
      have hframe : pageEntry (f * 4096) 7 / 4096 = f := by
        rw [pageEntry_div (by omega), frame_div]
      have hzero : ∀ k < 4096, s'.pageAt (f * 4096) k = 0 := fun k hk => h.zero_bytes hk
      rw [view_of_present hpresent, view_of_swapped hsw, hslot, ← h.mapped.swap]
      refine congrArg some (funext fun k => ?_)
      simp only [pageData, hpte' _ hlive _ (show pdIndex page < 1023 by omega) _ hpt, hword, hframe]
      simp only [readBack, h.virtToPhys hlive hpage]
      rw [Mem.paste_of_mem (by omega) (by have := k.isLt; omega), Nat.add_sub_cancel_left]
      exact s'.swap.swapIn_eq slot hzero k.isLt
    · rw [← hother d hd i hi j hj hsame]
      refine h.inv.view_eq (hdirs d hd).1 (hdirs d hd).2 hi hj
        (hpte' d (hdirs d hd).1 i (by omega) j hj) (fun x hx => Mem.paste_of_not_mem ?_)
        fun _ => hdata _
      rw [h.virtToPhys hlive hpage]
      by_contra hin
      rw [show x / 4096 = f by omega, update_self, pageRole, if_pos hv] at hx
      cases hx
      exact hsame ⟨rfl, rfl, rfl⟩

end Paging

/-! ## Events and runs -/

variable {a b : Processes D} {own : ℕ → Role}

omit [Disk D] in
theorem Processes.Inv.dirs_live (hs : a.Inv own) :
    ∀ d ∈ a.dirs, d ∈ a.boot :: a.dirs ∧ d ≠ a.boot :=
  fun _ hd => ⟨mem_cons_of_mem _ hd, hs.ne_boot hd⟩

theorem Processes.Inv.fault_views [ReliableDisk D] (hs : a.Inv own)
    (hslots : a.paging.SlotInv a.dirs) {s : Paging D} {cr2 errCode : ℕ}
    (hcur : a.paging.currentPd ∈ a.dirs) (hcr2 : cr2 < kernelVirtBase)
    (habsent : a.paging.pte a.paging.currentPd (pdIndex cr2) (ptIndex cr2) % 2 ≠ 1)
    (h : a.paging.pageFaultHandler cr2 errCode = .ok s) : s.SlotInv a.dirs ∧
      (∀ d ∈ a.dirs, ∀ i < 768, ∀ j < 1024,
        s.view d i j = a.paging.view d i j ∨ a.paging.view d i j = none) ∧
      (Paging.Swapped (a.paging.pte a.paging.currentPd (pdIndex cr2) (ptIndex cr2)) →
        s.pte a.paging.currentPd (pdIndex cr2) (ptIndex cr2) % 2 = 1 ∧ s.swap.swapBitmap.test
          (a.paging.pte a.paging.currentPd (pdIndex cr2) (ptIndex cr2) / 4096) = false) := by
  have hbase := kernelVirtBase_eq
  have hlt : cr2 < 4294967296 := by omega
  have hpage : (cr2 &&& 0xFFFFF000) % 4096 = 0 := by rw [and_pageMask hlt, Nat.mul_mod_left]
  have hpd : pdIndex cr2 < 768 := by
    rw [pdIndex]
    omega
  obtain ⟨s4, hmap, hcase⟩ := Paging.pageFaultHandler_cases hlt h
  rw [← Paging.pdIndex_page hlt] at hpd
  rw [← Paging.pdIndex_page hlt, ← Paging.ptIndex_page hlt] at habsent hcase ⊢
  generalize cr2 &&& 0xFFFFF000 = page at *
  obtain ⟨s₁, s₂, s₃, own₁, own₃, own₄, f, hnew⟩ := hs.pages.mapFresh_ok hs.current hs.hand
    (.inl (hs.ne_boot hcur)) (by omega) hmap
  have hkept := hnew.viewsKept hs.pages hs.dirs_live hslots hs.current (hs.ne_boot hcur)
  have hword := hnew.pte_absent hs.current (by omega) (Paging.ptIndex_lt page) habsent
  rcases hcase with ⟨hnot, rfl⟩ | ⟨hsw, rfl⟩
  · obtain ⟨hslots', hview⟩ := hnew.view_other hs.dirs_live hkept.slots hs.current hpd
    refine ⟨hslots', fun d hd i hi j hj => ?_, fun hsw => absurd hsw hnot⟩
    by_cases hsame : d = a.paging.currentPd ∧ i = pdIndex page ∧ j = ptIndex page
    · obtain ⟨rfl, rfl, rfl⟩ := hsame
      exact .inr (by rw [Paging.view, if_neg habsent, if_neg hnot])
    · exact .inl ((hview d hd i hi j hj hsame).trans (hkept.view d hd i hi j hj))
  · obtain ⟨hback, hp, hfree⟩ := hnew.readBack_views hs.dirs_live hkept.slots hcur hpd hpage
      (by rw [hword]; exact hsw) (by rw [hword])
    exact ⟨hback.slots, fun d hd i hi j hj => .inl ((hback.view d hd i hi j hj).trans
      (hkept.view d hd i hi j hj)), fun _ => ⟨hp, hfree⟩⟩

/-- What an event may do to a page: nothing a process could see, a write, or its first
appearance. -/
def Paging.Carried (s s' : Paging D) (d i j : ℕ) : Prop :=
  s'.view d i j = s.view d i j ∨ (s.pte d i j % 2 = 1 ∧ s'.pte d i j = s.pte d i j) ∨
    s.view d i j = none

omit [Disk D] in
theorem Paging.ViewsKept.carried [Disk D] {s s' : Paging D} {dirs : List ℕ}
    (h : s.ViewsKept s' dirs) :
    s'.SlotInv dirs ∧ ∀ d ∈ dirs, ∀ i < 768, ∀ j < 1024, s.Carried s' d i j :=
  ⟨h.slots, fun d hd i hi j hj => .inl (h.view d hd i hi j hj)⟩

/-- A new directory has no pages; the others keep theirs. -/
theorem Processes.Inv.create_views [ReliableDisk D] (hs : a.Inv own)
    (hslots : a.paging.SlotInv a.dirs)
    (hroom : a.paging.currentPd ∈ a.dirs ∨ a.paging.pmm.freeFrames ≠ 0) {s : Paging D} {pd : ℕ}
    (h : a.paging.pagingCreateDirectory = .ok (s, pd)) :
    s.SlotInv (pd :: a.dirs) ∧ ∀ d ∈ a.dirs, ∀ i < 768, ∀ j < 1024,
      s.view d i j = a.paging.view d i j := by
  -- the state in which the frame is taken
  have hstate : ∃ s₁ own₁ f, a.paging.ViewsKept s₁ a.dirs ∧
      s₁.PageInv a.boot (a.boot :: a.dirs) own₁ ∧ pd = f * 4096 ∧
      s₁.Created s (a.boot :: a.dirs) own₁ f := by
    by_cases hne : a.paging.pmm.freeSet.Nonempty
    · obtain ⟨s', f, hrun, -, hc⟩ := hs.pages.toTableInv.pagingCreateDirectory hs.current hne
      rw [hrun] at h
      cases h
      exact ⟨a.paging, own, f, ⟨hslots, fun _ _ _ _ _ _ => rfl⟩, hs.pages, rfl, hc⟩
    · have hcur := hroom.resolve_right fun hf => hne (hs.pages.pmm.nonempty hf)
      obtain ⟨s₁, own₁, f, hev, hsteps, rfl, hc⟩ := hs.pages.createDirectory_ok hs.current hs.hand
        (.inr (hs.ne_boot hcur)) h
      exact ⟨s₁, own₁, f, hs.pages.viewsKept_steps hs.dirs_live hslots hs.current (hs.ne_boot hcur)
        hsteps, hev.inv, rfl, hc⟩
  obtain ⟨s₁, own₁, f, hkept1, hpages1, rfl, hc⟩ := hstate
  have hkept2 := hpages1.viewsKept hs.dirs_live hkept1.slots
    (fun d hd i hi j hj => hc.pte_eq d (hs.dirs_live d hd).1 i (by omega) j hj) hc.bytes hc.swap
  refine ⟨hkept2.slots.mono (fun d hd i hi j hj hsw => ⟨?_, rfl⟩) (fun _ _ _ _ _ _ _ h => h),
    (hkept1.trans hkept2).view⟩
  rcases mem_cons.mp hd with rfl | hd
  · rw [Paging.pte_of_absent (by rw [hc.user i hi]; decide)] at hsw
    exact absurd hsw.2 (by decide)
  · exact hd

/-- What one event does to slots and pages. -/
theorem Processes.Inv.step_views [ReliableDisk D] (hs : a.Inv own)
    (hslots : a.paging.SlotInv a.dirs) (h : ProcessStep a b) :
    b.paging.SlotInv b.dirs ∧ ∀ d ∈ a.dirs, ∀ i < 768, ∀ j < 1024,
      a.paging.Carried b.paging d i j := by
  have hevict : ∀ {s : Paging D}, a.paging.currentPd ∈ a.dirs → Paging.EvictSteps a.paging s →
      s.SlotInv a.dirs ∧ ∀ d ∈ a.dirs, ∀ i < 768, ∀ j < 1024, a.paging.Carried s d i j :=
    fun hcur hsteps => (hs.pages.viewsKept_steps hs.dirs_live hslots hs.current (hs.ne_boot hcur)
      hsteps).carried
  -- pages and slots are where they were
  have hsame : ∀ {s : Paging D}, s.mem = a.paging.mem → s.swap = a.paging.swap →
      a.paging.ViewsKept s a.dirs := fun hmem hswap =>
    hs.pages.viewsKept hs.dirs_live hslots (fun _ _ _ _ _ _ => Paging.pte_congr hmem _ _ _)
      (fun _ _ _ => by rw [hmem]) hswap
  cases h with
  | create hroom h =>
    obtain ⟨hslots', hview⟩ := hs.create_views hslots hroom h
    exact ⟨hslots', fun d hd i hi j hj => .inl (hview d hd i hi j hj)⟩
  | switch hpd =>
    rw [Paging.pagingSwitchDirectory_eq]
    exact Paging.ViewsKept.carried (hsame rfl rfl)
  | fault hcur hcr2 habsent h =>
    obtain ⟨hslots', hview, -⟩ := hs.fault_views hslots hcur hcr2 habsent h
    exact ⟨hslots', fun d hd i hi j hj => (hview d hd i hi j hj).imp id .inr⟩
  | swapOut hcur hvirt => exact hevict hcur (.single (Paging.evictStep_of_user hvirt))
  | evict hcur => exact hevict hcur (Paging.evictLoop_steps _ hs.hand).1
  | @destroy pd hpd =>
    have hkept : a.paging.ViewsKept (a.paging.pagingDestroyDirectory pd) a.dirs := by
      rw [Paging.pagingDestroyDirectory]
      split_ifs
      · exact ⟨hslots, fun _ _ _ _ _ _ => rfl⟩
      · exact hsame rfl rfl
    refine ⟨hkept.slots.mono (fun d hd i hi j hj _ => ⟨?_, rfl⟩) (fun _ _ _ _ _ _ _ h => h),
      hkept.carried.2⟩
    split_ifs at hd
    · exact hd
    · exact mem_of_mem_erase hd
  | touch dirty hcur hi hj hp =>
    obtain ⟨hdiv, hmod⟩ := touch_word (a.paging.pte_lt a.paging.currentPd _ _) dirty
    exact (hs.pages.viewsKept_flags hs.dirs_live hslots hs.current hi hj hp hdiv
      (hmod.trans hp)).carried
  | @write i0 j0 k b hcur hi0 hj0 hk hp =>
    have hrole := hs.pages.user_role hs.current (hs.ne_boot hcur) hi0 hj0 hp
    have hframe : (a.paging.pte a.paging.currentPd i0 j0 / 4096 * 4096 + k) / 4096 =
        a.paging.pte a.paging.currentPd i0 j0 / 4096 := by omega
    have hmem : ∀ x, x ≠ a.paging.pte a.paging.currentPd i0 j0 / 4096 * 4096 + k →
        (a.paging.writeByte i0 j0 k b).mem x = a.paging.mem x := fun x hx =>
      update_of_ne hx _ _
    obtain ⟨-, -, hpte⟩ := hs.pages.of_bytes
      (show (a.paging.writeByte i0 j0 k b).pmm = a.paging.pmm from rfl)
      fun x hx => hmem x fun heq => hx (by
        rw [heq, hframe, hrole]
        trivial)
    have hpte' : ∀ d ∈ a.dirs, ∀ i < 768, ∀ j < 1024,
        (a.paging.writeByte i0 j0 k b).pte d i j = a.paging.pte d i j := fun d hd i hi j hj =>
      hpte d (hs.dirs_live d hd).1 i (by omega) j hj
    refine ⟨hslots.mono (fun d hd i hi j hj _ => ⟨hd, hpte' d hd i hi j hj⟩)
      (fun _ _ _ _ _ _ _ h => h), fun d hd i hi j hj => ?_⟩
    by_cases hpage : d = a.paging.currentPd ∧ i = i0 ∧ j = j0
    · obtain ⟨rfl, rfl, rfl⟩ := hpage
      exact .inr (.inl ⟨hp, hpte' _ hd i hi j hj⟩)
    · -- another page has another frame
      refine .inl (hs.pages.view_eq (hs.dirs_live d hd).1 (hs.dirs_live d hd).2 hi hj
        (hpte' d hd i hi j hj) (fun x hx => hmem x fun heq => hpage ?_) fun _ => rfl)
      rw [heq, hframe, hrole] at hx
      cases hx
      exact ⟨rfl, rfl, rfl⟩

/-- What a run does to slots. -/
theorem Processes.Inv.run_slots [ReliableDisk D] (hs : a.Inv own)
    (hslots : a.paging.SlotInv a.dirs) (h : ProcessRun a b) : b.paging.SlotInv b.dirs := by
  induction h with
  | refl => exact hslots
  | tail hrun hstep ih =>
    obtain ⟨own', hs'⟩ := hs.run hrun
    exact (hs'.step_views ih hstep).1

/-- A run during which a page stays in the swap area. -/
def SwappedRun (d i j : ℕ) : Processes D → Processes D → Prop :=
  Relation.ReflTransGen fun a b => ProcessStep a b ∧ d ∈ b.dirs ∧
    Paging.Swapped (b.paging.pte d i j)

/-- **Pages survive the swap area.** In every run from a consistent state, each page swapped out has
a used slot of its own, which holds its contents until the fault that brings it back makes it
present with these and frees the slot. -/
theorem swapped_page_survives [ReliableDisk D] (hs : a.Inv own)
    (hslots : a.paging.SlotInv a.dirs) (hrun : ProcessRun a b) : b.paging.SlotInv b.dirs ∧
    ∀ (c : Processes D) (d i j : ℕ), ProcessStep b c → d ∈ b.dirs → d ∈ c.dirs → i < 768 →
      j < 1024 → b.paging.pte d i j % 2 = 1 → Paging.Swapped (c.paging.pte d i j) →
      ∀ e, SwappedRun d i j c e →
        e.paging.swap.slotData (e.paging.pte d i j / 4096) = b.paging.pageData d i j ∧
        ∀ (cr2 errCode : ℕ) (s : Paging D), e.paging.currentPd = d → cr2 < kernelVirtBase →
          pdIndex cr2 = i → ptIndex cr2 = j → e.paging.pageFaultHandler cr2 errCode = .ok s →
          s.pte d i j % 2 = 1 ∧ s.pageData d i j = b.paging.pageData d i j ∧
            s.swap.swapBitmap.test (e.paging.pte d i j / 4096) = false := by
  have hslotsb := hs.run_slots hslots hrun
  refine ⟨hslotsb, fun c d i j hstep hdb hdc hi hj hp hsw e he => ?_⟩
  obtain ⟨ownb, hsb⟩ := hs.run hrun
  -- along the run the view of the page stays
  have hinv : ∃ own', e.Inv own' ∧ e.paging.SlotInv e.dirs ∧ d ∈ e.dirs ∧
      Paging.Swapped (e.paging.pte d i j) ∧
      e.paging.view d i j = some (b.paging.pageData d i j) := by
    induction he with
    | refl =>
      obtain ⟨own', hs'⟩ := hsb.step hstep
      obtain ⟨hslots', hcarried⟩ := hsb.step_views hslotsb hstep
      refine ⟨own', hs', hslots', hdc, hsw, ?_⟩
      have hview := Paging.view_of_present hp
      rcases hcarried d hdb i hi j hj with h | ⟨-, h⟩ | h
      · rw [h, hview]
      · rw [h] at hsw
        exact absurd hp hsw.1
      · rw [h] at hview
        cases hview
    | tail _ hlast ih =>
      obtain ⟨own', hs', hslots', hd, hsw', hview⟩ := ih
      obtain ⟨hstep', hd', hsw''⟩ := hlast
      obtain ⟨own'', hs''⟩ := hs'.step hstep'
      obtain ⟨hslots'', hcarried⟩ := hs'.step_views hslots' hstep'
      refine ⟨own'', hs'', hslots'', hd', hsw'', ?_⟩
      rcases hcarried d hd i hi j hj with h | ⟨h, -⟩ | h
      · rw [h, hview]
      · exact absurd h hsw'.1
      · rw [h] at hview
        cases hview
  obtain ⟨own', hs', hslots', hd, hsw', hview⟩ := hinv
  have hdata := hview
  rw [Paging.view_of_swapped hsw'] at hdata
  refine ⟨Option.some.inj hdata, ?_⟩
  rintro cr2 errCode s rfl hcr2 rfl rfl hfault
  obtain ⟨-, hviews, hback⟩ := hs'.fault_views hslots' hd hcr2 hsw'.1 hfault
  obtain ⟨hp', hfree⟩ := hback hsw'
  refine ⟨hp', ?_, hfree⟩
  have hv := (hviews _ hd _ hi _ hj).resolve_right (by rw [hview]; exact Option.some_ne_none _)
  rw [Paging.view_of_present hp', hview] at hv
  exact Option.some.inj hv

/-- A disk on port 0 with an empty swap area. -/
def blankSwap : Swap DiskImage := ⟨fun _ => 0#8, some 0, fun _ _ _ => 0⟩

theorem blankSwap_swapOut (buffer : ℕ → UInt8) : (blankSwap.swapOut buffer).2 = some 0 := by
  have hfree : blankSwap.findFreeSlot = some 0 := by decide +kernel
  have hport : blankSwap.swapPort = some 0 := rfl
  simp only [Swap.swapOut, hport, hfree]
  rfl

/-- A page of a small process goes to the first slot and comes back. -/
theorem swapped_page_survives_once :
    ∃ (b c : Processes DiskImage) (d : ℕ) (s : Paging DiskImage), ProcessStep b c ∧
      b.paging.pte d 1 0 % 2 = 1 ∧ Paging.Swapped (c.paging.pte d 1 0) ∧
      c.paging.pageFaultHandler 0x400000 4 = .ok s ∧
      s.pageData d 1 0 = b.paging.pageData d 1 0 := by
  obtain ⟨a, a', own, d, ha, hrun, hs, hdirs, hcur, hswap, hcard, hempty⟩ :=
    exists_process blankSwap (fun _ _ _ => 0)
  have hmem : a'.paging.currentPd ∈ a'.dirs := by rw [hcur, hdirs]; exact mem_singleton_self d
  have hzero : ∀ i < 768, ∀ j, a'.paging.pte d i j = 0 := fun i hi j =>
    Paging.pte_of_absent (by rw [hempty i hi]; decide) j
  have hslots : a'.paging.SlotInv a'.dirs := by
    have hnone : ∀ e ∈ a'.dirs, ∀ i < 768, ∀ j < 1024, ¬ Paging.Swapped (a'.paging.pte e i j) := by
      intro e he i hi j _
      obtain rfl := mem_singleton.mp (hdirs ▸ he)
      rw [hzero i hi j]
      decide
    exact ⟨fun e he i hi j hj h => absurd h (hnone e he i hi j hj),
      fun e he i hi j hj h => absurd h (hnone e he i hi j hj),
      fun e he i hi j hj _ _ _ _ _ _ h => absurd h (hnone e he i hi j hj)⟩
  -- the page appears
  obtain ⟨b, own₁, g, hstep1, hs1, hdirs1, hcur1, hswap1, hcard1, hpte1⟩ := hs.exists_fault hmem
    (show 0x400000 < kernelVirtBase by decide) (by omega)
    (by rw [hcur]; exact hzero 1 (by decide) 0)
  have hmem1 : b.paging.currentPd ∈ b.dirs := by rw [hcur1, hdirs1]; exact hmem
  have hpresent : b.paging.pte b.paging.currentPd 1 0 % 2 = 1 := by
    rw [hcur1]
    exact (congrArg (· % 2) hpte1).trans (pageEntry_mod_two _ _)
  -- it is swapped out
  obtain ⟨s', slot, port, hout, hsw⟩ := Paging.exists_swapOut 0x400000 (by decide) hpresent
    (by rw [hswap1, hswap, blankSwap_swapOut]; exact Option.some_ne_none _)
  have hstep2 : ProcessStep b { b with paging := s' } := by
    have h := ProcessStep.swapOut hmem1 (show 0x400000 < kernelVirtBase by decide)
    rwa [hout] at h
  obtain ⟨own2, hs2⟩ := hs1.step hstep2
  obtain ⟨own2', hev⟩ := hs1.pages.evictSwapped hs1.current (hs1.ne_boot hmem1) (by decide)
    (by decide) hsw
  have hcard2 := Finset.card_le_card (hev.freeSet_subset hs1.pages)
  have hword : Paging.Swapped (s'.pte b.paging.currentPd 1 0) := by
    have hpte := hsw.pte_eq hs1.pages.toTableInv hs1.current (by decide) (by decide) hs1.current
      (show 1 < 1023 by decide) (show 0 < 1024 by decide)
    rw [if_pos ⟨rfl, rfl, rfl⟩] at hpte
    rw [hpte]
    constructor <;> omega
  -- and comes back
  obtain ⟨s4, hmap, -, -⟩ := hs2.pages.mapFresh_of_free hs2.current
    (show pdIndex 0x400000 < 1023 by decide) (show 2 ≤ s'.pmm.freeSet.card by omega)
  have hfault : s'.pageFaultHandler 0x400000 4 = .ok (s4.readBack 0x400000
      (s'.pte s'.currentPd 1 0 / 4096)) := by
    rw [Paging.pageFaultHandler_eq (by decide), if_pos (by rw [hev.currentPd]; exact hword)]
    exact congrArg (Except.map _) hmap
  obtain ⟨-, hmain⟩ := swapped_page_survives hs1 (hs.step_views hslots hstep1).1 .refl
  obtain ⟨-, hback⟩ := hmain _ b.paging.currentPd 1 0 hstep2 hmem1 hmem1 (by decide) (by decide)
    hpresent hword _ .refl
  obtain ⟨-, hdata, -⟩ :=
    hback 0x400000 4 _ hev.currentPd (by decide) (by decide) (by decide) hfault
  exact ⟨b, _, b.paging.currentPd, _, hstep2, hpresent, hword, hfault, hdata⟩

end PenOS
