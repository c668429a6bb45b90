import PenOS.AhciRebase

/-!
# The heap blocks of the AHCI ports

Every drive that appears on a port has memory allocated, whether or not the port holds that of an
earlier drive.
-/

namespace PenOS

open Function List

open Block

variable {D : Type} [Disk D] {h : Heap D}
variable {pi r : ℕ} {port : HbaPort}

namespace Ahci

variable {a a' : Ahci D} {i : ℕ}

theorem ahciPortRebase_frame (hrun : a.ahciPortRebase i = .ok a') :
    (∀ j ≠ i, a'.ports j = a.ports j) ∧ a'.portCount = a.portCount ∧ a'.mapped = a.mapped ∧
      a'.pi = a.pi := by
  rw [ahciPortRebase] at hrun
  split at hrun
  · cases hrun
  · split at hrun
    · cases hrun
    · split at hrun
      · cases hrun
      · cases hrun
        exact ⟨fun j hj => update_of_ne hj _ _, rfl, rfl, rfl⟩

/-- The list of blocks is in order and lists the blocks that are held for ports. -/
structure Ok (a : Ahci D) : Prop where
  sound : a.heap.Sound
  live : ∀ i, ∀ u ∈ a.held i, u ∈ a.heap.liveBlocks

/-- A drive appears on port `i`. -/
def Appears (a : Ahci D) (i : ℕ) : Prop := (a.ports i).checkType = 1 ∧ a.portStatus i = false

/-- What a visit to port `i` does. -/
structure Visit (a a' : Ahci D) (i : ℕ) : Prop where
  sound : a'.heap.Sound
  live : ∀ u ∈ a.heap.liveBlocks, u ∈ a'.heap.liveBlocks
  full : a.heap.Full 528 → a'.heap.Full 528 ∧ a'.heap.liveBlocks = a.heap.liveBlocks
  others : ∀ j ≠ i, a'.ports j = a.ports j ∧ a'.portStatus j = a.portStatus j ∧
    a'.portInitialized j = a.portInitialized j ∧ a'.held j = a.held j
  initialized : a.portInitialized i = true → a'.portInitialized i = true
  held : a'.held i = a.held i ++ a.heap.newBlocks a'.heap

omit [Disk D] in
/-- A visit that does not touch the heap. -/
theorem Visit.of_heap_eq (hs : a.heap.Sound) (hheap : a'.heap = a.heap) (hheld : a'.held = a.held)
    (hinit : a'.portInitialized = a.portInitialized)
    (hothers : ∀ j ≠ i, a'.ports j = a.ports j ∧ a'.portStatus j = a.portStatus j) :
    Visit a a' i := by
  refine ⟨hheap ▸ hs, fun u hu => hheap ▸ hu, fun hfull => by rw [hheap]; exact ⟨hfull, rfl⟩,
    fun j hj => ⟨(hothers j hj).1, (hothers j hj).2, by rw [hinit], by rw [hheld]⟩,
    fun h => hinit ▸ h, ?_⟩
  rw [Heap.newBlocks_of_eq (by rw [hheap]), hheld, append_nil]

theorem connect_visit (hs : a.heap.Sound) (hrun : a.connect i = .ok a') :
    Visit a a' i ∧ a'.portInitialized i = true := by
  rw [connect] at hrun
  split at hrun
  · cases hrun
  rename_i a₁ hrebase
  cases hrun
  obtain ⟨hports, -⟩ := ahciPortRebase_frame hrebase
  obtain ⟨hs1, hlive⟩ := ((AllocRule.grows a.heap.liveBlocks).rebase (i := i)
    ⟨hs, fun _ hu => hu⟩).of_ok hrebase
  refine ⟨⟨hs1, hlive, fun hfull => ?_, fun j hj => ⟨hports j hj, update_of_ne hj _ _,
    update_of_ne hj _ _, update_of_ne hj _ _⟩,
    fun _ => update_self .., update_self ..⟩, update_self ..⟩
  obtain ⟨cs, hinv⟩ := hs
  obtain ⟨hno, hend⟩ := hinv.full_iff.mp hfull
  have hinv1 := ((AllocRule.full hno hend).rebase (i := i) hinv).of_ok hrebase
  exact ⟨hinv1.full_iff.mpr ⟨hno, hend⟩, hinv1.liveBlocks_eq.trans hinv.liveBlocks_eq.symm⟩

/-- **One port**: what is held for it grows only when a drive appears. -/
theorem updatePort_visit (hrun : a.updatePort i = .ok a') (hs : a.heap.Sound) :
    Visit a a' i ∧ (¬ a.Appears i → a'.heap = a.heap) := by
  rw [updatePort] at hrun
  split at hrun
  · rename_i htype
    split at hrun
    · rename_i hstatus
      exact ⟨(connect_visit hs hrun).1, fun hnot => absurd ⟨htype, hstatus⟩ hnot⟩
    · cases hrun
      exact ⟨.of_heap_eq hs rfl rfl rfl fun j _ => ⟨rfl, rfl⟩, fun _ => rfl⟩
  · split at hrun
    · cases hrun
      exact ⟨.of_heap_eq hs rfl rfl rfl fun j hj =>
        ⟨update_of_ne hj _ _, update_of_ne hj _ _⟩, fun _ => rfl⟩
    · cases hrun
      exact ⟨.of_heap_eq hs rfl rfl rfl fun j _ => ⟨rfl, rfl⟩, fun _ => rfl⟩

/-- **When a visit takes blocks**: a drive appears and the heap is not full. -/
theorem updatePort_held_iff (hs : a.heap.Sound) (hrun : a.updatePort i = .ok a') :
    (a'.held i).length = (a.held i).length ↔ ¬ a.Appears i ∨ a.heap.Full 528 := by
  obtain ⟨hvisit, hsame⟩ := updatePort_visit hrun hs
  have hnew := Heap.newBlocks_length hs hvisit.sound hvisit.live
  rw [hvisit.held, length_append]
  constructor
  · intro hlen
    by_contra! hc
    obtain ⟨⟨htype, hstatus⟩, hfull⟩ := hc
    rw [updatePort, if_pos htype, if_pos hstatus, connect] at hrun
    split at hrun
    · cases hrun
    · rename_i a₁ hrebase
      cases hrun
      obtain ⟨cs, hinv⟩ := hs
      have hmore := (AllocRule.more hinv hfull).rebase (i := i) (.inl ⟨Nat.zero_le _, hinv⟩)
      rcases hmore.of_ok hrebase with ⟨hle, -⟩ | ⟨-, -, hlt⟩
      · exact absurd hle (by decide)
      · dsimp only at hnew hlen
        omega
  · rintro (hnot | hfull)
    · rw [hsame hnot] at hnew ⊢
      omega
    · rw [(hvisit.full hfull).2] at hnew
      omega

omit [Disk D] in
theorem loop_visits {f : Ahci D → ℕ → Except Halt (Ahci D)} {W : HbaPort → Bool → ℕ → Prop}
    (hround : ∀ b b' i, b.heap.Sound → f b i = .ok b' → Visit b b' i ∧
      (¬ W (b.ports i) (b.portStatus i) i → b'.heap = b.heap))
    (hok : a.Ok) (hsafe : a.heap.Full 528 ∨
      ∀ i < 32, a.portInitialized i = true → ¬ W (a.ports i) (a.portStatus i) i)
    (hrun : (List.range 32).foldlM f a = .ok a') : a'.Ok ∧ ∀ i, a.portInitialized i = true →
      a'.portInitialized i = true ∧ a'.held i = a.held i := by
  -- after `k` rounds the ports from `k` on are as they were
  have hloop := foldlM_range_induct (P := fun k b => b.Ok ∧ (a.heap.Full 528 → b.heap.Full 528) ∧
      (∀ j ≥ k, b.ports j = a.ports j ∧ b.portStatus j = a.portStatus j) ∧
      ∀ j, a.portInitialized j = true → b.portInitialized j = true ∧ b.held j = a.held j)
    ⟨hok, id, fun _ _ => ⟨rfl, rfl⟩, fun _ hj => ⟨hj, rfl⟩⟩ ?_ hrun
  · exact ⟨hloop.1, hloop.2.2.2⟩
  rintro k hk b b' ⟨hokb, hfull, hrest, hkept⟩ hf
  obtain ⟨hvisit, hsame⟩ := hround b b' k hokb.sound hf
  refine ⟨⟨hvisit.sound, fun j u hu => ?_⟩, fun h => (hvisit.full (hfull h)).1,
    fun j hj => ?_, fun j hj => ?_⟩
  · rcases eq_or_ne j k with rfl | hne
    · rw [hvisit.held] at hu
      rcases List.mem_append.mp hu with hold | hnew
      · exact hvisit.live u (hokb.live j u hold)
      · exact (List.mem_filter.mp hnew).1
    · rw [(hvisit.others j hne).2.2.2] at hu
      exact hvisit.live u (hokb.live j u hu)
  · obtain ⟨hports, hstatus, -⟩ := hvisit.others j (by omega)
    rw [hports, hstatus]
    exact hrest j (by omega)
  · obtain ⟨hinit, hheld⟩ := hkept j hj
    rcases eq_or_ne j k with rfl | hne
    · -- no block is taken: the heap is full, or nothing appears here
      have hlive : b'.heap.liveBlocks = b.heap.liveBlocks := by
        rcases hsafe with h | hno
        · exact (hvisit.full (hfull h)).2
        · obtain ⟨hports, hstatus⟩ := hrest j le_rfl
          rw [hsame (by rw [hports, hstatus]; exact hno j hk hj)]
      refine ⟨hvisit.initialized hinit, ?_⟩
      rw [hvisit.held, Heap.newBlocks_of_eq hlive, append_nil, hheld]
    · obtain ⟨-, -, hinit', hheld'⟩ := hvisit.others j hne
      rw [hinit', hheld']
      exact ⟨hinit, hheld⟩

/-! ## Handler, scan and start -/

/-- `ahci_handler` looks at port `i`. -/
def Handled (a : Ahci D) (i : ℕ) : Prop :=
  a.mapped = true ∧ a.is.testBit i = true ∧
    (a.ports i).is &&& (ahciPortIsPcs ||| ahciPortIsPrcs) ≠ 0

/-- `ahci_scan_ports` looks at port `i`. -/
def Scanned (a : Ahci D) (i : ℕ) : Prop := a.mapped = true ∧ a.pi.testBit i = true

/-- The heap is full, or no drive appears on a port of `visited` that had one before. -/
def NoReplug (a : Ahci D) (visited : ℕ → Prop) : Prop :=
  a.heap.Full 528 ∨ ∀ i < 32, visited i → a.Appears i → a.portInitialized i = false

theorem handlePort_visit {is : ℕ} (hs : a.heap.Sound) (hrun : handlePort is a i = .ok a') :
    Visit a a' i ∧ (¬ ((is.testBit i = true ∧
      (a.ports i).is &&& (ahciPortIsPcs ||| ahciPortIsPrcs) ≠ 0) ∧ a.Appears i) →
        a'.heap = a.heap) := by
  rw [handlePort] at hrun
  split at hrun
  · rename_i hbit
    dsimp only at hrun
    split at hrun
    · rename_i hpis
      obtain ⟨hvisit, hsame⟩ := updatePort_visit hrun hs
      refine ⟨⟨hvisit.sound, hvisit.live, hvisit.full, fun j hj => ?_, hvisit.initialized,
        hvisit.held⟩, fun hnot => hsame fun happ => hnot ⟨⟨hbit, hpis⟩, ?_⟩⟩
      · obtain ⟨hports, hrest⟩ := hvisit.others j hj
        exact ⟨hports.trans (update_of_ne hj _ _), hrest⟩
      · simp only [Appears, update_self] at happ
        exact happ
    · cases hrun
      exact ⟨.of_heap_eq hs rfl rfl rfl fun j hj => ⟨update_of_ne hj _ _, rfl⟩,
        fun _ => rfl⟩
  · cases hrun
    exact ⟨.of_heap_eq hs rfl rfl rfl fun j _ => ⟨rfl, rfl⟩, fun _ => rfl⟩

theorem ahciHandler_keeps (hok : a.Ok) (hsafe : a.NoReplug a.Handled)
    (hrun : a.ahciHandler = .ok a') : a'.Ok ∧ ∀ i, a.portInitialized i = true →
      a'.portInitialized i = true ∧ a'.held i = a.held i := by
  rw [ahciHandler] at hrun
  split at hrun
  · cases hrun
    exact ⟨hok, fun i hi => ⟨hi, rfl⟩⟩
  rename_i hmapped
  split at hrun
  · cases hrun
    exact ⟨hok, fun i hi => ⟨hi, rfl⟩⟩
  have hround : ∀ (b b' : Ahci D) (i : ℕ), b.heap.Sound → handlePort a.is b i = .ok b' →
      Visit b b' i ∧ (¬ ((a.is.testBit i = true ∧
        (b.ports i).is &&& (ahciPortIsPcs ||| ahciPortIsPrcs) ≠ 0) ∧
        (b.ports i).checkType = 1 ∧ b.portStatus i = false) → b'.heap = b.heap) :=
    fun b b' i => handlePort_visit
  refine loop_visits (a := { a with is := 0 }) (W := fun port status i =>
    (a.is.testBit i = true ∧ port.is &&& (ahciPortIsPcs ||| ahciPortIsPrcs) ≠ 0) ∧
      port.checkType = 1 ∧ status = false)
    hround ⟨hok.sound, hok.live⟩ ?_ hrun
  refine hsafe.imp id fun hno i hi hinit ⟨hvisited, happ⟩ => ?_
  rw [hno i hi ⟨by simpa using hmapped, hvisited⟩ happ] at hinit
  exact absurd hinit (by decide)

theorem scanPort_visit (hs : a.heap.Sound) (hrun : scanPort pi a i = .ok a') :
    Visit a a' i ∧ (¬ (pi.testBit i = true ∧ a.Appears i) → a'.heap = a.heap) := by
  rw [scanPort] at hrun
  split at hrun
  · rename_i hbit
    obtain ⟨hvisit, hsame⟩ := updatePort_visit hrun hs
    exact ⟨hvisit, fun hnot => hsame fun happ => hnot ⟨hbit, happ⟩⟩
  · cases hrun
    exact ⟨.of_heap_eq hs rfl rfl rfl fun j _ => ⟨rfl, rfl⟩, fun _ => rfl⟩

theorem ahciScanPorts_keeps (hok : a.Ok) (hsafe : a.NoReplug a.Scanned)
    (hrun : a.ahciScanPorts = .ok a') : a'.Ok ∧ ∀ i, a.portInitialized i = true →
      a'.portInitialized i = true ∧ a'.held i = a.held i := by
  rw [ahciScanPorts] at hrun
  split at hrun
  · cases hrun
    exact ⟨hok, fun i hi => ⟨hi, rfl⟩⟩
  rename_i hmapped
  have hround : ∀ (b b' : Ahci D) (i : ℕ), b.heap.Sound → scanPort a.pi b i = .ok b' →
      Visit b b' i ∧ (¬ (a.pi.testBit i = true ∧ (b.ports i).checkType = 1 ∧
        b.portStatus i = false) → b'.heap = b.heap) := fun b b' i => scanPort_visit
  refine loop_visits (W := fun port status i => a.pi.testBit i = true ∧ port.checkType = 1 ∧
    status = false) hround hok ?_ hrun
  refine hsafe.imp id fun hno i hi hinit ⟨hvisited, happ⟩ => ?_
  rw [hno i hi ⟨by simpa using hmapped, hvisited⟩ happ] at hinit
  exact absurd hinit (by decide)

omit [Disk D] in
/-- The driver before it has looked at the ports. -/
structure Fresh (a : Ahci D) : Prop where
  sound : a.heap.Sound
  held : ∀ i, a.held i = []
  initialized : ∀ i, a.portInitialized i = false

theorem initPort_visit (hs : a.heap.Sound) (hrun : initPort pi a i = .ok a') : Visit a a' i := by
  rw [initPort] at hrun
  split at hrun
  · split at hrun
    · split at hrun
      · cases hrun
      · rename_i a₁ hconnect
        cases hrun
        obtain ⟨hvisit, -⟩ := connect_visit hs hconnect
        exact ⟨hvisit.sound, hvisit.live, hvisit.full, hvisit.others, hvisit.initialized,
          hvisit.held⟩
    · cases hrun
      exact .of_heap_eq hs rfl rfl rfl fun j hj => ⟨update_of_ne hj _ _, rfl⟩
  · cases hrun
    exact .of_heap_eq hs rfl rfl rfl fun j _ => ⟨rfl, rfl⟩

theorem Fresh.ahciInitPorts (hfresh : a.Fresh) (hrun : a.ahciInitPorts = .ok a') : a'.Ok := by
  refine (loop_visits (W := fun _ _ _ => True)
    (fun b b' i hs hf => ⟨initPort_visit hs hf, fun hnot => absurd trivial hnot⟩)
    ⟨hfresh.sound, fun i u hu => ?_⟩ (.inr fun i _ hi => ?_) hrun).1
  · rw [hfresh.held i] at hu
    exact absurd hu not_mem_nil
  · rw [hfresh.initialized i] at hi
    exact absurd hi (by decide)

end Ahci

/-! ## Runs -/

/-- What happens to the ports. The rest of the kernel releases only what is its own. `S` limits the
calls by the ports a call looks at. -/
inductive AhciStep (S : Ahci D → (ℕ → Prop) → Prop) : Ahci D → Ahci D → Prop
  | hardware {a : Ahci D} (is : ℕ) (ports : ℕ → HbaPort) :
      AhciStep S a { a with is := is, ports := ports }
  | elsewhere {a : Ahci D} (h : Heap D) (hs : h.Sound)
      (hkeep : ∀ i, ∀ u ∈ a.held i, u ∈ h.liveBlocks) : AhciStep S a { a with heap := h }
  | handler {a a' : Ahci D} (hsafe : S a a.Handled) (hrun : a.ahciHandler = .ok a') :
      AhciStep S a a'
  | scan {a a' : Ahci D} (hsafe : S a a.Scanned) (hrun : a.ahciScanPorts = .ok a') :
      AhciStep S a a'

variable {a a₀ a₁ a₂ : Ahci D} {i : ℕ}

theorem AhciStep.keeps (hstep : AhciStep Ahci.NoReplug a₁ a₂) (hok : a₁.Ok) :
    a₂.Ok ∧ ∀ i, a₁.portInitialized i = true →
      a₂.portInitialized i = true ∧ a₂.held i = a₁.held i := by
  cases hstep with
  | hardware is ports => exact ⟨⟨hok.sound, hok.live⟩, fun i hi => ⟨hi, rfl⟩⟩
  | elsewhere h hs hkeep => exact ⟨⟨hs, hkeep⟩, fun i hi => ⟨hi, rfl⟩⟩
  | handler hsafe hrun => exact Ahci.ahciHandler_keeps hok hsafe hrun
  | scan hsafe hrun => exact Ahci.ahciScanPorts_keeps hok hsafe hrun

theorem ahciRun_keeps (hrun : Relation.ReflTransGen (AhciStep Ahci.NoReplug) a₁ a₂)
    (hok : a₁.Ok) : a₂.Ok ∧ ∀ i, a₁.portInitialized i = true →
      a₂.portInitialized i = true ∧ a₂.held i = a₁.held i := by
  induction hrun with
  | refl => exact ⟨hok, fun i hi => ⟨hi, rfl⟩⟩
  | tail _ hstep ih =>
    obtain ⟨hok', hkept⟩ := ih
    obtain ⟨hok'', hkept'⟩ := hstep.keeps hok'
    refine ⟨hok'', fun i hi => ?_⟩
    obtain ⟨hinit, hheld⟩ := hkept i hi
    obtain ⟨hinit', hheld'⟩ := hkept' i hinit
    exact ⟨hinit', hheld'.trans hheld⟩

/-- **Hot-plugging and memory**: unless a drive reappears on a port and the heap is not full, a port
holds the blocks of its first connection. -/
theorem ahci_ports_keep_blocks (hfresh : a₀.Fresh) (hinit : a₀.ahciInitPorts = .ok a)
    (hrun₁ : Relation.ReflTransGen (AhciStep Ahci.NoReplug) a a₁)
    (hrun₂ : Relation.ReflTransGen (AhciStep Ahci.NoReplug) a₁ a₂)
    (hi : a₁.portInitialized i = true) : (∀ u ∈ a₂.held i, u ∈ a₂.heap.liveBlocks) ∧
    (a₂.held i).length = (a₁.held i).length ∧ usedSum (a₂.held i) = usedSum (a₁.held i) ∧
    ∀ a', a₂.updatePort i = .ok a' →
      ((a'.held i).length = (a₁.held i).length ↔ ¬ a₂.Appears i ∨ a₂.heap.Full 528) := by
  obtain ⟨hok1, -⟩ := ahciRun_keeps hrun₁ (hfresh.ahciInitPorts hinit)
  obtain ⟨hok2, hkept⟩ := ahciRun_keeps hrun₂ hok1
  rw [← (hkept i hi).2]
  exact ⟨hok2.live i, rfl, rfl, fun a' => Ahci.updatePort_held_iff hok2.sound⟩

/-! ## One port with a drive -/

namespace Ahci

/-- A connection with room for it takes 34 blocks. -/
theorem connect_roomy (hroom : a.heap.Roomy (r + 49 + 544 * 34 + 1536)) :
    ∃ a', a.connect i = .ok a' ∧ a'.heap.Roomy (r + 49) ∧
      (a'.held i).length = (a.held i).length + 34 ∧ a'.portStatus i = true ∧
      a'.portInitialized i = true ∧ a'.mapped = a.mapped ∧ a'.pi = a.pi := by
  obtain ⟨a₁, hrebase, hroom1, hlen⟩ := ((AllocRule.roomy r a.heap.liveBlocks.length).rebase
    (i := i) ⟨hroom, rfl⟩).exists_ok
  have hs : a.heap.Sound := (AllocRule.roomy r a.heap.liveBlocks.length).sound 0 _ ⟨hroom, rfl⟩
  obtain ⟨hs1, hlive⟩ := ((AllocRule.grows a.heap.liveBlocks).rebase (i := i)
    ⟨hs, fun _ hu => hu⟩).of_ok hrebase
  obtain ⟨-, -, hmapped, hpi⟩ := ahciPortRebase_frame hrebase
  have hnew := Heap.newBlocks_length hs hs1 hlive
  rw [connect, hrebase]
  refine ⟨_, rfl, hroom1, ?_, update_self .., update_self .., hmapped, hpi⟩
  dsimp only
  rw [update_self, length_append]
  omega

/-- With one port the scan looks at that port only. -/
theorem ahciScanPorts_of_one (hmapped : a.mapped = true) (hpi : a.pi = 1)
    {a' : Ahci D} (hrun : a.updatePort 0 = .ok a') : a.ahciScanPorts = .ok a' := by
  rw [ahciScanPorts, hmapped, hpi]
  refine foldlM_range_first (by rw [scanPort, if_pos (by decide), hrun]) fun k hk => ?_
  rw [scanPort, if_neg (by rw [Nat.testBit_one_eq_true_iff_self_eq_zero]; omega)]

theorem checkType_down (hssts : port.ssts = 0) : port.checkType = 0 := by
  simp [HbaPort.checkType, hssts]

theorem checkType_up (hssts : port.ssts = 0x103) (hsig : port.sig = 0x101) :
    port.checkType = 1 := by
  simp [HbaPort.checkType, hssts, hsig]

omit [Disk D] in
/-- The links of the ports go down (`0`), or come up with drives (`0x103`). -/
def link (a : Ahci D) (ssts : ℕ) : Ahci D :=
  { a with ports := fun i => { a.ports i with sig := 0x101, ssts := ssts } }

theorem updatePort_removed (htype : (a.ports i).checkType ≠ 1) (hstatus : a.portStatus i = true) :
    a.updatePort i = .ok { a with
      ports := Function.update a.ports i (a.ports i).stopCmd
      portStatus := Function.update a.portStatus i false } := by
  rw [updatePort, if_neg htype, if_pos hstatus]

variable {S : Ahci D → (ℕ → Prop) → Prop}

/-- The drive of the only port is removed. -/
theorem exists_unplugged (hmapped : a.mapped = true) (hpi : a.pi = 1)
    (hstatus : a.portStatus 0 = true) (hS : S (a.link 0) (a.link 0).Scanned) :
    ∃ a', Relation.ReflTransGen (AhciStep S) a a' ∧ a'.heap = a.heap ∧ a'.held = a.held ∧
      a'.portStatus 0 = false ∧ a'.mapped = true ∧ a'.pi = 1 := by
  have htype : ((a.link 0).ports 0).checkType ≠ 1 := by
    rw [checkType_down rfl]
    decide
  have hscan := ahciScanPorts_of_one (a := a.link 0) hmapped hpi (updatePort_removed htype hstatus)
  exact ⟨_, .tail (.single (.hardware a.is _)) (.scan hS hscan), rfl, rfl,
    by simp only [update_self], hmapped, hpi⟩

/-- The drive comes back. -/
theorem exists_replugged (hmapped : a.mapped = true) (hpi : a.pi = 1)
    (hstatus : a.portStatus 0 = false) (hroom : a.heap.Roomy (r + 49 + 544 * 34 + 1536))
    (hS : S (a.link 0x103) (a.link 0x103).Scanned) : ∃ a', Relation.ReflTransGen (AhciStep S) a a' ∧
      (a'.held 0).length = (a.held 0).length + 34 := by
  obtain ⟨a', hconnect, -, hlen, -⟩ := connect_roomy (a := a.link 0x103) (i := 0) hroom
  have hupdate : (a.link 0x103).updatePort 0 = .ok a' := by
    rw [updatePort, if_pos (checkType_up rfl rfl),
      if_pos (show (a.link 0x103).portStatus 0 = false from hstatus), hconnect]
  have hscan := ahciScanPorts_of_one (a := a.link 0x103) hmapped hpi hupdate
  exact ⟨a', .tail (.single (.hardware a.is _)) (.scan hS hscan), hlen⟩

omit [Disk D] in
/-- A controller with one port and a drive there. -/
def onePort (h : Heap D) : Ahci D where
  heap := h
  mapped := true
  is := 0
  pi := 1
  ports := fun _ => ⟨0, 0, 0, 0, 0, 0, 0, 0x101, 0x103⟩
  portStatus := fun _ => false
  portInitialized := fun _ => false
  portVirt := fun _ => ⟨0, 0, fun _ => 0⟩
  portCount := 0
  held := fun _ => []

theorem exists_connected (hroom : h.Roomy (r + 49 + 544 * 34 + 1536)) :
    ∃ a : Ahci D, (onePort h).Fresh ∧ (onePort h).ahciInitPorts = .ok a ∧ a.heap.Roomy (r + 49) ∧
      a.portInitialized 0 = true ∧ a.portStatus 0 = true ∧ a.mapped = true ∧ a.pi = 1 := by
  obtain ⟨a, hconnect, hroom', -, hstatus, hinit, hmapped, hpi⟩ :=
    connect_roomy (a := onePort h) (i := 0) hroom
  refine ⟨{ a with portCount := a.portCount + 1 }, ⟨?_, fun _ => rfl, fun _ => rfl⟩, ?_, hroom',
    hinit, hstatus, hmapped, hpi⟩
  · obtain ⟨xs, c, ys, hinv, -⟩ := hroom
    exact ⟨_, hinv⟩
  · refine foldlM_range_first ?_ fun k hk => ?_
    · rw [initPort, show (onePort h).pi = 1 from rfl, if_pos (by decide),
        if_pos (checkType_up rfl rfl), hconnect]
    · rw [initPort, show (onePort h).pi = 1 from rfl,
        if_neg (by rw [Nat.testBit_one_eq_true_iff_self_eq_zero]; omega)]

end Ahci

theorem exists_roomy : ∃ h : Heap DiskImage, h.Roomy 40113 := by
  have hrun : (smallHeap.bind fun h => (h.kmalloc 41000).toOption.bind fun (h, p) =>
      (h.kmalloc 16).toOption.bind fun (h, q) => (h.kfree p).toOption.map fun h =>
        (p, q, h.heapHead, free h.window heapStart, size h.window heapStart)) =
      some (3238002704, 3238043720, 3238002688, 1, 41000) := by decide +kernel
  simp only [Option.bind_eq_some_iff, Option.map_eq_some_iff] at hrun
  obtain ⟨h, hh, ⟨h1, p⟩, hrun1, ⟨h2, q⟩, hrun2, h3, hrun3, hrun⟩ := hrun
  simp only [Prod.mk.injEq] at hrun
  obtain ⟨rfl, rfl, hhead, hfree, hsize⟩ := hrun
  have hr1 := (smallHeap_reach hh).malloc (by decide) (ok_of_toOption hrun1)
  have hr2 := hr1.malloc (by decide) (ok_of_toOption hrun2)
  have hr3 := hr2.free (u := (3238002704, 41000)) (by decide) (ok_of_toOption hrun3)
  obtain ⟨cs, hstate⟩ := hr3.state
  refine ⟨h3, Heap.Sound.roomy ⟨cs, hstate.inv⟩ ?_ ?_ ?_⟩
  · rw [hhead]
    decide
  · rw [hfree]
    decide
  · rw [hsize]
    decide

/-- The drive is removed: what is held for its port stays. -/
theorem ahci_ports_keep_blocks_removed :
    ∃ a₀ a a₂ : Ahci DiskImage, a₀.ahciInitPorts = .ok a ∧ a.portInitialized 0 = true ∧
      a.portStatus 0 = true ∧ a₂.portStatus 0 = false ∧
      (a₂.held 0).length = (a.held 0).length ∧ usedSum (a₂.held 0) = usedSum (a.held 0) := by
  obtain ⟨h, hroom⟩ := exists_roomy
  obtain ⟨a, hfresh, hinit, -, hi, hstatus, hmapped, hpi⟩ :=
    Ahci.exists_connected (r := 20032) hroom
  have hsafe : (a.link 0).NoReplug (a.link 0).Scanned := .inr fun i _ _ happ => by
    rw [Ahci.Appears, Ahci.checkType_down rfl] at happ
    exact absurd happ.1 (by decide)
  obtain ⟨a₂, hrun, -, -, hstatus2, -⟩ := Ahci.exists_unplugged hmapped hpi hstatus hsafe
  obtain ⟨-, hlen, hsum, -⟩ := ahci_ports_keep_blocks hfresh hinit .refl hrun hi
  exact ⟨_, a, a₂, hinit, hi, hstatus, hstatus2, hlen, hsum⟩

/-- A drive that is removed and comes back takes another 34 blocks. -/
theorem ahci_replug_takes_blocks : ∃ a₀ a a₂ : Ahci DiskImage, a₀.Fresh ∧ a₀.ahciInitPorts = .ok a ∧
      Relation.ReflTransGen (AhciStep fun _ _ => True) a a₂ ∧ a.portInitialized 0 = true ∧
      (a₂.held 0).length = (a.held 0).length + 34 := by
  obtain ⟨h, hroom⟩ := exists_roomy
  obtain ⟨a, hfresh, hinit, hroom', hi, hstatus, hmapped, hpi⟩ :=
    Ahci.exists_connected (r := 20032) hroom
  obtain ⟨a₁, hrun1, hheap, hheld, hstatus1, hmapped1, hpi1⟩ :=
    Ahci.exists_unplugged (S := fun _ _ => True) hmapped hpi hstatus trivial
  obtain ⟨a₂, hrun2, hlen⟩ := Ahci.exists_replugged (r := 0) (S := fun _ _ => True) hmapped1 hpi1
    hstatus1 (hheap ▸ hroom') trivial
  exact ⟨_, a, a₂, hfresh, hinit, hrun1.trans hrun2, hi, hheld ▸ hlen⟩

end PenOS
