import PenOS.Lib.Fold
import PenOS.P9Fids

/-!
# Fids over whole runs of the client

Each of the four operations walks to one fid, uses it and lets it go (`P9Command.run_spec`).
-/

namespace PenOS

variable {path : List UInt8} {r : Option (ℕ × ℕ)}

/-- The operations of the client that name fids, with their arguments. -/
inductive P9Command : Type where
  | changeDirectory (path : List UInt8) : P9Command
  | listDirectory (path : Option (List UInt8)) : P9Command
  | readFile (path : List UInt8) : P9Command
  | completePath (ticks : ℕ) (buffer : List UInt8) (currentLen pathStart : ℕ) : P9Command

namespace P9Command

variable {σ D : Type}

/-- The client and the heap after an operation. -/
def run [P9Link σ] [Disk D] (a : P9Files σ × Heap D) : P9Command → Except Halt (P9Files σ × Heap D)
  | .changeDirectory path => (a.1.p9ChangeDirectory path).map fun r => (r.1, a.2)
  | .listDirectory path => (a.1.p9ListDirectory path).map fun r => (r.1, a.2)
  | .readFile path =>
    (a.1.p9ReadFile a.2 path).map fun r => ({ a.1 with toP9 := r.1 }, r.2.1)
  | .completePath ticks buffer currentLen pathStart =>
    (a.1.completePath ticks buffer currentLen pathStart).map fun r => (r.1, a.2)

/-- Is the operation path completion? -/
def completing : P9Command → Bool
  | .completePath .. => true
  | _ => false

/-- The client when it sends its first request: path completion does not take its fid from
`next_fid`. -/
def begun (c : P9Command) (s : P9Files σ) : P9 σ :=
  if c.completing then s.toP9 else { s.toP9 with nextFid := u32 (s.nextFid + 1) }

/-- The walk an operation starts with, if it sends anything: from which fid, to which fid,
and the path. -/
def target (s : P9Files σ) : P9Command → Option (ℕ × ℕ × List UInt8)
  | .changeDirectory path =>
    if s.initialized then
      match newPath s.cwd path with
      | .ok (some newPath) => some (0, s.nextFid, walkPath newPath)
      | _ => none
    else none
  | .listDirectory path =>
    if s.initialized then some (0, s.nextFid, walkPath (path.getD s.cwd)) else none
  | .readFile path => if s.initialized then some (1, s.nextFid, path) else none
  | .completePath ticks buffer _ pathStart =>
    let dirPath := ((cutLastSlash (buffer.drop pathStart)).getD ([dot], buffer.drop pathStart)).1
    some (0, 1000 + u32 ticks % 1000, walkPath (if dirPath = [dot] then s.cwd else dirPath))

theorem begun_link (c : P9Command) (s : P9Files σ) : (c.begun s).link = s.link := by
  rw [begun]
  split_ifs <;> rfl

theorem target_completing {c : P9Command} {s : P9Files σ} {root fid : ℕ}
    (hc : c.completing = true) (h : c.target s = some (root, fid, path)) : fid ≠ root := by
  cases c with
  | completePath ticks buffer currentLen pathStart =>
    simp only [target, Option.some.injEq, Prod.mk.injEq] at h
    omega
  | _ => cases hc

theorem target_root {c : P9Command} {s : P9Files σ} {root fid : ℕ}
    (hread : ∀ path, c ≠ .readFile path) (hfid : s.nextFid ≠ 0)
    (h : c.target s = some (root, fid, path)) : root = 0 ∧ fid ≠ 0 := by
  cases c with
  | changeDirectory path' =>
    simp only [target] at h
    split_ifs at h
    rcases hp : newPath s.cwd path' with e | _ | p <;>
      simp only [hp, Option.some.injEq, Prod.mk.injEq, reduceCtorEq] at h
    exact ⟨h.1.symm, h.2.1 ▸ hfid⟩
  | listDirectory path' =>
    simp only [target] at h
    split_ifs at h
    simp only [Option.some.injEq, Prod.mk.injEq] at h
    exact ⟨h.1.symm, h.2.1 ▸ hfid⟩
  | readFile path' => exact absurd rfl (hread path')
  | completePath ticks buffer currentLen pathStart =>
    simp only [target, Option.some.injEq, Prod.mk.injEq] at h
    omega

end P9Command

/-! ## One operation -/

variable {τ D : Type} [P9Backend τ] {fid : ℕ}

theorem P9Files.close_ok {α : Type} {s s' : P9Files (P9Server τ)} {r r' : α}
    (hf : fid < 4294967296) (h : s.close fid r = .ok (s', r')) : s.toP9.Clunked s'.toP9 fid := by
  obtain ⟨c, hclunk, hc⟩ := s.toP9.p9Clunk_spec hf
  rw [P9Files.close, hclunk] at h
  cases h
  exact hc

theorem P9.giveUp_ok {s s' : P9 (P9Server τ)} {h h' : Heap D}
    (hf : fid < 4294967296) (hrun : s.giveUp fid h = .ok (s', h', r)) : s.Clunked s' fid := by
  obtain ⟨c, hclunk, hc⟩ := s.p9Clunk_spec hf
  rw [P9.giveUp, hclunk] at hrun
  cases hrun
  exact hc

theorem P9.readLoop_uses (hf : fid < 4294967296) {data fileSize fuel n m : ℕ}
    {s0 s s' : P9 (P9Server τ)} {w w' : RecMem} (huses : P9.Uses fid s0 s)
    (h : P9.readLoop fid data fileSize fuel s w n = .ok (s', w', m)) : P9.Uses fid s0 s' := by
  induction fuel generalizing s w n with
  | zero => cases h
  | succ fuel ih =>
    simp only [P9.readLoop, P9.p9Read] at h
    by_cases hlt : n < fileSize
    · rw [if_pos hlt] at h
      obtain ⟨s1, ⟨r, bytes⟩, htransfer, hacc⟩ := s.transfer_spec .rread
        (show P9Type.tread ∈ accessTypes by decide) hf n
        (if fileSize - n > 4096 then 4096 else fileSize - n)
      simp only [htransfer] at h
      split_ifs at h
      · cases h
        exact huses.tail hacc
      · exact ih (huses.tail hacc) h
    · rw [if_neg hlt] at h
      cases h
      exact huses

/-- `p9_read_file` after its walk and open. -/
theorem P9.p9ReadFile_finished [Disk D] {s s' : P9 (P9Server τ)} {h h' : Heap D}
    (hinit : s.initialized = true)
    (hf : s.nextFid < 4294967296) (hrun : s.p9ReadFile h path = .ok (s', h', r)) :
    ∃ c v, ({ s with nextFid := u32 (s.nextFid + 1) } : P9 (P9Server τ)).visit 1 s.nextFid path =
        .ok (c, v) ∧ P9.Finished false s.nextFid v c s' := by
  rw [P9.p9ReadFile, if_neg (by rw [hinit]; decide)] at hrun
  dsimp only at hrun
  obtain ⟨s1, walked, hwalk, -⟩ := P9.p9Walk_spec
    ({ s with nextFid := u32 (s.nextFid + 1) } : P9 (P9Server τ)) (show 1 < 4294967296 by decide)
    hf (some path)
  rw [hwalk] at hrun
  simp only [P9.visit, hwalk]
  dsimp only at hrun
  by_cases hw : walked = 0
  · rw [if_neg (not_not_intro hw)] at hrun ⊢
    obtain ⟨s2, opened, hopen, -, -⟩ := s1.p9Open_spec hf 0
    rw [hopen] at hrun ⊢
    dsimp only at hrun ⊢
    by_cases ho : opened = 0
    · rw [if_neg (not_not_intro ho)] at hrun
      refine ⟨s2, _, rfl, ?_⟩
      rw [if_neg (not_not_intro ho)]
      obtain ⟨s3, size, hsize, hacc⟩ := s2.p9GetFileSize_spec hf
      rw [hsize] at hrun
      have huses : P9.Uses s.nextFid s2 s3 := P9.Uses.refl.tail hacc
      -- every way out from here clunks the fid
      have hgive : ∀ {k : Heap D}, s3.giveUp s.nextFid k = .ok (s', h', r) →
          P9.Finished false s.nextFid .opened s2 s' := fun hgive =>
        .closed Visit.noConfusion Bool.noConfusion huses (P9.giveUp_ok hf hgive)
      rcases size with _ | fileSize
      · exact hgive hrun
      dsimp only at hrun
      split_ifs at hrun with hbad
      · exact hgive hrun
      rcases hk : h.kmalloc fileSize with e | ⟨k, data⟩ <;> rw [hk] at hrun
      · cases hrun
      dsimp only at hrun
      split_ifs at hrun with hd
      · exact hgive hrun
      rcases hl : P9.readLoop s.nextFid data fileSize (fileSize + 1) s3 k.window 0 with
        e | ⟨s4, w, m⟩ <;> rw [hl] at hrun
      · cases hrun
      have huses4 := P9.readLoop_uses hf huses hl
      obtain ⟨s5, hclunk, hc⟩ := s4.p9Clunk_spec hf
      simp only [hclunk] at hrun
      have hfin : P9.Finished false s.nextFid .opened s2 s5 :=
        .closed Visit.noConfusion Bool.noConfusion huses4 hc
      split_ifs at hrun with hm
      · rcases hfree : Heap.kfree { k with window := w } data with e | k' <;> rw [hfree] at hrun
        · cases hrun
        obtain ⟨rfl, -⟩ := ok_pair hrun
        exact hfin
      · obtain ⟨rfl, -⟩ := ok_pair hrun
        exact hfin
    · rw [if_pos ho] at hrun
      refine ⟨s2, _, rfl, ?_⟩
      rw [if_pos ho]
      exact .closed Visit.noConfusion Bool.noConfusion .refl (P9.giveUp_ok hf hrun)
  · rw [if_pos hw] at hrun ⊢
    obtain ⟨rfl, -⟩ := ok_pair hrun
    exact ⟨s1, _, rfl, .notWalked⟩

namespace P9Command

variable [Disk D] {c : P9Command} {s s' : P9Files (P9Server τ)} {h h' : Heap D}

/-- The operation sends nothing, or walks to its fid, uses it and lets it go. -/
def Served (c : P9Command) (s s' : P9Files (P9Server τ)) : Prop :=
  c.target s = none ∧ s' = s ∨
  ∃ root fid path c₁ v, c.target s = some (root, fid, path) ∧
    (c.begun s).visit root fid path = .ok (c₁, v) ∧
    P9.Visited root fid (c.begun s) c₁ v ∧ P9.Finished c.completing fid v c₁ s'.toP9

theorem served_changeDirectory {r : ℤ} (hf : s.nextFid < 4294967296)
    (hrun : s.p9ChangeDirectory path = .ok (s', r)) : Served (.changeDirectory path) s s' := by
  simp only [P9Files.p9ChangeDirectory] at hrun
  rcases hinit : s.initialized with _ | _
  · rw [if_pos hinit] at hrun
    refine Or.inl ⟨?_, (ok_pair hrun).1.symm⟩
    simp only [target, hinit, Bool.false_eq_true, if_false]
  rw [if_neg (by rw [hinit]; decide)] at hrun
  rcases hpath : newPath s.cwd path with e | _ | p <;> rw [hpath] at hrun
  · cases hrun
  · refine Or.inl ⟨?_, (ok_pair hrun).1.symm⟩
    simp only [target, hinit, hpath, if_true]
  have htarget : (changeDirectory path).target s = some (0, s.nextFid, walkPath p) := by
    simp only [target, hinit, hpath, if_true]
  obtain ⟨c1, v, hvisit, hvisited⟩ := ((changeDirectory path).begun s).visit_spec
    (show 0 < 4294967296 by decide) hf (walkPath p)
  have hvisit' : P9.visit (s.takeFid.1).toP9 0 s.nextFid (walkPath p) = .ok (c1, v) := hvisit
  simp only [P9Files.takeFid] at hrun hvisit'
  refine Or.inr ⟨0, s.nextFid, walkPath p, c1, v, htarget, hvisit, hvisited, ?_⟩
  rw [hvisit'] at hrun
  cases v with
  | notWalked =>
    cases hrun
    exact .notWalked
  | notOpened =>
    exact .closed Visit.noConfusion Bool.noConfusion .refl (P9Files.close_ok hf hrun)
  | opened =>
    rcases hclose : ({ s with toP9 := c1 } : P9Files (P9Server τ)).close s.nextFid () with
      e | ⟨s2, u⟩ <;> simp only [hclose] at hrun
    · cases hrun
    cases hrun
    exact .closed Visit.noConfusion Bool.noConfusion .refl (P9Files.close_ok hf hclose)

theorem served_listDirectory {path : Option (List UInt8)} {r : ℤ × List (List UInt8)}
    (hf : s.nextFid < 4294967296) (hrun : s.p9ListDirectory path = .ok (s', r)) :
    Served (.listDirectory path) s s' := by
  simp only [P9Files.p9ListDirectory] at hrun
  rcases hinit : s.initialized with _ | _
  · rw [if_pos hinit] at hrun
    refine Or.inl ⟨?_, (ok_pair hrun).1.symm⟩
    simp only [target, hinit, Bool.false_eq_true, if_false]
  rw [if_neg (by rw [hinit]; decide)] at hrun
  have htarget : (listDirectory path).target s =
      some (0, s.nextFid, walkPath (path.getD s.cwd)) := by
    simp only [target, hinit, if_true]
  obtain ⟨c1, v, hvisit, hvisited⟩ := ((listDirectory path).begun s).visit_spec
    (show 0 < 4294967296 by decide) hf (walkPath (path.getD s.cwd))
  have hvisit' : P9.visit (s.takeFid.1).toP9 0 s.nextFid (walkPath (path.getD s.cwd)) =
    .ok (c1, v) := hvisit
  simp only [P9Files.takeFid] at hrun hvisit'
  refine Or.inr ⟨0, s.nextFid, _, c1, v, htarget, hvisit, hvisited, ?_⟩
  rw [hvisit'] at hrun
  cases v with
  | notWalked =>
    cases hrun
    exact .notWalked
  | notOpened =>
    exact .closed Visit.noConfusion Bool.noConfusion .refl (P9Files.close_ok hf hrun)
  | opened =>
    obtain ⟨c2, ⟨count, buf⟩, hread, hacc⟩ := c1.transfer_spec .rreaddir
      (show P9Type.treaddir ∈ accessTypes by decide) hf 0 4096
    simp only [P9.p9Readdir, hread] at hrun
    refine .closed Visit.noConfusion Bool.noConfusion (P9.Uses.refl.tail hacc) ?_
    split_ifs at hrun
    · exact P9Files.close_ok hf hrun
    · exact P9Files.close_ok hf hrun

theorem served_readFile {c : P9 (P9Server τ)}
    (hf : s.nextFid < 4294967296) (hrun : s.p9ReadFile h path = .ok (c, h', r)) :
    Served (.readFile path) s { s with toP9 := c } := by
  rcases hinit : s.initialized with _ | _
  · rw [P9.p9ReadFile, if_pos hinit] at hrun
    cases hrun
    exact Or.inl ⟨by simp only [target, hinit, Bool.false_eq_true, if_false], rfl⟩
  · obtain ⟨c1, v, hvisit, hfin⟩ := P9.p9ReadFile_finished hinit hf hrun
    obtain ⟨c2, v', hvisit', hvisited⟩ := ((readFile path).begun s).visit_spec
      (show 1 < 4294967296 by decide) hf path
    obtain ⟨rfl, rfl⟩ := ok_pair (hvisit'.symm.trans hvisit)
    exact Or.inr ⟨1, s.nextFid, path, c2, v', by simp only [target, hinit, if_true], hvisit',
      hvisited, hfin⟩

theorem served_completePath {ticks currentLen pathStart : ℕ} {buffer : List UInt8}
    {r : List UInt8 × ℕ} (hrun : s.completePath ticks buffer currentLen pathStart = .ok (s', r)) :
    Served (.completePath ticks buffer currentLen pathStart) s s' := by
  have hf : 1000 + u32 ticks % 1000 < 4294967296 := by omega
  simp only [P9Files.completePath] at hrun
  obtain ⟨c1, v, hvisit, hvisited⟩ :=
    ((completePath ticks buffer currentLen pathStart).begun s).visit_spec
      (show 0 < 4294967296 by decide) hf (walkPath (if ((cutLastSlash (buffer.drop pathStart)).getD
        ([dot], buffer.drop pathStart)).1 = [dot] then s.cwd else
          ((cutLastSlash (buffer.drop pathStart)).getD ([dot], buffer.drop pathStart)).1))
  refine Or.inr ⟨0, _, _, c1, v, rfl, hvisit, hvisited, ?_⟩
  have hvisit' : P9.visit s.toP9 _ _ _ = .ok (c1, v) := hvisit
  rw [hvisit'] at hrun
  cases v with
  | notWalked =>
    cases hrun
    exact .notWalked
  | notOpened =>
    cases hrun
    exact .kept rfl
  | opened =>
    obtain ⟨c2, ⟨count, buf⟩, hread, hacc⟩ := c1.transfer_spec .rreaddir
      (show P9Type.treaddir ∈ accessTypes by decide) hf 0 4096
    simp only [P9.p9Readdir, hread] at hrun
    exact .closed Visit.noConfusion (fun _ => rfl) (P9.Uses.refl.tail hacc)
      (P9Files.close_ok hf hrun)

/-- **Every operation** sends nothing, or walks to its fid, uses it and lets it go. -/
theorem run_served (hf : s.nextFid < 4294967296) (hrun : c.run (s, h) = .ok (s', h')) :
    c.Served s s' := by
  cases c with
  | changeDirectory path =>
    obtain ⟨⟨s1, r⟩, hr, hs⟩ := map_ok hrun
    obtain ⟨rfl, -⟩ := Prod.mk.inj hs
    exact served_changeDirectory hf hr
  | listDirectory path =>
    obtain ⟨⟨s1, r⟩, hr, hs⟩ := map_ok hrun
    obtain ⟨rfl, -⟩ := Prod.mk.inj hs
    exact served_listDirectory hf hr
  | readFile path =>
    obtain ⟨⟨s1, h1, r⟩, hr, hs⟩ := map_ok hrun
    cases hs
    exact served_readFile hf hr
  | completePath ticks buffer currentLen pathStart =>
    obtain ⟨⟨s1, r⟩, hr, hs⟩ := map_ok hrun
    obtain ⟨rfl, -⟩ := Prod.mk.inj hs
    exact served_completePath hr

/-! ## No fid is left behind -/

/-- The server binds the fid path completion walks to and refuses to open it. -/
def OpenRefused (c : P9Command) (s : P9Files (P9Server τ)) : Prop :=
  c.completing = true ∧ ∃ root fid path c₁, c.target s = some (root, fid, path) ∧
    (c.begun s).visit root fid path = .ok (c₁, .notOpened) ∧ c₁.link.walked = true

/-- The server grants a walk from a fid to itself. -/
def WalksOntoRoot (c : P9Command) (s : P9Files (P9Server τ)) : Prop :=
  ∃ fid path c₁ v, c.target s = some (fid, fid, path) ∧
    (c.begun s).visit fid fid path = .ok (c₁, v) ∧ v ≠ .notWalked

omit [Disk D] in
theorem Served.bound_iff (h : c.Served s s') :
    s'.link.bound = s.link.bound ↔ ¬ c.OpenRefused s ∧ ¬ c.WalksOntoRoot s := by
  rcases h with ⟨hnone, rfl⟩ | ⟨root, fid, path, c1, v, htarget, hvisit, hvisited, hfin⟩
  · refine iff_of_true rfl ⟨?_, ?_⟩
    · rintro ⟨-, _, _, _, _, h, -⟩
      rw [hnone] at h
      cases h
    · rintro ⟨_, _, _, _, h, -⟩
      rw [hnone] at h
      cases h
  · have hiff := hfin.bound_iff hvisited fun hc => target_completing hc htarget
    rw [begun_link] at hiff
    rw [hiff, not_or]
    -- the walk of the operation and its outcome are determined
    have hrefused : c.OpenRefused s ↔
        c.completing = true ∧ v = .notOpened ∧ c1.link.walked = true := by
      constructor
      · rintro ⟨hc, root', fid', path', c2, ht, hv, hw⟩
        obtain ⟨rfl, rfl, rfl⟩ : root = root' ∧ fid = fid' ∧ path = path' := by
          simpa [htarget] using ht
        obtain ⟨rfl, rfl⟩ := ok_pair (hvisit.symm.trans hv)
        exact ⟨hc, rfl, hw⟩
      · rintro ⟨hc, rfl, hw⟩
        exact ⟨hc, root, fid, path, c1, htarget, hvisit, hw⟩
    have honto : c.WalksOntoRoot s ↔ v ≠ .notWalked ∧ fid = root := by
      constructor
      · rintro ⟨fid', path', c2, v', ht, hv, hne⟩
        obtain ⟨rfl, rfl, rfl⟩ : root = fid' ∧ fid = root ∧ path = path' := by
          simp only [htarget, Option.some.injEq, Prod.mk.injEq] at ht
          exact ⟨ht.1, ht.2.1.trans ht.1.symm, ht.2.2⟩
        obtain ⟨rfl, rfl⟩ := ok_pair (hvisit.symm.trans hv)
        exact ⟨hne, rfl⟩
      · rintro ⟨hne, rfl⟩
        exact ⟨fid, path, c1, v, htarget, hvisit, hne⟩
    rw [hrefused, honto]
    exact and_comm

end P9Command

/-- **No fid is left behind or lost** by an operation exactly if it is no path completion whose fid
is bound and not opened, and does not walk from the fid it walks to. -/
theorem fids_kept_iff [Disk D] (c : P9Command) {s s' : P9Files (P9Server τ)} {h h' : Heap D}
    (hf : s.nextFid < 4294967296) (hrun : c.run (s, h) = .ok (s', h')) :
    s'.link.bound = s.link.bound ↔ ¬ c.OpenRefused s ∧ ¬ c.WalksOntoRoot s :=
  (P9Command.run_served hf hrun).bound_iff

/-- A file system that grants everything but opening a file. -/
inductive LockedFiles : Type where
  | files : LockedFiles

instance : P9Backend LockedFiles where
  decide t msg := (t, if msg.getD 4 0 = P9Type.tlopen.code then .refuse [] else .grant [])

/-- A client that has not been initialized, in front of such a server. -/
def lockedClient : P9Files (P9Server LockedFiles) :=
  { link := ⟨.files, ∅, false, []⟩, tag := 0, nextFid := 1, initialized := false, rx := fun _ => 0,
    cwd := [slash] }

/-- A heap, for operations that do not use it. -/
def unusedHeap : Heap DiskImage :=
  .boot (.boot ⟨0, 0, 0, 0, fun _ => 0#8⟩ (fun _ => 0) fun _ _ _ => 0)

/-- The fids after `p9_init` and after one operation, and whether all requests were live. -/
def lockedRun (c : P9Command) : Option (ℤ × Finset ℕ × Finset ℕ × Bool) :=
  lockedClient.p9Init.toOption.bind fun r =>
    (c.run (r.1, unusedHeap)).toOption.map fun b =>
      (r.2, r.1.link.bound, b.1.link.bound, b.1.link.log.all fun e => decide e.Live)

theorem lockedRun_eq {c : P9Command} {x : ℤ × Finset ℕ × Finset ℕ × Bool}
    (h : lockedRun c = some x) : ∃ (s : P9Files (P9Server LockedFiles))
      (b : P9Files (P9Server LockedFiles) × Heap DiskImage),
      lockedClient.p9Init = .ok (s, x.1) ∧ c.run (s, unusedHeap) = .ok b ∧
      s.link.bound = x.2.1 ∧ b.1.link.bound = x.2.2.1 ∧
      (b.1.link.log.all fun e => decide e.Live) = x.2.2.2 := by
  obtain ⟨⟨s, v⟩, hinit, h⟩ := Option.bind_eq_some_iff.mp h
  obtain ⟨b, hrun, rfl⟩ := Option.map_eq_some_iff.mp h
  exact ⟨s, b, ok_of_toOption hinit, ok_of_toOption hrun, rfl, rfl, rfl⟩

theorem lockedClient_nextFid {s : P9Files (P9Server LockedFiles)}
    (h : lockedClient.p9Init = .ok (s, 0)) : s.nextFid = 1 := by
  have hfid := congrArg (fun x => x.toOption.map fun r => r.1.nextFid) h
  exact (Option.some.inj hfid).symm

/-- Completion of `cd x` leaves its fid behind when the open is refused. -/
theorem refused_completion_leaves_fid :
    ∃ (s : P9Files (P9Server LockedFiles)) (b : P9Files (P9Server LockedFiles) × Heap DiskImage),
      lockedClient.p9Init = .ok (s, 0) ∧
      (P9Command.completePath 0 [99, 100, 32, 120] 4 3).run (s, unusedHeap) = .ok b ∧
      s.link.bound = {0} ∧ b.1.link.bound = {1000, 0} := by
  obtain ⟨s, b, h1, h2, h3, h4, -⟩ := lockedRun_eq
    (c := .completePath 0 [99, 100, 32, 120] 4 3) (x := (0, {0}, {1000, 0}, true))
    (by decide +kernel)
  exact ⟨s, b, h1, h2, h3, h4⟩

/-- A directory that cannot be opened is listed. -/
theorem fids_kept_iff_list :
    ∃ (s : P9Files (P9Server LockedFiles)) (b : P9Files (P9Server LockedFiles) × Heap DiskImage),
      (P9Command.listDirectory none).run (s, unusedHeap) = .ok b ∧
      (b.1.link.bound = s.link.bound ↔ ¬ (P9Command.listDirectory none).OpenRefused s ∧
        ¬ (P9Command.listDirectory none).WalksOntoRoot s) := by
  obtain ⟨s, b, h1, h2, h3, h4, -⟩ := lockedRun_eq
    (c := .listDirectory none) (x := (0, {0}, {0}, true)) (by decide +kernel)
  exact ⟨s, b, h2, fids_kept_iff (.listDirectory none)
    (by rw [lockedClient_nextFid h1]; decide) h2⟩

/-! ## Requests name bound fids -/

/-- Between two operations only the root is bound. -/
structure P9Files.FidInv (s : P9Files (P9Server τ)) : Prop where
  bound : s.link.bound = {0}
  nextFid : s.nextFid < 4294967296
  live : s.link.Live

/-- Not `p9_read_file`, not after `next_fid` has wrapped, and not a path completion whose directory
is bound but not opened. -/
structure P9Command.Careful (c : P9Command) (s : P9Files (P9Server τ)) : Prop where
  notRead : ∀ path, c ≠ .readFile path
  fid : s.nextFid ≠ 0
  opened : ¬ c.OpenRefused s

/-- One careful operation. -/
theorem P9Files.FidInv.step [Disk D] {c : P9Command} {s s' : P9Files (P9Server τ)}
    {h h' : Heap D} (hs : s.FidInv) (hc : c.Careful s) (hrun : c.run (s, h) = .ok (s', h')) :
    s'.FidInv := by
  have hserved := P9Command.run_served hs.nextFid hrun
  have hbound := hserved.bound_iff
  rcases hserved with ⟨-, rfl⟩ | ⟨root, fid, path, c1, v, htarget, hvisit, hvisited, hfin⟩
  · exact hs
  obtain ⟨rfl, hfid⟩ := P9Command.target_root hc.notRead hc.fid htarget
  have honto : ¬ c.WalksOntoRoot s := by
    rintro ⟨fid', path', c2, v', ht, -⟩
    simp only [htarget, Option.some.injEq, Prod.mk.injEq] at ht
    omega
  have hlink := c.begun_link s
  obtain ⟨hlive, hholds⟩ := hvisited.live (by rw [hlink]; exact hs.live)
    (by rw [hlink, hs.bound]; exact Finset.mem_singleton_self 0)
    (by rw [hlink, hs.bound, Finset.mem_singleton]; exact hfid)
  refine ⟨(hbound.mpr ⟨hc.opened, honto⟩).trans hs.bound, ?_, hfin.live hlive hholds⟩
  rw [hfin.statics.1, hvisited.statics.1, P9Command.begun]
  split_ifs
  · exact hs.nextFid
  · exact Nat.mod_lt _ (by decide)

theorem P9Files.p9Init_inv {s0 s : P9Files (P9Server τ)} (hfid : s0.nextFid = 1)
    (hlog : s0.link.log = []) (hinit : s0.p9Init = .ok (s, 0)) : s.FidInv := by
  obtain ⟨s1, version, hversion, hasked1, hempty⟩ := s0.toP9.p9Version_spec
  obtain ⟨s2, attached, hattach, hasked2, hroot⟩ := s1.p9Attach_spec [114, 111, 111, 116] []
  have hlive1 : s1.link.Live := hasked1.live (fun e he => by rw [hlog] at he; cases he) trivial
  simp only [P9Files.p9Init, hversion, hattach] at hinit
  split_ifs at hinit with h1 h2
  · cases (ok_pair hinit).2
  · cases (ok_pair hinit).2
  cases hinit
  refine ⟨(hroot (not_lt.mp h2)).trans (by rw [hempty]; rfl), ?_, hasked2.live hlive1 trivial⟩
  rw [hasked2.nextFid, hasked1.nextFid, hfid]
  decide

/-- The states after `p9_init` and careful operations. -/
inductive FidRun [Disk D] : P9Files (P9Server τ) × Heap D → Prop where
  | start {s₀ s : P9Files (P9Server τ)} {h : Heap D} (hfid : s₀.nextFid = 1)
      (hlog : s₀.link.log = []) (hinit : s₀.p9Init = .ok (s, 0)) : FidRun (s, h)
  | step {a b : P9Files (P9Server τ) × Heap D} {c : P9Command} (ha : FidRun a)
      (hc : c.Careful a.1) (hrun : c.run a = .ok b) : FidRun b

/-- **Every request names a live fid**, in every run without `p9_read_file` in which `next_fid` does
not wrap and what path completion walked to is opened. -/
theorem requests_name_live_fids [Disk D] {a : P9Files (P9Server τ) × Heap D} (h : FidRun a) :
    ∀ e ∈ a.1.link.log, e.Live := by
  have hinv : a.1.FidInv := by
    induction h with
    | start hfid hlog hinit => exact P9Files.p9Init_inv hfid hlog hinit
    | step _ hc hrun ih => exact ih.step hc hrun
  exact hinv.live

/-- `p9_read_file` walks from fid 1, which is not bound. -/
theorem read_file_walks_from_unbound_fid :
    ∃ (s : P9Files (P9Server LockedFiles)) (b : P9Files (P9Server LockedFiles) × Heap DiskImage),
      lockedClient.p9Init = .ok (s, 0) ∧
      (P9Command.readFile [97]).run (s, unusedHeap) = .ok b ∧ ¬ ∀ e ∈ b.1.link.log, e.Live := by
  obtain ⟨s, b, h1, h2, -, -, hlive⟩ := lockedRun_eq
    (c := .readFile [97]) (x := (0, {0}, {0}, false)) (by decide +kernel)
  refine ⟨s, b, h1, h2, fun h => ?_⟩
  rw [List.all_eq_false] at hlive
  obtain ⟨e, he, hne⟩ := hlive
  exact hne (decide_eq_true (h e he))

/-- The root is listed after `p9_init`. -/
theorem requests_name_live_fids_list :
    ∃ (s : P9Files (P9Server LockedFiles)) (b : P9Files (P9Server LockedFiles) × Heap DiskImage),
      lockedClient.p9Init = .ok (s, 0) ∧
      (P9Command.listDirectory none).run (s, unusedHeap) = .ok b ∧ ∀ e ∈ b.1.link.log, e.Live := by
  obtain ⟨s, b, h1, h2, -⟩ := lockedRun_eq
    (c := .listDirectory none) (x := (0, {0}, {0}, true)) (by decide +kernel)
  have hstart : FidRun (s, unusedHeap) :=
    .start (show lockedClient.nextFid = 1 from rfl) rfl h1
  exact ⟨s, b, h1, h2, requests_name_live_fids (hstart.step ⟨fun _ => P9Command.noConfusion,
    by rw [lockedClient_nextFid h1]; decide, fun h => by cases h.1⟩ h2)⟩

end PenOS
