import PenOS.P9FidRuns
import PenOS.P9Listing
import PenOS.P9Walk

/-!
# Paths and the working directory

A path means the list of names it leads to from the root. `p9_change_directory` edits the string
`p9_cwd` without normalising it, and `complete_path` resolves what was typed from the root, not from
`p9_cwd`.
-/

namespace PenOS

open List

variable {p : Option (List UInt8)}

/-! ## What a path means -/

/-- One name of a path: `.` stays, and `..` removes the name before. -/
def follow (dir : List (List UInt8)) (name : List UInt8) : List (List UInt8) :=
  if name = [dot] then dir else if name = [dot, dot] then dir.dropLast else dir ++ [name]

/-- Where a path leads from the directory `dir`. -/
def resolveFrom (dir : List (List UInt8)) (path : List UInt8) : List (List UInt8) :=
  (fields isSlash path).foldl follow dir

/-- Where a path leads from the root. -/
abbrev resolve (path : List UInt8) : List (List UInt8) := resolveFrom [] path

variable {dir names : List (List UInt8)} {a b cwd last path pre : List UInt8}

theorem resolveFrom_append :
    resolveFrom dir (a ++ slash :: b) = resolveFrom (resolveFrom dir a) b := by
  rw [resolveFrom, fields_append rfl, foldl_append]
  rfl

theorem resolveFrom_slash : resolveFrom dir (slash :: b) = resolveFrom dir b :=
  resolveFrom_append (a := [])

/-- A name without slashes is one step. -/
theorem resolveFrom_name (hname : slash ∉ a) (hne : a ≠ []) : resolveFrom dir a = follow dir a := by
  have hno : ∀ c ∈ a, isSlash c = false := fun c hc =>
    decide_eq_false fun heq => hname (heq ▸ hc)
  rw [resolveFrom, fields_of_forall hno hne, foldl_cons, foldl_nil]

/-- The number of names in a path. -/
abbrev nameCount (path : List UInt8) : ℕ := (fields isSlash path).length

theorem nameCount_append : nameCount (a ++ slash :: b) = nameCount a + nameCount b := by
  rw [nameCount, fields_append rfl, length_append]

theorem resolve_walkPath : resolve (walkPath path) = resolve path := by
  rw [walkPath]
  split_ifs with hhead
  · obtain ⟨rest, rfl⟩ := head?_eq_some_iff.mp hhead
    exact resolveFrom_slash.symm
  · rfl

theorem exists_last_slash (h : slash ∈ cwd) :
    ∃ pre last, cwd = pre ++ slash :: last ∧ slash ∉ last := by
  obtain ⟨as, bs, hsplit, hno⟩ := eq_append_cons_of_mem (mem_reverse.mpr h)
  refine ⟨bs.reverse, as.reverse, ?_, fun hmem => hno (mem_reverse.mp hmem)⟩
  rw [← reverse_reverse cwd, hsplit]
  simp

theorem cutLastSlash_eq (hlast : slash ∉ last) :
    cutLastSlash (pre ++ slash :: last) = some (pre ++ [slash], last) := by
  have htake : ((pre ++ slash :: last).reverse.takeWhile (· ≠ slash)) = last.reverse := by
    rw [reverse_append, reverse_cons, append_assoc, takeWhile_append_of_pos]
    · simp
    · intro c hc
      have hne : c ≠ slash := fun heq => hlast (heq ▸ mem_reverse.mp hc)
      simpa using hne
  have hlen : (pre ++ slash :: last).length - last.length = (pre ++ [slash]).length := by
    simp
    omega
  rw [cutLastSlash, if_pos (by simp), htake]
  dsimp only
  rw [reverse_reverse, hlen, append_cons pre slash last, take_left]

/-- There is one last slash. -/
theorem eq_of_last_slash {pre' last' : List UInt8}
    (h : pre ++ slash :: last = pre' ++ slash :: last')
    (hlast : slash ∉ last) (hlast' : slash ∉ last') : pre = pre' ∧ last = last' := by
  have hsame := (cutLastSlash_eq hlast).symm.trans (h ▸ cutLastSlash_eq hlast')
  simpa using hsame

/-! ## The working directory -/

theorem newPath_dots (hcwd : cwd = pre ++ slash :: last) (hlast : slash ∉ last)
    (hroot : cwd.head? = some slash) : ∃ p, newPath cwd [dot, dot] = .ok p ∧
      (p.getD cwd).head? = some slash ∧ resolve (p.getD cwd) = resolve pre ∧
      (p.getD cwd).length ≤ cwd.length ∧ nameCount (p.getD cwd) ≤ nameCount cwd := by
  rw [newPath, if_neg (by decide), if_pos rfl]
  by_cases hslash : cwd = [slash]
  · refine ⟨none, if_pos hslash, hroot, ?_, le_rfl, le_rfl⟩
    obtain ⟨rfl, -⟩ | h := append_eq_singleton_iff.mp (hcwd.symm.trans hslash)
    · rw [hslash]
      exact resolveFrom_slash
    · cases h.2
  · rw [if_neg hslash, hcwd, cutLastSlash_eq hlast]
    dsimp only
    rw [dropLast_concat]
    cases pre with
    | nil => exact ⟨some [slash], rfl, rfl, resolveFrom_slash, by simp, Nat.zero_le _⟩
    | cons c pre =>
      rw [hcwd] at hroot
      refine ⟨some (c :: pre), by simp, hroot, rfl, by simp, ?_⟩
      rw [nameCount_append]
      exact Nat.le_add_right _ _

/-- The path `cd` goes to, if it is not `.` or `..`. -/
def joinPath (cwd path : List UInt8) : List UInt8 :=
  if path.head? = some slash then path
  else if cwd = [slash] then slash :: path else cwd ++ slash :: path

theorem newPath_other (hdot : path ≠ [dot]) (hdots : path ≠ [dot, dot]) :
    newPath cwd path = .ok (some (joinPath cwd path)) := by
  rw [newPath, if_neg hdot, if_neg hdots, joinPath]
  split_ifs <;> rfl

theorem head_joinPath (hroot : cwd.head? = some slash) :
    (joinPath cwd path).head? = some slash := by
  rw [joinPath]
  split_ifs with habs hslash
  · exact habs
  · rfl
  · rw [head?_append, hroot]
    rfl

theorem newPath_follows (hroot : cwd.head? = some slash) (hdots : path ≠ [dot, dot]) :
    ∃ p, newPath cwd path = .ok p ∧ (p.getD cwd).head? = some slash ∧ resolve (p.getD cwd) =
      if path.head? = some slash then resolve path else resolveFrom (resolve cwd) path := by
  by_cases hdot : path = [dot]
  · subst hdot
    refine ⟨none, rfl, hroot, ?_⟩
    rw [if_neg (by decide), resolveFrom_name (by decide) (by decide)]
    rfl
  · refine ⟨_, newPath_other hdot hdots, head_joinPath hroot, ?_⟩
    rw [Option.getD_some, joinPath]
    split_ifs with habs hslash
    · rfl
    · rw [hslash]
      exact resolveFrom_slash
    · exact resolveFrom_append

variable {σ : Type} [P9Link σ] {s s' : P9Files σ} {r : ℤ}

theorem P9Files.close_cwd {α : Type} {fid : ℕ} {x y : α} (h : s.close fid x = .ok (s', y)) :
    s'.cwd = s.cwd ∧ x = y := by
  rw [close] at h
  split at h
  · cases h
  · cases h
    exact ⟨rfl, rfl⟩

theorem P9Files.p9ChangeDirectory_cwd (hp : newPath s.cwd path = .ok p)
    (h : s.p9ChangeDirectory path = .ok (s', r)) :
    r = -1 ∧ s'.cwd = s.cwd ∨ r = 0 ∧ s'.cwd = p.getD s.cwd := by
  rw [p9ChangeDirectory, hp] at h
  split_ifs at h
  · cases h
    exact .inl ⟨rfl, rfl⟩
  cases p with
  | none =>
    cases h
    exact .inr ⟨rfl, rfl⟩
  | some p =>
    dsimp only at h
    split at h
    · cases h
    · cases h
      exact .inl ⟨rfl, rfl⟩
    · obtain ⟨hcwd, rfl⟩ := close_cwd h
      exact .inl ⟨rfl, hcwd⟩
    · split at h
      · cases h
      · cases h
        exact .inr ⟨rfl, rfl⟩

/-- The working directories reached by calls of `p9_change_directory`, from the root on. -/
inductive CdRun : P9Files σ → Prop where
  | start {s : P9Files σ} (h : s.cwd = [slash]) : CdRun s
  | cd {s s' : P9Files σ} {path : List UInt8} {r : ℤ} (hrun : CdRun s)
      (h : s.p9ChangeDirectory path = .ok (s', r)) : CdRun s'

theorem CdRun.head_cwd (hrun : CdRun s) : s.cwd.head? = some slash := by
  induction hrun with
  | start h => rw [h]; rfl
  | @cd s s' path r hrun h ih =>
    obtain ⟨p, hp, hhead⟩ : ∃ p, newPath s.cwd path = .ok p ∧
        (p.getD s.cwd).head? = some slash := by
      by_cases hdots : path = [dot, dot]
      · obtain ⟨pre, last, hcwd, hlast⟩ := exists_last_slash (mem_of_mem_head? ih)
        obtain ⟨p, hp, hhead, -⟩ := newPath_dots hcwd hlast ih
        exact ⟨p, hdots ▸ hp, hhead⟩
      · obtain ⟨p, hp, hhead, -⟩ := newPath_follows ih hdots
        exact ⟨p, hp, hhead⟩
    rcases P9Files.p9ChangeDirectory_cwd hp h with ⟨-, hcwd⟩ | ⟨-, hcwd⟩ <;> rw [hcwd]
    · exact ih
    · exact hhead

/-- The last part of `p9_cwd` is a name that `cd ..` may cut off, or there is nothing before
it. -/
def CutsName (cwd path : List UInt8) : Prop := path = [dot, dot] →
  ∀ pre last, cwd = pre ++ slash :: last → slash ∉ last →
    last ≠ [] ∧ last ≠ [dot] ∧ last ≠ [dot, dot] ∨ resolve pre = []

theorem parent_iff (hlast : slash ∉ last) : dir = follow (resolveFrom dir last) [dot, dot] ↔
    last ≠ [] ∧ last ≠ [dot] ∧ last ≠ [dot, dot] ∨ dir = [] := by
  rw [show follow (resolveFrom dir last) [dot, dot] = (resolveFrom dir last).dropLast from rfl]
  by_cases hname : last ≠ [] ∧ last ≠ [dot] ∧ last ≠ [dot, dot]
  · rw [resolveFrom_name hlast hname.1, follow, if_neg hname.2.1, if_neg hname.2.2, dropLast_concat]
    exact iff_of_true rfl (.inl hname)
  · -- the path does not get longer, and the cut makes it shorter
    have hle : (resolveFrom dir last).length ≤ dir.length := by
      obtain rfl | rfl | rfl : last = [] ∨ last = [dot] ∨ last = [dot, dot] := by tauto
      · exact le_rfl
      · exact le_rfl
      · exact length_dropLast.trans_le (Nat.sub_le _ _)
    refine ⟨fun h => .inr (eq_nil_of_length_eq_zero ?_), fun h => ?_⟩
    · have hlen := congrArg length h
      rw [length_dropLast] at hlen
      omega
    · rw [h.resolve_left hname] at hle ⊢
      rw [eq_nil_of_length_eq_zero (Nat.le_zero.mp hle), dropLast_nil]

/-- **The working directory follows the paths**: a call that returns 0 leads where the path leads
exactly when `..` finds a name at the end of `p9_cwd`. -/
theorem cwd_follows_iff (hrun : CdRun s) (h : s.p9ChangeDirectory path = .ok (s', r)) :
    (r = -1 → s'.cwd = s.cwd) ∧ (r = 0 → (resolve s'.cwd =
      (if path.head? = some slash then resolve path else resolveFrom (resolve s.cwd) path) ↔
        CutsName s.cwd path)) := by
  have hroot := hrun.head_cwd
  by_cases hdots : path = [dot, dot]
  · subst hdots
    obtain ⟨pre, last, hcwd, hlast⟩ := exists_last_slash (mem_of_mem_head? hroot)
    obtain ⟨p, hp, -, hres, -⟩ := newPath_dots hcwd hlast hroot
    rcases P9Files.p9ChangeDirectory_cwd hp h with ⟨rfl, hkept⟩ | ⟨rfl, hnew⟩
    · exact ⟨fun _ => hkept, fun h0 => absurd h0 (by decide)⟩
    refine ⟨fun h1 => absurd h1 (by decide), fun _ => ?_⟩
    rw [hnew, hres, if_neg (by decide), resolveFrom_name (by decide) (by decide), hcwd,
      resolve, resolve, resolveFrom_append]
    refine (parent_iff hlast).trans ⟨fun hname _ pre' last' heq hlast' => ?_, fun hcut =>
      hcut rfl pre last rfl hlast⟩
    obtain ⟨rfl, rfl⟩ := eq_of_last_slash heq hlast hlast'
    exact hname
  · obtain ⟨p, hp, -, hres⟩ := newPath_follows hroot hdots
    rcases P9Files.p9ChangeDirectory_cwd hp h with ⟨rfl, hkept⟩ | ⟨rfl, hnew⟩
    · exact ⟨fun _ => hkept, fun h0 => absurd h0 (by decide)⟩
    · exact ⟨fun h1 => absurd h1 (by decide),
        fun _ => iff_of_true (hnew ▸ hres) fun heq => absurd heq hdots⟩

theorem P9Files.p9ChangeDirectory_directory (s : P9Files Directory) (hinit : s.initialized = true)
    {path p : List UInt8} (hp : newPath s.cwd path = .ok (some p)) :
    ∃ s', s.p9ChangeDirectory path = .ok (s', 0) ∧ s'.cwd = p ∧ s'.initialized = true := by
  obtain ⟨tag1, rx1, hvisit⟩ := s.takeFid.1.visit_directory 0 s.nextFid (walkPath p)
  obtain ⟨t, hclunk, -, hinit'⟩ := P9.p9Clunk_answered
    { s.takeFid.1.toP9 with tag := tag1, rx := rx1 } s.nextFid
  rw [p9ChangeDirectory, if_neg (by simp [hinit]), hp]
  dsimp only [takeFid] at hvisit hclunk ⊢
  simp only [hvisit, close, hclunk]
  exact ⟨_, rfl, rfl, hinit'.trans hinit⟩

/-- A client of an empty directory. -/
def emptyClient (cwd : List UInt8) : P9Files Directory := ⟨⟨⟨[]⟩, 0, 1, true, fun _ => 0⟩, cwd⟩

/-- `cd a` from the root. -/
theorem exists_child : ∃ s s' : P9Files Directory, s.cwd = [slash] ∧
    s.p9ChangeDirectory [97] = .ok (s', 0) ∧ s'.cwd = [slash, 97] ∧ s'.initialized = true := by
  have hnew : newPath [slash] [97] = .ok (some [slash, 97]) := rfl
  obtain ⟨s', h, hcwd, hinit⟩ := (emptyClient [slash]).p9ChangeDirectory_directory rfl hnew
  exact ⟨_, s', rfl, h, hcwd, hinit⟩

/-- `cd ..` in `/a/b`. -/
theorem cwd_follows_iff_parent : ∃ s s' : P9Files Directory, CdRun s ∧
    s.cwd = [slash, 97, slash, 98] ∧ s.p9ChangeDirectory [dot, dot] = .ok (s', 0) ∧
    resolve s'.cwd = [[97]] := by
  obtain ⟨s0, s1, hroot, h1, hcwd1, hinit1⟩ := exists_child
  have hnew : newPath [slash, 97] [98] = .ok (some [slash, 97, slash, 98]) := rfl
  obtain ⟨s2, h2, hcwd2, hinit2⟩ := s1.p9ChangeDirectory_directory hinit1 (hcwd1 ▸ hnew)
  have hup : newPath [slash, 97, slash, 98] [dot, dot] = .ok (some [slash, 97]) := rfl
  obtain ⟨s3, h3, -⟩ := s2.p9ChangeDirectory_directory hinit2 (hcwd2 ▸ hup)
  have hrun : CdRun s2 := .cd (.cd (.start hroot) h1) h2
  have hcut : CutsName s2.cwd [dot, dot] := by
    intro _ pre last heq hlast
    rw [hcwd2] at heq
    obtain ⟨-, rfl⟩ := eq_of_last_slash
      (show [slash, 97] ++ slash :: [98] = pre ++ slash :: last from heq) (by decide) hlast
    exact .inl (by decide)
  have hres := ((cwd_follows_iff hrun h3).2 rfl).mpr hcut
  rw [hcwd2] at hres
  exact ⟨s2, s3, hrun, hcwd2, h3, hres.trans (by decide)⟩

/-- `cd a/` and then `cd ..` stays in `a`. -/
theorem parent_not_reached : ∃ s s1 s2 : P9Files Directory, CdRun s ∧
    s.p9ChangeDirectory [97, slash] = .ok (s1, 0) ∧ s1.p9ChangeDirectory [dot, dot] = .ok (s2, 0) ∧
    resolveFrom (resolve s1.cwd) [dot, dot] = [] ∧ resolve s2.cwd = [[97]] := by
  have hchild : newPath [slash] [97, slash] = .ok (some [slash, 97, slash]) := rfl
  have hparent : newPath [slash, 97, slash] [dot, dot] = .ok (some [slash, 97]) := rfl
  obtain ⟨s1, h1, hcwd1, hinit⟩ := (emptyClient [slash]).p9ChangeDirectory_directory rfl hchild
  obtain ⟨s2, h2, hcwd2, -⟩ := s1.p9ChangeDirectory_directory hinit (hcwd1 ▸ hparent)
  refine ⟨_, s1, s2, .start rfl, h1, h2, ?_, ?_⟩
  · rw [hcwd1]
    decide
  · rw [hcwd2]
    decide

/-! ## Completion -/

/-- How many directories above the start names lead, when `depth` of them were gone down. -/
def climb : ℕ → List (List UInt8) → ℕ
  | _, [] => 0
  | depth, name :: names =>
    if name = [dot] then climb depth names
    else if name = [dot, dot] then
      if depth = 0 then climb 0 names + 1 else climb (depth - 1) names
    else climb (depth + 1) names

theorem foldl_follow (names start below : List (List UInt8)) : names.foldl follow (start ++ below) =
      start.take (start.length - climb below.length names) ++ names.foldl follow below := by
  induction names generalizing start below with
  | nil => simp [climb]
  | cons name names ih =>
    rw [foldl_cons, foldl_cons, climb, follow, follow]
    split_ifs with hdot hdots hdepth
    · exact ih start below
    · obtain rfl := eq_nil_of_length_eq_zero hdepth
      have hup := ih start.dropLast []
      rw [append_nil, length_dropLast, length_nil] at hup
      rw [append_nil, hup, dropLast_eq_take, take_take, min_eq_left (Nat.sub_le _ _),
        Nat.sub_sub, add_comm 1]
      rfl
    · rw [dropLast_append_of_ne_nil (ne_nil_of_length_pos (by omega)), ih, length_dropLast]
    · rw [append_assoc, ih, length_append, length_singleton]

/-- Where `cd d` goes. -/
def entered (cwd d : List UInt8) : List (List UInt8) :=
  match newPath cwd d with
  | .ok (some p) => resolve p
  | _ => resolve cwd

theorem entered_eq (hp : newPath cwd path = .ok p) : entered cwd path = resolve (p.getD cwd) := by
  rw [entered, hp]
  cases p <;> rfl

/-- `d` leads to the same place from the root as from `cwd`: it is absolute or climbs up to the
root. -/
def SameStart (cwd d : List UInt8) : Prop :=
  d.head? = some slash ∨ d = [] ∨
    (d = [dot, dot] ∧ ∀ pre last, cwd = pre ++ slash :: last → slash ∉ last → resolve pre = []) ∨
    d ≠ [dot, dot] ∧ (resolve cwd).length ≤ climb 0 (fields isSlash d)

section
omit [P9Link σ]

variable {ticks currentLen pathStart : ℕ} {buffer : List UInt8}

theorem completing_cwd (hno : slash ∉ buffer.drop pathStart) :
    (P9Command.completePath ticks buffer currentLen pathStart).target s =
      some (0, 1000 + u32 ticks % 1000, walkPath s.cwd) := by
  rw [P9Command.target, cutLastSlash, if_neg hno]
  rfl

theorem completing_directory (hbuf : buffer.drop pathStart = a ++ slash :: b) (hb : slash ∉ b) :
    (P9Command.completePath ticks buffer currentLen pathStart).target s =
      some (0, 1000 + u32 ticks % 1000, walkPath (a ++ [slash])) := by
  have hslash : a ++ [slash] ≠ [dot] := fun heq =>
    absurd (mem_singleton.mp (heq ▸ mem_append_right a mem_cons_self)) (by decide)
  rw [P9Command.target, hbuf, cutLastSlash_eq hb, Option.getD_some, if_neg hslash]

end

omit [P9Link σ] in
/-- **Completion looks where `cd` would go** exactly when what stands before the last slash means
the same from the root as from the working directory. -/
theorem completion_directory_iff (s : P9Files σ) (hroot : s.cwd.head? = some slash)
    (ticks currentLen pathStart : ℕ) (buffer : List UInt8) :
    ∃ fid path, (P9Command.completePath ticks buffer currentLen pathStart).target s =
        some (0, fid, path) ∧ (slash ∉ buffer.drop pathStart → resolve path = resolve s.cwd) ∧
      ∀ d typed, buffer.drop pathStart = d ++ slash :: typed → slash ∉ typed →
        (resolve path = entered s.cwd (if d = [] then [slash] else d) ↔ SameStart s.cwd d) := by
  obtain ⟨fid, path, htarget⟩ : ∃ fid path,
      (P9Command.completePath ticks buffer currentLen pathStart).target s = some (0, fid, path) :=
    ⟨_, _, rfl⟩
  refine ⟨fid, path, htarget, fun hno => ?_, fun d typed hbuf htyped => ?_⟩
  · cases htarget.symm.trans (completing_cwd hno)
    exact resolve_walkPath
  cases htarget.symm.trans (completing_directory hbuf htyped)
  rw [resolve_walkPath]
  have hdir : resolve (d ++ [slash]) = resolve d := resolveFrom_append
  rw [hdir, SameStart]
  by_cases hnil : d = []
  · subst hnil
    exact iff_of_true rfl (.inr (.inl rfl))
  rw [if_neg hnil]
  by_cases hdots : d = [dot, dot]
  · obtain ⟨pre, last, hcwd, hlast⟩ := exists_last_slash (mem_of_mem_head? hroot)
    obtain ⟨p, hp, -, hres, -⟩ := newPath_dots hcwd hlast hroot
    rw [hdots, entered_eq hp, hres]
    refine ⟨fun h => .inr (.inr (.inl ⟨rfl, fun pre' last' heq hlast' => ?_⟩)), fun h => ?_⟩
    · rw [(eq_of_last_slash (hcwd.symm.trans heq) hlast hlast').1] at h
      exact h.symm
    · rcases h with h | h | ⟨-, h⟩ | ⟨h, -⟩
      · cases h
      · cases h
      · exact (h pre last hcwd hlast).symm
      · exact absurd rfl h
  · obtain ⟨p, hp, -, hres⟩ := newPath_follows hroot hdots
    rw [entered_eq hp, hres]
    by_cases habs : d.head? = some slash
    · rw [if_pos habs]
      exact iff_of_true rfl (.inl habs)
    · have hfollow := foldl_follow (fields isSlash d) (resolve s.cwd) []
      rw [append_nil] at hfollow
      rw [if_neg habs, show resolveFrom (resolve s.cwd) d = _ ++ resolve d from hfollow,
        self_eq_append_left, take_eq_nil_iff, Nat.sub_eq_zero_iff_le, length_nil]
      refine ⟨fun h => .inr (.inr (.inr ⟨hdots, h.elim id fun h => by simp [h]⟩)), fun h => ?_⟩
      rcases h with h | h | ⟨h, -⟩ | ⟨-, h⟩
      · exact absurd h habs
      · exact absurd h hnil
      · exact absurd h hdots
      · exact .inl h

/-- After `cd a` the entries completed for `cd b/` are those of `b` in the root. -/
theorem completion_misses_directory : ∃ s : P9Files Directory, CdRun s ∧ s.cwd = [slash, 97] ∧
    ∃ fid path, (P9Command.completePath 0 [99, 100, 32, 98, slash] 5 3).target s =
      some (0, fid, path) ∧ resolve path = [[98]] ∧ entered s.cwd [98] = [[97], [98]] := by
  obtain ⟨s0, s, hroot, hcd, hcwd, -⟩ := exists_child
  refine ⟨s, .cd (.start hroot) hcd, hcwd, _, _,
    completing_directory (a := [98]) (b := []) rfl not_mem_nil, by decide, ?_⟩
  rw [hcwd]
  decide

/-- After `cd a` the path of `cd ../b/` leads to the root first. -/
theorem completion_directory_iff_parent : ∃ s : P9Files Directory, CdRun s ∧
    s.cwd = [slash, 97] ∧ ∃ fid path,
      (P9Command.completePath 0 [99, 100, 32, dot, dot, slash, 98, slash] 8 3).target s =
        some (0, fid, path) ∧ resolve path = entered s.cwd [dot, dot, slash, 98] := by
  obtain ⟨s0, s, hroot, hcd, hcwd, -⟩ := exists_child
  obtain ⟨fid, path, htarget, -, h⟩ := completion_directory_iff s (hcwd ▸ rfl) 0 8 3
    [99, 100, 32, dot, dot, slash, 98, slash]
  have hsame : SameStart [slash, 97] [dot, dot, slash, 98] :=
    .inr (.inr (.inr ⟨by decide, by decide⟩))
  exact ⟨s, .cd (.start hroot) hcd, hcwd, fid, path, htarget,
    (h [dot, dot, slash, 98] [] rfl not_mem_nil).mpr (hcwd ▸ hsame)⟩

/-! ## The arrays for paths -/

/-- What is written fits: in `new_path` and `p9_cwd`, and in `path_copy` and `components` of
`p9_walk`. -/
def FitsArrays (s : P9Files σ) (c : P9Command) : Prop :=
  (∀ arg p, c = .changeDirectory arg → newPath s.cwd arg = .ok (some p) → p.length ≤ 255) ∧
    ∀ root fid path, c.target s = some (root, fid, path) →
      path.length ≤ 255 ∧ (splitComponents path.length path).length ≤ 32

/-- The path that is typed, with the working directory if it is relative, is short enough and
has 32 names at most. -/
def ShortPath (s : P9Files σ) : P9Command → Prop
  | .changeDirectory arg => arg ≠ [dot] → arg ≠ [dot, dot] →
      if arg.head? = some slash then nameCount arg ≤ 32
      else (s.cwd ≠ [slash] → s.cwd.length + 1 + arg.length ≤ 255) ∧
        nameCount s.cwd + nameCount arg ≤ 32
  | .completePath _ buffer _ pathStart => ∀ d typed, buffer.drop pathStart = d ++ slash :: typed →
      slash ∉ typed → nameCount d ≤ 32
  | _ => True

/-- Arguments of `cd`, and paths that are completed, have 124 characters at most. -/
def LineArg : P9Command → Prop
  | .changeDirectory arg => arg.length ≤ 124
  | .completePath _ buffer _ pathStart => (buffer.drop pathStart).length ≤ 124
  | _ => False

/-- The states of the client in a session of accepted `cd` commands and of completions, each meeting
`P`. -/
inductive Session (P : P9Files σ → P9Command → Prop) : P9Files σ → Prop where
  | start {s : P9Files σ} (h : s.cwd = [slash]) : Session P s
  | cd {s s' : P9Files σ} {arg : List UInt8} (hs : Session P s)
      (hc : LineArg (.changeDirectory arg)) (hp : P s (.changeDirectory arg))
      (h : s.p9ChangeDirectory arg = .ok (s', 0)) : Session P s'
  | complete {s s' : P9Files σ} {ticks currentLen pathStart : ℕ} {buffer : List UInt8}
      {r : List UInt8 × ℕ} (hs : Session P s)
      (h : s.completePath ticks buffer currentLen pathStart = .ok (s', r)) : Session P s'

theorem nameCount_walkPath : nameCount (walkPath path) = nameCount path := by
  rw [walkPath]
  split_ifs with hhead
  · obtain ⟨rest, rfl⟩ := head?_eq_some_iff.mp hhead
    exact (congrArg length (fields_cons_of_sep rfl)).symm
  · rfl

theorem walk_fits_iff (hlen : path.length ≤ 255) : (walkPath path).length ≤ 255 ∧
      (splitComponents (walkPath path).length (walkPath path)).length ≤ 32 ↔
    nameCount path ≤ 32 := by
  have hle : (walkPath path).length ≤ path.length := by
    rw [walkPath]
    split_ifs
    · exact length_drop.trans_le (Nat.sub_le _ _)
    · exact le_rfl
  rw [splitComponents_eq le_rfl]
  exact (and_iff_right (hle.trans hlen)).trans (by rw [← nameCount, nameCount_walkPath])

/-- The size of the path `cd` goes to. -/
theorem joinPath_size (harg : path.length ≤ 124) :
    (joinPath cwd path).length ≤ 255 ∧ nameCount (joinPath cwd path) ≤ 32 ↔
      if path.head? = some slash then nameCount path ≤ 32
      else (cwd ≠ [slash] → cwd.length + 1 + path.length ≤ 255) ∧
        nameCount cwd + nameCount path ≤ 32 := by
  rw [joinPath]
  split_ifs with habs hslash
  · exact and_iff_right (by omega)
  · subst hslash
    have hnames : nameCount (slash :: path) = nameCount path :=
      congrArg length (fields_cons_of_sep rfl)
    have hzero : nameCount [slash] = 0 := by decide
    rw [hnames, hzero, zero_add, length_cons]
    simp
    omega
  · rw [nameCount_append, length_append, length_cons, ← add_assoc, add_right_comm]
    simp [hslash]

theorem P9Files.completePath_cwd {ticks currentLen pathStart : ℕ} {buffer : List UInt8}
    {r : List UInt8 × ℕ} (h : s.completePath ticks buffer currentLen pathStart = .ok (s', r)) :
    s'.cwd = s.cwd := by
  simp only [completePath] at h
  split at h
  · cases h
  · rw [← (ok_pair h).1]
  · rw [← (ok_pair h).1]
  · split at h
    · cases h
    · exact (close_cwd h).1

/-- Along a session the working directory fits. -/
theorem Session.cwd_fits (hs : Session ShortPath s) :
    s.cwd.head? = some slash ∧ s.cwd.length ≤ 255 ∧ nameCount s.cwd ≤ 32 := by
  induction hs with
  | start h =>
    rw [h]
    decide
  | @cd s s' arg hs hc hp h ih =>
    obtain ⟨hroot, hlen, hnames⟩ := ih
    have hcwd : ∀ p, newPath s.cwd arg = .ok p → s'.cwd = p.getD s.cwd := fun p hp =>
      ((P9Files.p9ChangeDirectory_cwd hp h).resolve_left fun hr => absurd hr.1 (by decide)).2
    by_cases hdot : arg = [dot]
    · rw [hcwd none (by rw [hdot]; rfl)]
      exact ⟨hroot, hlen, hnames⟩
    by_cases hdots : arg = [dot, dot]
    · obtain ⟨pre, last, hsplit, hlast⟩ := exists_last_slash (mem_of_mem_head? hroot)
      obtain ⟨p, hnew, hhead, -, hle, hle'⟩ := newPath_dots hsplit hlast hroot
      rw [hcwd p (hdots ▸ hnew)]
      exact ⟨hhead, hle.trans hlen, hle'.trans hnames⟩
    · rw [hcwd _ (newPath_other hdot hdots)]
      exact ⟨head_joinPath hroot, (joinPath_size hc).mpr (hp hdot hdots)⟩
  | complete hs h ih =>
    rw [P9Files.completePath_cwd h]
    exact ih

section
omit [P9Link σ]

theorem fits_of_target {c : P9Command} {root fid : ℕ} (hc : ∀ arg, c ≠ .changeDirectory arg)
    (htarget : c.target s = some (root, fid, walkPath path)) (hlen : path.length ≤ 255) :
    FitsArrays s c ↔ nameCount path ≤ 32 := by
  rw [← walk_fits_iff hlen]
  refine ⟨fun h => h.2 root fid _ htarget, fun h => ⟨fun arg _ heq => absurd heq (hc arg),
    fun root' fid' path' htarget' => ?_⟩⟩
  cases htarget.symm.trans htarget'
  exact h

theorem fits_of_newPath (hinit : s.initialized = true) (hp : newPath s.cwd path = .ok p) :
    FitsArrays s (.changeDirectory path) ↔ ∀ q ∈ p, q.length ≤ 255 ∧ nameCount q ≤ 32 := by
  simp only [FitsArrays, P9Command.target, hinit, hp, if_true]
  refine ⟨fun h q hq => ?_, fun hq => ⟨fun arg q harg hq' => ?_,
    fun root fid walked hwalked => ?_⟩⟩
  · obtain rfl := Option.mem_def.mp hq
    have hlen := h.1 path q rfl hp
    exact ⟨hlen, (walk_fits_iff hlen).mp (h.2 _ _ _ rfl)⟩
  · cases harg
    exact (hq q (Except.ok.inj (hp.symm.trans hq'))).1
  · rcases p with _ | q
    · cases hwalked
    · cases hwalked
      exact (walk_fits_iff (hq q rfl).1).mpr (hq q rfl).2

end

/-- **Path buffers do not overflow** in a session of short paths, and the next command keeps to the
arrays exactly if its path is short, too. -/
theorem path_arrays_fit_iff (hs : Session ShortPath s) (hinit : s.initialized = true)
    {c : P9Command} (hc : LineArg c) : FitsArrays s c ↔ ShortPath s c := by
  obtain ⟨hroot, hlen, hnames⟩ := hs.cwd_fits
  cases c with
  | changeDirectory arg =>
    by_cases hdot : arg = [dot]
    · exact iff_of_true ((fits_of_newPath hinit (by rw [hdot]; rfl)).mpr (by simp))
        fun h => absurd hdot h
    by_cases hdots : arg = [dot, dot]
    · obtain ⟨pre, last, hsplit, hlast⟩ := exists_last_slash (mem_of_mem_head? hroot)
      obtain ⟨p, hnew, -, -, hle, hle'⟩ := newPath_dots hsplit hlast hroot
      refine iff_of_true ((fits_of_newPath hinit (hdots ▸ hnew)).mpr fun q hq => ?_)
        fun _ h => absurd hdots h
      obtain rfl := Option.mem_def.mp hq
      exact ⟨hle.trans hlen, hle'.trans hnames⟩
    · rw [fits_of_newPath hinit (newPath_other hdot hdots), ShortPath, ← joinPath_size hc]
      simp [hdot, hdots]
  | completePath ticks buffer currentLen pathStart =>
    by_cases hslash : slash ∈ buffer.drop pathStart
    · obtain ⟨d, typed, hbuf, htyped⟩ := exists_last_slash hslash
      have hle : (d ++ [slash]).length ≤ (buffer.drop pathStart).length := by
        rw [hbuf]
        simp
      rw [fits_of_target (by simp) (completing_directory hbuf htyped)
        (hle.trans (hc.trans (by decide))), nameCount_append]
      refine ⟨fun h d' typed' heq htyped' => ?_, fun h => h d typed hbuf htyped⟩
      rwa [← (eq_of_last_slash (hbuf.symm.trans heq) htyped htyped').1]
    · rw [fits_of_target (by simp) (completing_cwd hslash) hlen]
      exact iff_of_true hnames fun d typed heq _ => absurd (heq ▸ by simp) hslash
  | listDirectory path => exact absurd hc id
  | readFile path => exact absurd hc id

/-- `cd b` after `cd a`. -/
theorem path_arrays_fit_iff_grandchild : ∃ s : P9Files Directory, Session ShortPath s ∧
    s.cwd = [slash, 97] ∧ FitsArrays s (.changeDirectory [98]) := by
  obtain ⟨s0, s, hroot, hcd, hcwd, hinit⟩ := exists_child
  have hs : Session ShortPath s := by
    refine .cd (.start hroot) (by rw [LineArg]; decide) (fun _ _ => ?_) hcd
    rw [hroot]
    exact ⟨by decide, by decide⟩
  refine ⟨s, hs, hcwd, (path_arrays_fit_iff hs hinit (by rw [LineArg]; decide)).mpr fun _ _ => ?_⟩
  rw [hcwd]
  exact ⟨by decide, by decide⟩

/-- Three times `cd` into a directory with a name of 124 characters. -/
theorem third_cd_overflows : ∃ s s' : P9Files Directory, Session (fun _ _ => True) s ∧
    LineArg (.changeDirectory (replicate 124 97)) ∧
    s.p9ChangeDirectory (replicate 124 97) = .ok (s', 0) ∧
    ¬ FitsArrays s (.changeDirectory (replicate 124 97)) := by
  let name : List UInt8 := replicate 124 97
  have hjoin : ∀ cwd, newPath cwd name = .ok (some (joinPath cwd name)) := fun cwd =>
    newPath_other (by decide) (by decide)
  have hline : LineArg (.changeDirectory name) := length_replicate.le
  obtain ⟨s1, h1, hcwd1, hinit1⟩ := (emptyClient [slash]).p9ChangeDirectory_directory rfl (hjoin _)
  obtain ⟨s2, h2, hcwd2, hinit2⟩ := s1.p9ChangeDirectory_directory hinit1 (hjoin _)
  obtain ⟨s3, h3, -⟩ := s2.p9ChangeDirectory_directory hinit2 (hjoin _)
  refine ⟨s2, s3, .cd (.cd (.start rfl) hline trivial h1) hline trivial h2, hline, h3, fun h => ?_⟩
  have hlen := h.1 name _ rfl (hjoin s2.cwd)
  rw [hcwd2, hcwd1] at hlen
  exact absurd hlen (by decide +kernel)

end PenOS
