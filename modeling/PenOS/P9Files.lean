import PenOS.P9

/-!
# Directories of the 9P client and path completion

`p9_change_directory`, `p9_list_directory` (`src/fs/9p.c`) and `complete_path` (`src/shell/shell.c`)
walk from the root to a new fid and open it; they differ in the number of the fid and in what they
do when the open fails. The names printed are returned.
-/

namespace PenOS

/-- `'.'` -/
abbrev dot : UInt8 := 46

/-- The characters before the first NUL. -/
def cString (bytes : List UInt8) : List UInt8 := bytes.takeWhile (· ≠ 0)

/-! ## Listings -/

/-- An entry of a listing. -/
structure DirEntry where
  type : UInt8
  name : List UInt8

/-- What is printed for an entry: a directory gets a final slash. -/
def DirEntry.shown (e : DirEntry) : List UInt8 := if e.type = 4 then e.name ++ [slash] else e.name

/-- The entry at `offset` in a listing of `count` bytes and the offset of the next one; `none` where
the loops stop. -/
def dirEntryAt (buf : List UInt8) (count offset : ℕ) : Option (DirEntry × ℕ) :=
  if offset < count then
    if offset + 24 > count then none
    else
      let nameLen := (buf.getD (offset + 22) 0).toNat + 256 * (buf.getD (offset + 23) 0).toNat
      if offset + 24 + nameLen > count then none
      else
        -- the step to the next entry uses the length after the cut
        let nameLen := if nameLen > 255 then 255 else nameLen
        some (⟨buf.getD (offset + 21) 0, cString ((buf.drop (offset + 24)).take nameLen)⟩,
          offset + 24 + nameLen)
  else none

/-- The loop of `p9_list_directory`. -/
def listEntries (buf : List UInt8) (count : ℕ) : ℕ → ℕ → List (List UInt8)
  | 0, _ => []
  | fuel + 1, offset =>
    match dirEntryAt buf count offset with
    | none => []
    | some (e, next) => e.shown :: listEntries buf count fuel next

/-- Hidden files are skipped unless what is typed starts with a dot. -/
def DirEntry.completes (e : DirEntry) (typed : List UInt8) : Bool :=
  (e.name.head? ≠ some dot ∨ typed.head? = some dot) ∧ typed.isPrefixOf e.name

/-- The loop of `complete_path`: at most 16 matches. A match is kept whole, while a row of `matches`
has 128 bytes. -/
def matchEntries (buf : List UInt8) (count : ℕ) (typed : List UInt8) :
    ℕ → ℕ → List (List UInt8) → List (List UInt8)
  | 0, _, found => found
  | fuel + 1, offset, found =>
    if found.length < 16 then
      match dirEntryAt buf count offset with
      | none => found
      | some (e, next) =>
        matchEntries buf count typed fuel next
          (if e.completes typed then found ++ [e.shown] else found)
    else found

/-! ## Paths -/

/-- A path without its leading slash. -/
def walkPath (path : List UInt8) : List UInt8 :=
  if path.head? = some slash then path.drop 1 else path

/-- A path cut behind its last slash, if it has one. -/
def cutLastSlash (path : List UInt8) : Option (List UInt8 × List UInt8) :=
  if slash ∈ path then
    let rest := (path.reverse.takeWhile (· ≠ slash)).reverse
    some (path.take (path.length - rest.length), rest)
  else none

/-- The path `p9_change_directory` goes to from `cwd`; `none` when it stays. Without a slash in
`cwd` the loop would run to -1. -/
def newPath (cwd path : List UInt8) : Except Halt (Option (List UInt8)) :=
  if path = [dot] then .ok none
  else if path = [dot, dot] then
    if cwd = [slash] then .ok none
    else match cutLastSlash cwd with
      | none => .error .diverged
      | some (dir, _) => .ok (some (if dir.length = 1 then [slash] else dir.dropLast))
  else if path.head? = some slash then .ok (some path)
  else if cwd = [slash] then .ok (some (slash :: path))
  else .ok (some (cwd ++ slash :: path))

/-! ## The client -/

/-- The statics of `9p.c` with `p9_cwd`. -/
structure P9Files (σ : Type) extends P9 σ where
  /-- `p9_cwd` -/
  cwd : List UInt8

/-- How far walking to a path and opening it came. -/
inductive Visit : Type where
  | notWalked | notOpened | opened
  deriving DecidableEq

namespace P9

variable {σ : Type} [P9Link σ]

/-- `p9_walk(root, fid, path)` and then `p9_open(fid, 0)`. -/
def visit (s : P9 σ) (root fid : ℕ) (path : List UInt8) : Except Halt (P9 σ × Visit) :=
  match s.p9Walk root fid (some path) with
  | .error e => .error e
  | .ok (s, walked) =>
    if walked ≠ 0 then .ok (s, .notWalked)
    else match s.p9Open fid 0 with
      | .error e => .error e
      | .ok (s, opened) => .ok (s, if opened ≠ 0 then .notOpened else .opened)

end P9

namespace P9Files

variable {σ : Type} [P9Link σ]

/-- `p9_init` from the version handshake on, once the device is set up. -/
def p9Init (s : P9Files σ) : Except Halt (P9Files σ × ℤ) :=
  match s.p9Version with
  | .error e => .error e
  | .ok (c, version) =>
    if version ≠ 0 then .ok ({ s with toP9 := c }, -1)
    else match c.p9Attach [114, 111, 111, 116] [] with
      | .error e => .error e
      | .ok (c, attached) =>
        if attached < 0 then .ok ({ s with toP9 := c }, -1)
        else .ok ({ s with toP9 := { c with initialized := true } }, 0)

/-- `next_fid++` -/
def takeFid (s : P9Files σ) : P9Files σ × ℕ :=
  ({ s with nextFid := u32 (s.nextFid + 1) }, s.nextFid)

/-- `p9_clunk(fid)` and then return. -/
def close {α : Type} (s : P9Files σ) (fid : ℕ) (result : α) : Except Halt (P9Files σ × α) :=
  match s.p9Clunk fid with
  | .error e => .error e
  | .ok c => .ok ({ s with toP9 := c }, result)

/-- `p9_change_directory` -/
def p9ChangeDirectory (s : P9Files σ) (path : List UInt8) : Except Halt (P9Files σ × ℤ) :=
  if s.initialized = false then .ok (s, -1)
  else match newPath s.cwd path with
    | .error e => .error e
    | .ok none => .ok (s, 0)
    | .ok (some newPath) =>
      let (s, testFid) := s.takeFid
      match s.visit 0 testFid (walkPath newPath) with
      | .error e => .error e
      | .ok (c, .notWalked) => .ok ({ s with toP9 := c }, -1)
      | .ok (c, .notOpened) => { s with toP9 := c }.close testFid (-1)
      | .ok (c, .opened) =>
        match ({ s with toP9 := c } : P9Files σ).close testFid () with
        | .error e => .error e
        | .ok (s, _) => .ok ({ s with cwd := newPath }, 0)

/-- `p9_list_directory`, with the names printed. -/
def p9ListDirectory (s : P9Files σ) (path : Option (List UInt8)) :
    Except Halt (P9Files σ × ℤ × List (List UInt8)) :=
  if s.initialized = false then .ok (s, -1, [])
  else
    let target := path.getD s.cwd
    let (s, fid) := s.takeFid
    match s.visit 0 fid (walkPath target) with
    | .error e => .error e
    | .ok (c, .notWalked) => .ok ({ s with toP9 := c }, -1, [])
    | .ok (c, .notOpened) => { s with toP9 := c }.close fid (-1, [])
    | .ok (c, .opened) =>
      match c.p9Readdir fid 0 4096 with
      | .error e => .error e
      | .ok (c, count, buf) =>
        if count < 0 then { s with toP9 := c }.close fid (-1, [])
        else { s with toP9 := c }.close fid (0, listEntries buf count.toNat (count.toNat + 1) 0)

/-- `complete_path` at `ticks` timer ticks: the line and its length afterwards. -/
def completePath (s : P9Files σ) (ticks : ℕ) (buffer : List UInt8) (currentLen pathStart : ℕ) :
    Except Halt (P9Files σ × List UInt8 × ℕ) :=
  let pathToComplete := buffer.drop pathStart
  let (dirPath, typed) := (cutLastSlash pathToComplete).getD ([dot], pathToComplete)
  let fid := 1000 + u32 ticks % 1000
  let target := if dirPath = [dot] then s.cwd else dirPath
  match s.visit 0 fid (walkPath target) with
  | .error e => .error e
  | .ok (c, .notWalked) => .ok ({ s with toP9 := c }, buffer, currentLen)
  | .ok (c, .notOpened) => .ok ({ s with toP9 := c }, buffer, currentLen)
  | .ok (c, .opened) =>
    match c.p9Readdir fid 0 4096 with
    | .error e => .error e
    | .ok (c, count, buf) =>
      let found := matchEntries buf count.toNat typed (count.toNat + 1) 0 []
      let line := buffer.take pathStart ++
        ((cutLastSlash pathToComplete).elim [] Prod.fst) ++ found.headD []
      { s with toP9 := c }.close fid
        (if found.length = 1 then (line, line.length) else (buffer, currentLen))

end P9Files

end PenOS
