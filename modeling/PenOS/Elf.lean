import PenOS.HeapSafe
import PenOS.P9
import PenOS.Sched

/-!
# ELF images (`src/fs/elf.c` and `sched_spawn_elf`)

The loader reads a file into a buffer on the kernel heap, maps blocks of the heap as the pages of
each `PT_LOAD` segment and copies the segment there, through the page tables (`loadByte`,
`storeByte`). The heap window is one memory, the same in all directories. The file is an input
(`FileAnswer`): `p9_read_file` gives one of these answers.
-/

namespace PenOS

variable {D : Type}
variable {fid : ℕ} {h h' : Heap D} {r : Option (ℕ × ℕ)}

/-! ## Access to memory by address -/

/-- Where a virtual address leads and whether it can be written, as the processor finds with
`CR0.WP` set. -/
def Paging.translate (s : Paging D) (virt : ℕ) : Option (ℕ × Bool) :=
  match s.findPageTable virt with
  | none => none
  | some table =>
    let e := s.entry table (ptIndex virt)
    if !hasFlag e pagePresent then none
    else
      let pde := s.entry s.currentPd (pdIndex virt)
      some (frameOf e ||| (virt &&& 0xFFF), hasFlag e pageRw && hasFlag pde pageRw)

namespace Heap

/-- The addresses of the heap window that show the byte at a physical address. -/
def windowAliases (h : Heap D) (phys : ℕ) : List ℕ :=
  ((List.range ((h.heapMappedEnd - heapStart) / 4096)).map fun k =>
    heapStart + k * 4096 + phys % 4096).filter fun v =>
      (h.paging.translate v).map Prod.fst = some phys

/-- Write a byte of physical memory. -/
def putByte (h : Heap D) (phys : ℕ) (b : UInt8) : Heap D :=
  { h with
    paging := { h.paging with mem := h.paging.mem.paste phys 1 fun _ => b }
    window := (h.windowAliases phys).foldl (fun m v => m.paste v 1 fun _ => b) h.window }

/-- Read a byte of physical memory. -/
def getByte (h : Heap D) (phys : ℕ) : UInt8 :=
  match h.windowAliases phys with
  | [] => h.paging.mem phys
  | v :: _ => h.window.bytes v

variable [Disk D]

/-- The kernel reads the byte at `virt`. A fault in kernel mode returns if the page was swapped
out. -/
def loadByte (h : Heap D) (virt : ℕ) : Except Halt (Heap D × UInt8) :=
  if heapStart ≤ virt ∧ virt < h.heapMappedEnd then .ok (h, h.window.bytes virt)
  else match h.paging.translate virt with
    | some (phys, _) => .ok (h, h.getByte phys)
    | none =>
      match h.paging.pageFaultHandler virt 0 with
      | .error e => .error e
      | .ok paging =>
        let h := { h with paging := paging }
        match h.paging.translate virt with
        | none => .error .pageFault
        | some (phys, _) => .ok (h, h.getByte phys)

/-- The kernel writes the byte at `virt`; the error code of the fault has the write bit. -/
def storeByte (h : Heap D) (virt : ℕ) (b : UInt8) : Except Halt (Heap D) :=
  if heapStart ≤ virt ∧ virt < h.heapMappedEnd then
    .ok { h with window := h.window.paste virt 1 fun _ => b }
  else match h.paging.translate virt with
    | some (phys, true) => .ok (h.putByte phys b)
    | some (_, false) => .error .pageFault
    | none =>
      match h.paging.pageFaultHandler virt 2 with
      | .error e => .error e
      | .ok paging =>
        let h := { h with paging := paging }
        match h.paging.translate virt with
        | some (phys, true) => .ok (h.putByte phys b)
        | _ => .error .pageFault

/-- Read `n` bytes from `virt` on as a number, least significant byte first. -/
def loadBytes (h : Heap D) : ℕ → ℕ → Except Halt (Heap D × ℕ)
  | 0, _ => .ok (h, 0)
  | n + 1, virt =>
    match h.loadByte (u32 virt) with
    | .error e => .error e
    | .ok (h, b) =>
      match h.loadBytes n (virt + 1) with
      | .error e => .error e
      | .ok (h, rest) => .ok (h, b.toNat + 256 * rest)

/-- `memcpy`, from byte `k` on with `n` bytes left. -/
def memcpy (dst src : ℕ) : ℕ → ℕ → Heap D → Except Halt (Heap D)
  | 0, _, h => .ok h
  | n + 1, k, h =>
    match h.loadByte (u32 (src + k)) with
    | .error e => .error e
    | .ok (h, b) =>
      match h.storeByte (u32 (dst + k)) b with
      | .error e => .error e
      | .ok h => memcpy dst src n (k + 1) h

/-- `memset` to zero, from byte `k` on with `n` bytes left. -/
def memsetZero (dst : ℕ) : ℕ → ℕ → Heap D → Except Halt (Heap D)
  | 0, _, h => .ok h
  | n + 1, k, h =>
    match h.storeByte (u32 (dst + k)) 0 with
    | .error e => .error e
    | .ok h => memsetZero dst n (k + 1) h

end Heap

/-! ## Files -/

/-- What the file server gives: a size, and the bytes that could be read, in the pieces in which
they came. -/
structure FileAnswer where
  size : ℕ
  chunks : List (List UInt8)
  size_pos : 0 < size
  size_le : size ≤ 10 * 1024 * 1024
  fits : chunks.flatten.length ≤ size

/-- The bytes of the file. -/
def FileAnswer.bytes (file : FileAnswer) : List UInt8 := file.chunks.flatten

/-- Write pieces one after the other. -/
def pasteChunks (m : RecMem) : ℕ → List (List UInt8) → RecMem
  | _, [] => m
  | a, c :: cs => pasteChunks (m.paste a c.length fun k => c.getD k 0) (a + c.length) cs

variable [Disk D]

/-- `p9_read_file` on an answer; `none` stands for all failures before a buffer is
allocated. -/
def readFile (h : Heap D) (file : Option FileAnswer) :
    Except Halt (Heap D × Option (ℕ × ℕ)) :=
  match file with
  | none => .ok (h, none)
  | some file =>
    match h.kmalloc file.size with
    | .error e => .error e
    | .ok (h, data) =>
      if data = 0 then .ok (h, none)
      else
        let h := { h with window := pasteChunks h.window data file.chunks }
        if file.bytes.length ≠ file.size then
          match h.kfree data with
          | .error e => .error e
          | .ok h => .ok (h, none)
        else .ok (h, some (data, file.size))

section Files

variable {σ : Type} [P9Link σ] {s s' : P9 σ}

section

omit [Disk D]

theorem P9.p9Read_length {offset count : ℕ} {r : ℤ} {bytes : List UInt8}
    (hcount : count < 2147483648) (h : s.p9Read fid offset count = .ok (s', r, bytes)) :
    (r = -1 ∧ bytes = []) ∨ (r = bytes.length ∧ bytes.length ≤ count) := by
  rw [p9Read, transfer] at h
  split at h
  · cases h
  · next s1 answered _ =>
    split_ifs at h
    · obtain ⟨rfl, hout⟩ := ok_pair h
      cases hout
      have hle : min (s1.rx.load32 7) count ≤ count := Nat.min_le_right _ _
      rw [List.length_map, List.length_range]
      exact .inr ⟨if_pos (by omega), hle⟩
    · obtain ⟨-, hout⟩ := ok_pair h
      cases hout
      exact .inl ⟨rfl, rfl⟩

theorem P9.readLoop_chunks {data fileSize fuel n n' : ℕ} {m m' : RecMem} (hn : n ≤ fileSize)
    (h : s.readLoop fid data fileSize fuel m n = .ok (s', m', n')) :
    ∃ chunks, m' = pasteChunks m (data + n) chunks ∧ n' = n + chunks.flatten.length ∧
      n' ≤ fileSize := by
  induction fuel generalizing s m n with
  | zero => cases h
  | succ fuel ih =>
    rw [P9.readLoop] at h
    by_cases hlt : n < fileSize
    · rw [if_pos hlt] at h
      generalize hto : (if fileSize - n > 4096 then 4096 else fileSize - n) = toRead at h
      have hread : toRead ≤ fileSize - n ∧ toRead ≤ 4096 := by
        rw [← hto]
        split_ifs <;> omega
      rcases hr : s.p9Read fid n toRead with e | ⟨s1, r, bytes⟩
      · simp only [hr] at h
        cases h
      simp only [hr] at h
      split_ifs at h with hend
      · -- nothing more came: an empty piece
        obtain ⟨-, hout⟩ := ok_pair h
        cases hout
        have hempty : bytes = [] := by
          rcases p9Read_length (by omega) hr with ⟨-, hb⟩ | ⟨rfl, -⟩
          · exact hb
          · exact List.eq_nil_of_length_eq_zero (by omega)
        subst hempty
        exact ⟨[[]], rfl, rfl, hn⟩
      · obtain ⟨hlen, hle⟩ : r = bytes.length ∧ bytes.length ≤ toRead := by
          rcases p9Read_length (by omega) hr with ⟨rfl, -⟩ | hb
          · omega
          · exact hb
        rw [hlen, Int.toNat_natCast] at h
        obtain ⟨chunks, hm, hcount, hfits⟩ := ih (by omega) h
        refine ⟨bytes :: chunks, ?_, ?_, hfits⟩
        · rw [hm, pasteChunks, Nat.add_assoc]
        · rw [List.flatten_cons, List.length_append]
          omega
    · rw [if_neg hlt] at h
      obtain ⟨-, hout⟩ := ok_pair h
      cases hout
      exact ⟨[], rfl, rfl, hn⟩

theorem P9.giveUp_heap (hrun : s.giveUp fid h = .ok (s', h', r)) : h' = h ∧ r = none := by
  rw [giveUp] at hrun
  split at hrun
  · cases hrun
  · obtain ⟨-, hout⟩ := ok_pair hrun
    cases hout
    exact ⟨rfl, rfl⟩

end

/-- **`p9_read_file` gives one of the answers**: it does to the heap what `readFile` does on some
file. -/
theorem p9ReadFile_readFile {path : List UInt8}
    (hrun : s.p9ReadFile h path = .ok (s', h', r)) : ∃ file, readFile h file = .ok (h', r) := by
  have hgive : ∀ {t : P9 σ} {fid : ℕ}, t.giveUp fid h = .ok (s', h', r) →
      ∃ file, readFile h file = .ok (h', r) := by
    intro t fid ht
    obtain ⟨rfl, rfl⟩ := P9.giveUp_heap ht
    exact ⟨none, rfl⟩
  have hnone : ∀ {t : P9 σ}, (.ok (t, h, none) : Except Halt (P9 σ × Heap D × _)) =
      .ok (s', h', r) → ∃ file, readFile h file = .ok (h', r) := by
    intro t ht
    obtain ⟨-, hout⟩ := ok_pair ht
    cases hout
    exact ⟨none, rfl⟩
  simp only [P9.p9ReadFile] at hrun
  split_ifs at hrun with hinit
  · exact hnone hrun
  split at hrun
  · cases hrun
  split_ifs at hrun with hwalk
  · exact hnone hrun
  split at hrun
  · cases hrun
  split_ifs at hrun with hopen
  · exact hgive hrun
  split at hrun
  · cases hrun
  · exact hgive hrun
  next s3 fileSize _ =>
  split_ifs at hrun with hsize
  · exact hgive hrun
  -- from here on there is a size, and a buffer if the heap has room for it
  obtain ⟨hpos, hle⟩ : 0 < fileSize ∧ fileSize ≤ 10 * 1024 * 1024 := by omega
  rcases hk : h.kmalloc fileSize with e | ⟨h1, data⟩
  · simp only [hk] at hrun
    cases hrun
  simp only [hk] at hrun
  split_ifs at hrun with hdata
  · obtain ⟨rfl, rfl⟩ := P9.giveUp_heap hrun
    refine ⟨some ⟨fileSize, [], hpos, hle, Nat.zero_le _⟩, ?_⟩
    simp only [readFile, hk, hdata, if_true]
  split at hrun
  · cases hrun
  next s4 window bytesRead hloop =>
  obtain ⟨chunks, rfl, hcount, hfits⟩ := P9.readLoop_chunks (Nat.zero_le _) hloop
  rw [Nat.zero_add] at hcount
  subst hcount
  refine ⟨some ⟨fileSize, chunks, hpos, hle, hfits⟩, ?_⟩
  simp only [readFile, hk, if_neg hdata]
  split at hrun
  · cases hrun
  split_ifs at hrun with hshort
  · refine (if_pos hshort).trans ?_
    split at hrun
    · cases hrun
    · next hfree =>
      obtain ⟨-, hout⟩ := ok_pair hrun
      cases hout
      rw [Nat.add_zero] at hfree
      rw [hfree]
  · obtain ⟨-, hout⟩ := ok_pair hrun
    cases hout
    exact if_neg hshort

/-- A server with one file. It grants every walk, tells the size of the file and sends at most two
bytes for a read. -/
structure OneFile where
  content : List UInt8

/-- The fields of the reply to a message. -/
def OneFile.answer (f : OneFile) (msg : List UInt8) : List UInt8 :=
  if msg.getD 4 0 = P9Type.tgetattr.code then
    List.replicate 49 0 ++ writeU64 f.content.length
  else if msg.getD 4 0 = P9Type.tread.code then
    let data := (f.content.drop (msg.getD 11 0).toNat).take 2
    writeU32 data.length ++ data
  else []

instance : P9Link OneFile where
  rpc f msg rx :=
    let body := f.answer msg
    let reply := writeU32 (7 + body.length) ++ (msg.getD 4 0 + 1) :: msg.getD 5 0 ::
      msg.getD 6 0 :: body
    .ok (f, rx.paste 0 reply.length fun k => reply.getD k 0, some reply.length)

/-- A file of three bytes comes in two pieces and is put into a buffer behind a live block. -/
theorem p9ReadFile_readFile_pieces :
    ∃ (s s' : P9 OneFile) (h h' : Heap DiskImage), s.link.content = [104, 105, 33] ∧
      HeapReach [(0xC1000010, 8)] h ∧
      s.p9ReadFile h [slash, 97] = .ok (s', h', some (0xC1000028, 3)) ∧
      (List.range 3).map (fun k => h'.window.bytes (0xC1000028 + k)) = [104, 105, 33] ∧
      ∃ file, readFile h file = .ok (h', some (0xC1000028, 3)) := by
  have hrun : (warmHeap.bind fun h => ((⟨⟨[104, 105, 33]⟩, 0, 2, true, fun _ => 0⟩ :
      P9 OneFile).p9ReadFile h [slash, 97]).toOption.map fun r => (r.2.2,
        (List.range 3).map fun k => r.2.1.window.bytes (0xC1000028 + k))) =
      some (some (0xC1000028, 3), [104, 105, 33]) := by
    decide +kernel
  obtain ⟨h, hh, hrun⟩ := Option.bind_eq_some_iff.mp hrun
  obtain ⟨⟨s', h', r⟩, hread, hvals⟩ := Option.map_eq_some_iff.mp hrun
  obtain ⟨rfl, hbytes⟩ := Prod.mk.inj hvals
  exact ⟨_, s', h, h', rfl, warmHeap_reach hh, ok_of_toOption hread, hbytes,
    p9ReadFile_readFile (ok_of_toOption hread)⟩

end Files

/-! ## The loader -/

omit [Disk D] in
/-- `elf_validate` of the bytes at `data`; `true` for the return value 0. -/
def elfValidate (data : ℕ → UInt8) (size : ℕ) : Bool :=
  size ≥ 52 &&
  -- the magic number, ELFCLASS32, ELFDATA2LSB
  data 0 == 0x7F && data 1 == 69 && data 2 == 76 && data 3 == 70 && data 4 == 1 && data 5 == 1 &&
  -- ET_EXEC, EM_386
  (data 16).toNat + 256 * (data 17).toNat == 2 && (data 18).toNat + 256 * (data 19).toNat == 3

/-- The flags of a segment's pages: writable if `PF_W` is set. -/
def segmentFlags (pFlags : ℕ) : ℕ :=
  if hasFlag pFlags 2 then pagePresent ||| pageRw ||| pageUser else pagePresent ||| pageUser

/-- The loop that maps the pages of a segment, from page `j` on with `n` left; `hdr` is the address
of the program header. -/
def mapSegment (hdr vaddr : ℕ) : ℕ → ℕ → Heap D → Except Halt (Heap D)
  | 0, _, h => .ok h
  | n + 1, j, h =>
    let pageVaddr := u32 ((vaddr &&& 0xFFFFF000) + u32 (j * 0x1000))
    match h.kmalloc 0x1000 with
    | .error e => .error e
    | .ok (h, pagePhys) =>
      match h.loadBytes 4 (hdr + 24) with
      | .error e => .error e
      | .ok (h, pFlags) =>
        match h.paging.pagingMap pageVaddr (h.paging.pagingVirtToPhys pagePhys)
            (segmentFlags pFlags) with
        | .error e => .error e
        | .ok paging => mapSegment hdr vaddr n (j + 1) { h with paging := paging }

/-- The copy of a segment's bytes and the zeroing of what follows them. -/
def fillSegment (h : Heap D) (fileData hdr vaddr memsz filesz : ℕ) : Except Halt (Heap D) :=
  let copied : Except Halt (Heap D) :=
    if filesz > 0 then
      match h.loadBytes 4 (hdr + 4) with
      | .error e => .error e
      | .ok (h, pOffset) => Heap.memcpy vaddr (fileData + pOffset) filesz 0 h
    else .ok h
  match copied with
  | .error e => .error e
  | .ok h =>
    if memsz > filesz then Heap.memsetZero (vaddr + filesz) (memsz - filesz) 0 h else .ok h

/-- One round of the loop over the program headers. -/
def loadSegment (h : Heap D) (fileData hdr : ℕ) : Except Halt (Heap D) :=
  match h.loadBytes 4 hdr with
  | .error e => .error e
  | .ok (h, pType) =>
    -- PT_LOAD
    if pType ≠ 1 then .ok h
    else match h.loadBytes 4 (hdr + 8) with
      | .error e => .error e
      | .ok (h, vaddr) =>
        match h.loadBytes 4 (hdr + 20) with
        | .error e => .error e
        | .ok (h, memsz) =>
          match h.loadBytes 4 (hdr + 16) with
          | .error e => .error e
          | .ok (h, filesz) =>
            match mapSegment hdr vaddr (u32 (memsz + 0xFFF) / 0x1000) 0 h with
            | .error e => .error e
            | .ok h => fillSegment h fileData hdr vaddr memsz filesz

/-- The loop over the program headers, from header `i` on. `e_phnum` is read anew in every
round; it has 16 bits. -/
def loadSegments (fileData phdr : ℕ) : ℕ → ℕ → Heap D → Except Halt (Heap D)
  | 0, _, _ => .error .diverged
  | fuel + 1, i, h =>
    match h.loadBytes 2 (fileData + 44) with
    | .error e => .error e
    | .ok (h, ePhnum) =>
      if i < ePhnum then
        match loadSegment h fileData (phdr + 32 * i) with
        | .error e => .error e
        | .ok h => loadSegments fileData phdr fuel (i + 1) h
      else .ok h

/-- `elf_load` after `elf_validate`: the return value and `*entry_point`, read again after the
buffer is freed. -/
def elfLoadImage (h : Heap D) (fileData : ℕ) : Except Halt (Heap D × ℕ × ℕ) :=
  match h.loadBytes 4 (fileData + 28) with
  | .error e => .error e
  | .ok (h, ePhoff) =>
    match loadSegments fileData (fileData + ePhoff) 65536 0 h with
    | .error e => .error e
    | .ok h =>
      match h.loadBytes 4 (fileData + 24) with
      | .error e => .error e
      | .ok (h, entryPoint) =>
        match h.kfree fileData with
        | .error e => .error e
        | .ok h =>
          match h.loadBytes 4 (fileData + 24) with
          | .error e => .error e
          | .ok (h, result) => .ok (h, result, entryPoint)

/-- `elf_load`: the return value and `*entry_point`, left alone (0) if the file is not loaded. -/
def elfLoad (h : Heap D) (file : Option FileAnswer) : Except Halt (Heap D × ℕ × ℕ) :=
  match readFile h file with
  | .error e => .error e
  | .ok (h, none) => .ok (h, 0, 0)
  | .ok (h, some (fileData, fileSize)) =>
    if elfValidate (fun k => h.window.bytes (fileData + k)) fileSize then elfLoadImage h fileData
    else match h.kfree fileData with
      | .error e => .error e
      | .ok h => .ok (h, 0, 0)

/-! ## Tasks from files -/

namespace Sched

/-- The loop for the user stack: `n` pages from `0xBFFFF000` downwards, the first of them
number `i`. -/
def mapUserStack : ℕ → ℕ → Paging D → Except Halt (Paging D)
  | 0, _, s => .ok s
  | n + 1, i, s =>
    let out := pmmAllocFrame s.pmm
    match { s with pmm := out.1 }.pagingMap (0xBFFFF000 - i * 0x1000) out.2
        (pagePresent ||| pageRw ||| pageUser) with
    | .error e => .error e
    | .ok s => mapUserStack n (i + 1) s

/-- `sched_spawn_elf` after `elf_load` has succeeded in the new directory. -/
def startElf (s : Sched D) (slot : Slot) (oldPd newPd kstack entryPoint : ℕ) (path : String) :
    Except Halt (Sched D × ℤ) :=
  match mapUserStack 4 0 s.heap.paging with
  | .error e => .error e
  | .ok paging =>
    let s := s.withPaging (paging.pagingSwitchDirectory oldPd)
    let frame := initialFrame kstack
    let window := writeFrame s.heap.window frame
      { segments := 0x23, ebp := 0, esp := 0, eip := entryPoint, cs := 0x1B,
        userEsp := 0xBFFFFFF0, ss := 0x23 }
    .ok ({ s with heap := { s.heap with window := window } }.installTask slot
      { Task.zero with
        name := (path.take 31).toString
        frame := frame
        entry := entryPoint
        stack := kstack
        kernelStack := stackTop kstack
        pageDirectoryPhys := newPd }, int32 s.nextTaskId)

/-- `sched_spawn_elf`; `file` is what the server has under `path`. -/
def schedSpawnElf (s : Sched D) (path : String) (file : Option FileAnswer) :
    Except Halt (Sched D × ℤ) :=
  match s.findFreeSlot with
  | none => .ok (s, -1)
  | some slot =>
    match s.heap.paging.pagingCreateDirectory with
    | .error e => .error e
    | .ok (paging, newPd) =>
      let s := s.withPaging paging
      if newPd = 0 then .ok (s, -1)
      else
        match s.heap.kmalloc stackSize with
        | .error e => .error e
        | .ok (heap, kstack) =>
          let s := { s with heap := heap }
          if kstack = 0 then
            .ok (s.withPaging (s.heap.paging.pagingDestroyDirectory newPd), -1)
          else
            let oldPd := s.heap.paging.pagingGetKernelDirectory
            let s := s.withPaging (s.heap.paging.pagingSwitchDirectory newPd)
            match elfLoad s.heap file with
            | .error e => .error e
            | .ok (heap, result, entryPoint) =>
              let s := { s with heap := heap }
              if result = 0 then
                let s := s.withPaging (s.heap.paging.pagingSwitchDirectory oldPd)
                match s.heap.kfree kstack with
                | .error e => .error e
                | .ok heap =>
                  let s := { s with heap := heap }
                  .ok (s.withPaging (s.heap.paging.pagingDestroyDirectory newPd), -1)
              else s.startElf slot oldPd newPd kstack entryPoint path

end Sched

end PenOS
