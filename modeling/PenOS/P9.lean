import PenOS.Heap

/-!
# The 9P client (`src/fs/9p.c`)

Every operation builds a request in `tx_buffer`, hands it to `p9_rpc` and looks at `rx_buffer`; it
is written over any *link* that carries a request there and a reply back (`P9Link`), such as
`P9Queue`. A message is the list of bytes written to `tx_buffer`, strings are without the final NUL,
and a path is taken to fit in the local arrays.
-/

namespace PenOS

/-- `P9_MAX_MSG_SIZE` -/
abbrev p9MaxMsgSize : ℕ := 8192
/-- `P9_NOTAG` -/
abbrev p9Notag : ℕ := 65535
/-- `P9_NOFID` -/
abbrev p9Nofid : ℕ := 4294967295

/-- The message types `P9_T...` and `P9_R...` that the client uses. -/
inductive P9Type : Type where
  | tlopen | rlopen | tgetattr | treaddir | rreaddir | tversion | rversion | tattach | rattach
  | twalk | rwalk | tread | rread | tclunk
  deriving DecidableEq

/-- The byte of a message type. -/
def P9Type.code : P9Type → UInt8
  | .tlopen => 12
  | .rlopen => 13
  | .tgetattr => 24
  | .treaddir => 40
  | .rreaddir => 41
  | .tversion => 100
  | .rversion => 101
  | .tattach => 104
  | .rattach => 105
  | .twalk => 110
  | .rwalk => 111
  | .tread => 116
  | .rread => 117
  | .tclunk => 120

/-! ## Encoding -/

/-- `write_u16` -/
def writeU16 (val : ℕ) : List UInt8 := [Mem.byteOf val 0, Mem.byteOf val 1]

/-- `write_u32` -/
def writeU32 (val : ℕ) : List UInt8 :=
  [Mem.byteOf val 0, Mem.byteOf val 1, Mem.byteOf val 2, Mem.byteOf val 3]

/-- `write_u64` -/
def writeU64 (val : ℕ) : List UInt8 := writeU32 (u32 val) ++ writeU32 (u32 (val / 4294967296))

/-- `read_u64` -/
def readU64 (buf : Mem) (a : ℕ) : ℕ := buf.load32 a + 4294967296 * buf.load32 (a + 4)

/-- `write_string`: the length is cut to 16 bits. -/
def writeString (str : List UInt8) : List UInt8 :=
  let len := u16 str.length
  writeU16 len ++ str.take len

/-- A message: `size[4] type[1] tag[2]`, then the fields of its type. The size is written last. -/
def p9Message (type : P9Type) (tag : ℕ) (body : List UInt8) : List UInt8 :=
  writeU32 (u32 (7 + body.length)) ++ type.code :: writeU16 tag ++ body

/-- The tag bytes of the message in a buffer. -/
def tagIn (buf : Mem) : UInt8 × UInt8 := (buf 5, buf 6)

/-- The tag bytes of a message. -/
def tagOf (msg : List UInt8) : UInt8 × UInt8 := (msg.getD 5 0, msg.getD 6 0)

/-- `'/'` -/
abbrev slash : UInt8 := 47

/-- The loop of `p9_walk` that cuts a path into components. It has at most one round for
each byte. -/
def splitComponents : ℕ → List UInt8 → List (List UInt8)
  | 0, _ => []
  | fuel + 1, token =>
    let token := token.dropWhile (· = slash)
    if token = [] then []
    else
      token.takeWhile (· ≠ slash) ::
        splitComponents fuel ((token.dropWhile (· ≠ slash)).drop 1)

/-- The `nwname` field and the components. -/
def walkNames (path : List UInt8) : List UInt8 :=
  let components := splitComponents path.length path
  writeU16 (u16 components.length) ++ components.flatMap writeString

/-! ## The client -/

/-- What carries requests and replies. `rpc` gets the message and `rx_buffer`; it returns
`rx_buffer` afterwards, and the length received if `p9_rpc` returns 0. -/
class P9Link (σ : Type) where
  rpc : σ → List UInt8 → Mem → Except Halt (σ × Mem × Option ℕ)

/-- The statics of `9p.c` over a link. -/
structure P9 (σ : Type) where
  link : σ
  /-- `p9_tag` -/
  tag : ℕ
  /-- `next_fid` -/
  nextFid : ℕ
  /-- `p9_initialized` -/
  initialized : Bool
  /-- `rx_buffer` -/
  rx : Mem

namespace P9

variable {σ : Type} [P9Link σ]

/-- Send a message; the result says whether `p9_rpc` returned 0. -/
def rpc (s : P9 σ) (msg : List UInt8) : Except Halt (P9 σ × Bool) :=
  match P9Link.rpc s.link msg s.rx with
  | .error e => .error e
  | .ok (link, rx, len) => .ok ({ s with link := link, rx := rx }, len.isSome)

/-- Send a request under the tag `p9_tag++`. -/
def request (s : P9 σ) (type : P9Type) (body : List UInt8) : Except Halt (P9 σ × Bool) :=
  rpc { s with tag := u16 (s.tag + 1) } (p9Message type s.tag body)

/-- `rx_buffer[4]`, the type of the reply. -/
def replyType (s : P9 σ) : UInt8 := s.rx 4

/-- The result of an operation that only looks at the type of the reply. -/
def typeCheck (expected : P9Type) :
    Except Halt (P9 σ × Bool) → Except Halt (P9 σ × ℤ)
  | .error e => .error e
  | .ok (s, answered) =>
    .ok (s, if answered = true ∧ s.replyType = expected.code then 0 else -1)

/-- `p9_version`; the version is "9P2000.L". -/
def p9Version (s : P9 σ) : Except Halt (P9 σ × ℤ) :=
  typeCheck .rversion (s.rpc (p9Message .tversion p9Notag
    (writeU32 p9MaxMsgSize ++ writeString [57, 80, 50, 48, 48, 48, 46, 76])))

/-- `p9_attach`; the root fid, which is also returned, is 0. -/
def p9Attach (s : P9 σ) (uname aname : List UInt8) : Except Halt (P9 σ × ℤ) :=
  typeCheck .rattach (s.request .tattach
    (writeU32 0 ++ writeU32 p9Nofid ++ writeString uname ++ writeString aname ++ writeU32 0))

/-- `p9_walk` -/
def p9Walk (s : P9 σ) (fid newfid : ℕ) (path : Option (List UInt8)) :
    Except Halt (P9 σ × ℤ) :=
  let names := match path with
    | none => writeU16 0
    | some [] => writeU16 0
    | some path => walkNames path
  typeCheck .rwalk (s.request .twalk (writeU32 fid ++ writeU32 newfid ++ names))

/-- `p9_open` -/
def p9Open (s : P9 σ) (fid flags : ℕ) : Except Halt (P9 σ × ℤ) :=
  typeCheck .rlopen (s.request .tlopen (writeU32 fid ++ writeU32 flags))

/-- Read at most `count` bytes at `offset`: what `p9_read` and `p9_readdir` return and the
bytes they copy to `data`. -/
def transfer (s : P9 σ) (type expected : P9Type) (fid offset count : ℕ) :
    Except Halt (P9 σ × ℤ × List UInt8) :=
  match s.request type (writeU32 fid ++ writeU64 offset ++ writeU32 count) with
  | .error e => .error e
  | .ok (s, answered) =>
    if answered = true ∧ s.replyType = expected.code then
      let countRx := min (s.rx.load32 7) count
      .ok (s, int32 countRx, (List.range countRx).map fun k => s.rx (11 + k))
    else .ok (s, -1, [])

/-- `p9_read` -/
def p9Read (s : P9 σ) (fid offset count : ℕ) : Except Halt (P9 σ × ℤ × List UInt8) :=
  s.transfer .tread .rread fid offset count

/-- `p9_readdir` -/
def p9Readdir (s : P9 σ) (fid offset count : ℕ) : Except Halt (P9 σ × ℤ × List UInt8) :=
  s.transfer .treaddir .rreaddir fid offset count

/-- `p9_clunk`: nobody looks at the reply. -/
def p9Clunk (s : P9 σ) (fid : ℕ) : Except Halt (P9 σ) :=
  match s.request .tclunk (writeU32 fid) with
  | .error e => .error e
  | .ok (s, _) => .ok s

/-- `p9_get_file_size`: the size, unless `p9_rpc` failed. The type of the reply is not
looked at. -/
def p9GetFileSize (s : P9 σ) (fid : ℕ) : Except Halt (P9 σ × Option ℕ) :=
  match s.request .tgetattr (writeU32 fid ++ writeU64 4095) with
  | .error e => .error e
  | .ok (s, answered) => .ok (s, if answered then some (readU64 s.rx 56) else none)

/-! ## Whole files -/

/-- `p9_clunk(file_fid); return -1;` -/
def giveUp {D : Type} (s : P9 σ) (fid : ℕ) (h : Heap D) :
    Except Halt (P9 σ × Heap D × Option (ℕ × ℕ)) :=
  match s.p9Clunk fid with
  | .error e => .error e
  | .ok s => .ok (s, h, none)

/-- The loop of `p9_read_file`. Every round but the last reads at least one byte. -/
def readLoop (fid data fileSize : ℕ) :
    ℕ → P9 σ → RecMem → ℕ → Except Halt (P9 σ × RecMem × ℕ)
  | 0, _, _, _ => .error .diverged
  | fuel + 1, s, window, bytesRead =>
    if bytesRead < fileSize then
      let toRead := if fileSize - bytesRead > 4096 then 4096 else fileSize - bytesRead
      match s.p9Read fid bytesRead toRead with
      | .error e => .error e
      | .ok (s, result, bytes) =>
        let window := window.paste (data + bytesRead) bytes.length fun k => bytes.getD k 0
        if result ≤ 0 then .ok (s, window, bytesRead)
        else readLoop fid data fileSize fuel s window (bytesRead + result.toNat)
    else .ok (s, window, bytesRead)

/-- `p9_read_file`: the buffer and its size, unless -1 is returned. -/
def p9ReadFile {D : Type} [Disk D] (s : P9 σ) (h : Heap D) (path : List UInt8) :
    Except Halt (P9 σ × Heap D × Option (ℕ × ℕ)) :=
  if s.initialized = false then .ok (s, h, none)
  else
    let fid := s.nextFid
    match ({ s with nextFid := u32 (fid + 1) } : P9 σ).p9Walk 1 fid (some path) with
    | .error e => .error e
    | .ok (s, walked) =>
      if walked ≠ 0 then .ok (s, h, none)
      else match s.p9Open fid 0 with
        | .error e => .error e
        | .ok (s, opened) =>
          if opened ≠ 0 then s.giveUp fid h
          else match s.p9GetFileSize fid with
            | .error e => .error e
            | .ok (s, none) => s.giveUp fid h
            | .ok (s, some fileSize) =>
              if fileSize = 0 ∨ fileSize > 10 * 1024 * 1024 then s.giveUp fid h
              else match h.kmalloc fileSize with
                | .error e => .error e
                | .ok (h, data) =>
                  if data = 0 then s.giveUp fid h
                  else match s.readLoop fid data fileSize (fileSize + 1) h.window 0 with
                    | .error e => .error e
                    | .ok (s, window, bytesRead) =>
                      let h := { h with window := window }
                      match s.p9Clunk fid with
                      | .error e => .error e
                      | .ok s =>
                        if bytesRead ≠ fileSize then
                          match h.kfree data with
                          | .error e => .error e
                          | .ok h => .ok (s, h, none)
                        else .ok (s, h, some (data, fileSize))

end P9

end PenOS
