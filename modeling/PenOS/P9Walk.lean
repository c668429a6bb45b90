import PenOS.Lib.Fields
import PenOS.P9Fids

/-!
# Walks (`p9_walk`)

`p9_walk` cuts a copy of the path into names in place and writes them behind the fids; A walk that
ends at a later name is answered with `Rwalk` too, and `p9_walk` looks at the type of the reply
only.
-/

namespace PenOS

variable {newfid : ℕ} {names : List (List UInt8)}

/-! ## The names of a path, cut in place -/

def isSlash (c : UInt8) : Bool := c = slash

/-- A byte of a name: no slash, and not the end of the path. -/
def inName (c : UInt8) : Bool := c ≠ 0 ∧ c ≠ slash

/-- The loop of `p9_walk` over its copy of the path, from `token` on: the copy afterwards and
the pointers `components`. -/
def nameLoop : ℕ → Mem → ℕ → Mem × List ℕ
  | 0, buf, _ => (buf, [])
  | fuel + 1, buf, token =>
    if buf token = 0 then (buf, [])
    else
      let token := buf.skipWhile isSlash 256 token
      if buf token = 0 then (buf, [])
      else
        let stop := buf.skipWhile inName 256 token
        let rest :=
          if buf stop = slash then nameLoop fuel (buf.paste stop 1 fun _ => 0) (stop + 1)
          else nameLoop fuel buf stop
        (rest.1, token :: rest.2)

/-- `write_string` of the string at `str`; its length is found by `strlen`. -/
def writeStringAt (buf : Mem) (str : ℕ) : List UInt8 :=
  let len := u16 (buf.skipWhile (fun c => c ≠ 0) 256 str - str)
  writeU16 len ++ (List.range len).map fun k => buf (str + k)

/-- The `nwname` field and the names, from a copy of the path made in `buf`. -/
def walkNamesAt (buf : Mem) (path : List UInt8) : List UInt8 :=
  let out := nameLoop 256 (buf.paste 0 (path.length + 1) fun k => path.getD k 0) 0
  writeU16 (u16 out.2.length) ++ out.2.flatMap (writeStringAt out.1)

/-- The message `p9_walk` sends; `buf` is what `path_copy` holds before. -/
def walkMessage (buf : Mem) (tag fid newfid : ℕ) (path : Option (List UInt8)) : List UInt8 :=
  let names := match path with
    | none => writeU16 0
    | some [] => writeU16 0
    | some path => walkNamesAt buf path
  p9Message .twalk tag (writeU32 fid ++ writeU32 newfid ++ names)

/-- The names of a path: what is between its slashes. -/
def pathNames (path : Option (List UInt8)) : List (List UInt8) :=
  fields isSlash (path.getD [])

section Names

variable {buf : Mem} {a fuel : ℕ} {l name : List UInt8}

/-- A pointer to a name in the buffer. -/
def NameAt (buf : Mem) (str : ℕ) (name : List UInt8) : Prop :=
  buf.IsStr str name ∧ name.length < 256

theorem NameAt.writeStringAt (h : NameAt buf a name) :
    PenOS.writeStringAt buf a = writeString name := by
  obtain ⟨hstr, hlt⟩ := h
  have hskip := hstr.skipWhile (p := fun c => c ≠ 0) (q := fun _ => true) (by decide)
    (fun c hc => by simpa using hc) hlt
  have hall : name.takeWhile (fun _ => true) = name := by simp
  have hlen : u16 name.length = name.length := u16_of_lt (by omega)
  rw [PenOS.writeStringAt, hskip, hall, Nat.add_sub_cancel_left, hlen, hstr.map_range, writeString,
    hlen, List.take_length]

theorem inName_eq {c : UInt8} (hc : c ≠ 0) : inName c = !isSlash c := by
  simp [inName, isSlash, hc]

/-- At the end of the path the loop is over. -/
theorem nameLoop_of_zero (fuel : ℕ) (h : buf a = 0) : nameLoop fuel buf a = (buf, []) := by
  cases fuel with
  | zero => rfl
  | succ fuel => rw [nameLoop, if_pos h]

/-- **The loop finds the names of the path**: the pointers lead to them in the buffer after the
loop. -/
theorem nameLoop_names (h : buf.IsStr a l) (hlen : l.length < 256) (hfuel : l.length < fuel) :
    (∀ x < a, (nameLoop fuel buf a).1 x = buf x) ∧
      List.Forall₂ (NameAt (nameLoop fuel buf a).1) (nameLoop fuel buf a).2 (fields isSlash l) := by
  induction fuel generalizing buf a l with
  | zero => omega
  | succ fuel ih =>
    rw [nameLoop]
    by_cases hend : buf a = 0
    · rw [if_pos hend, h.head_eq_zero.mp hend]
      exact ⟨fun _ _ => rfl, by simp⟩
    rw [if_neg hend]
    dsimp only
    -- the slashes in front of the name
    have hsplit := List.takeWhile_append_dropWhile (p := isSlash) (l := l)
    rw [h.skipWhile (by decide) (fun _ _ => rfl) hlen, ← fields_dropWhile]
    generalize l.takeWhile isSlash = slashes at hsplit ⊢
    rcases ht : l.dropWhile isSlash with _ | ⟨c, t⟩ <;> rw [ht] at hsplit <;>
      rw [← hsplit] at h hlen hfuel <;> have htoken := h.of_append
    · rw [if_pos (htoken.head_eq_zero.mpr rfl)]
      exact ⟨fun _ _ => rfl, by simp⟩
    rw [List.length_append] at hlen hfuel
    have hc := of_dropWhile_eq_cons ht
    rw [if_neg (htoken.head_eq_zero.not.mpr (by simp)), fields_eq_cons hc]
    have hbefore : a ≤ a + slashes.length := Nat.le_add_right _ _
    generalize a + slashes.length = token at htoken hbefore ⊢
    -- the name
    have hsplit := List.takeWhile_append_dropWhile (p := fun c => !isSlash c) (l := c :: t)
    rw [htoken.skipWhile (by decide) (fun _ => inName_eq) (by omega)]
    have hne : (c :: t).takeWhile (fun c => !isSlash c) ≠ [] := by simp [hc]
    generalize (c :: t).takeWhile (fun c => !isSlash c) = w at hsplit hne ⊢
    rcases hr : (c :: t).dropWhile (fun c => !isSlash c) with _ | ⟨b, r⟩ <;> rw [hr] at hsplit <;>
      rw [← hsplit] at htoken hlen hfuel <;> have hstop := htoken.of_append
    · -- the last name
      have hzero : buf (token + w.length) = 0 := hstop
      rw [if_neg (by rw [hzero]; decide), nameLoop_of_zero _ hzero]
      rw [List.append_nil] at htoken hlen
      exact ⟨fun _ _ => rfl, .cons ⟨htoken, by omega⟩ (by simp)⟩
    · have hb : isSlash b = true := by simpa using of_dropWhile_eq_cons hr
      have hslash : buf (token + w.length) = slash := hstop.1.trans (of_decide_eq_true hb)
      rw [if_pos hslash]
      rw [List.length_append, List.length_cons] at hlen hfuel
      obtain ⟨hkept, hnames⟩ := ih (hstop.2.2.congr fun x hx _ =>
        @Mem.paste_of_not_mem _ 1 x (fun _ => 0) buf (.inr hx)) (by omega) (by omega)
      have hbytes : ∀ x < token + w.length, _ = buf x := fun x hx =>
        (hkept x (by omega)).trans (Mem.paste_of_not_mem (.inl hx))
      refine ⟨fun x hx => hbytes x (by omega), .cons ⟨htoken.cut ?_ fun x _ => hbytes x, by omega⟩
        hnames⟩
      exact (hkept _ (by omega)).trans (Mem.paste_of_mem (le_refl _) (by omega))

theorem flatMap_writeStringAt {ptrs : List ℕ} (h : List.Forall₂ (NameAt buf) ptrs names) :
    ptrs.flatMap (writeStringAt buf) = names.flatMap writeString := by
  induction h with
  | nil => rfl
  | cons hname _ ih => rw [List.flatMap_cons, List.flatMap_cons, ih, hname.writeStringAt]

theorem walkNamesAt_eq (buf : Mem) (h0 : 0 ∉ l) (hlen : l.length ≤ 255) : walkNamesAt buf l =
      writeU16 (u16 (fields isSlash l).length) ++ (fields isSlash l).flatMap writeString := by
  have hcopy : (buf.paste 0 (l.length + 1) fun k => l.getD k 0).IsStr 0 l :=
    Mem.isStr_of_getD h0 fun k hk => by
      rw [Mem.paste_of_mem (Nat.zero_le _) (by omega), Nat.sub_zero, Nat.zero_add]
  obtain ⟨-, hnames⟩ := @nameLoop_names _ 0 256 l hcopy (by omega) (by omega)
  rw [walkNamesAt, hnames.length_eq, flatMap_writeStringAt hnames]

theorem splitComponents_eq (hfuel : l.length ≤ fuel) :
    splitComponents fuel l = fields isSlash l := by
  induction fuel generalizing l with
  | zero =>
    obtain rfl := List.eq_nil_of_length_eq_zero (Nat.le_zero.mp hfuel)
    simp [splitComponents]
  | succ fuel ih =>
    have hno : (fun c => decide (c ≠ slash)) = fun c => !isSlash c := by
      funext c
      simp [isSlash]
    have hyes : (fun c => decide (c = slash)) = isSlash := rfl
    rw [splitComponents, ← fields_dropWhile, hno, hyes]
    have hle := (List.dropWhile_sublist isSlash (l := l)).length_le
    rcases ht : l.dropWhile isSlash with _ | ⟨c, t⟩
    · simp
    rw [if_neg (by simp), fields_eq_cons (of_dropWhile_eq_cons ht), ih]
    · have hle' := (List.dropWhile_sublist (fun c => !isSlash c) (l := c :: t)).length_le
      rw [ht] at hle
      rw [List.length_drop]
      omega

end Names

/-! ## A server for walks -/

/-- What a server makes of a walk: it refuses if the first name fails; otherwise it sends a qid for
each name gone over. -/
inductive WalkAnswer (nwname : ℕ) : Type where
  | refused (body : List UInt8) : WalkAnswer nwname
  | walked (qids : List (Vector UInt8 13)) (hle : qids.length ≤ nwname)
      (hfirst : 0 < nwname → 0 < qids.length) : WalkAnswer nwname

namespace WalkAnswer

variable {nwname : ℕ}

/-- The type and the fields of the reply. -/
def reply : WalkAnswer nwname → UInt8 × List UInt8
  | refused body => (rlerror, body)
  | walked qids _ _ => (P9Type.rwalk.code, writeU16 qids.length ++ qids.flatMap Vector.toList)

/-- The walk has come to its end: the server binds the new fid. -/
def complete : WalkAnswer nwname → Bool
  | refused _ => false
  | walked qids _ _ => qids.length = nwname

/-- The walk has ended at one of the later names. -/
def stopped : WalkAnswer nwname → Bool
  | refused _ => false
  | walked qids _ _ => qids.length < nwname

end WalkAnswer

/-- The number of names in a walk, as the server reads it. -/
def nwnameIn (msg : List UInt8) : ℕ := (msg.getD 15 0).toNat + 256 * (msg.getD 16 0).toNat

/-- A server with its answers to all walks, and the fids bound by walks so far, the latest
first. -/
structure WalkServer where
  answer : (msg : List UInt8) → WalkAnswer (nwnameIn msg)
  bindings : List ℕ

instance : P9Link WalkServer where
  rpc srv msg rx :=
    let answer := srv.answer msg
    let reply := replyTo msg answer.reply.1 answer.reply.2
    .ok ({ srv with bindings :=
        if answer.complete then wordAt msg 11 :: srv.bindings else srv.bindings },
      rx.paste 0 reply.length fun k => reply.getD k 0, some reply.length)

/-- A server that goes over one name of every walk. -/
def oneName : WalkServer where
  answer msg :=
    if h : 0 < nwnameIn msg then .walked [Vector.replicate 13 0] h fun _ => Nat.one_pos
    else .walked [] (Nat.zero_le _) fun h' => absurd h' h
  bindings := []

/-- A server that goes over all names of every walk. -/
def allNames : WalkServer where
  answer msg := .walked (List.replicate (nwnameIn msg) (Vector.replicate 13 0))
    List.length_replicate.le fun h => by rwa [List.length_replicate]
  bindings := []

def oneNameClient : P9 WalkServer := ⟨oneName, 0, 1, true, fun _ => 0⟩

/-! ## The message as the server reads it -/

/-- A number of two bytes in front of a message. -/
def decodeU16 : List UInt8 → Option (ℕ × List UInt8)
  | b₀ :: b₁ :: l => some (b₀.toNat + 256 * b₁.toNat, l)
  | _ => none

/-- A number of four bytes in front of a message. -/
def decodeU32 (l : List UInt8) : Option (ℕ × List UInt8) := do
  let (lo, l) ← decodeU16 l
  let (hi, l) ← decodeU16 l
  return (lo + 65536 * hi, l)

/-- A string in front of a message: its length, then its bytes. -/
def decodeString (l : List UInt8) : Option (List UInt8 × List UInt8) := do
  let (len, l) ← decodeU16 l
  if len ≤ l.length then return (l.take len, l.drop len) else none

def decodeStrings : ℕ → List UInt8 → Option (List (List UInt8) × List UInt8)
  | 0, l => some ([], l)
  | n + 1, l => do
    let (str, l) ← decodeString l
    let (strs, l) ← decodeStrings n l
    return (str :: strs, l)

/-- `size[4] type[1] tag[2] fid[4] newfid[4] nwname[2]` and the names. -/
structure Twalk where
  size : ℕ
  type : UInt8
  tag : ℕ
  fid : ℕ
  newfid : ℕ
  names : List (List UInt8)

/-- A message read as a walk; no byte may be left over. -/
def decodeTwalk (msg : List UInt8) : Option Twalk := do
  let (size, l) ← decodeU32 msg
  let (type, l) ← l.head?.map fun type => (type, l.tail)
  let (tag, l) ← decodeU16 l
  let (fid, l) ← decodeU32 l
  let (newfid, l) ← decodeU32 l
  let (nwname, l) ← decodeU16 l
  let (names, l) ← decodeStrings nwname l
  if l = [] then return ⟨size, type, tag, fid, newfid, names⟩ else none

theorem decodeU16_write (v : ℕ) (l : List UInt8) :
    decodeU16 (writeU16 v ++ l) = some (u16 v, l) := by
  simp only [writeU16, List.cons_append, List.nil_append, decodeU16, Mem.byteOf, UInt8.toNat_ofNat',
    u16]
  congr 2
  omega

theorem decodeU32_write (v : ℕ) (l : List UInt8) :
    decodeU32 (writeU32 v ++ l) = some (u32 v, l) := by
  simp only [writeU32, List.cons_append, List.nil_append, decodeU32, decodeU16, Mem.byteOf,
    UInt8.toNat_ofNat', u32, Option.bind_eq_bind, Option.bind_some, Option.pure_def]
  congr 2
  omega

theorem decodeString_write {str : List UInt8} (hlen : str.length < 65536) (l : List UInt8) :
    decodeString (writeString str ++ l) = some (str, l) := by
  have hshort : u16 str.length = str.length := u16_of_lt hlen
  simp only [writeString, hshort, List.take_length, List.append_assoc, decodeString,
    decodeU16_write,
    Option.bind_eq_bind, Option.bind_some]
  simp

theorem decodeStrings_write {strs : List (List UInt8)} (hlen : ∀ str ∈ strs, str.length < 65536)
    (l : List UInt8) :
    decodeStrings strs.length (strs.flatMap writeString ++ l) = some (strs, l) := by
  induction strs with
  | nil => rfl
  | cons str strs ih =>
    obtain ⟨hstr, hstrs⟩ := List.forall_mem_cons.mp hlen
    simp only [List.length_cons, decodeStrings, List.flatMap_cons, List.append_assoc,
      decodeString_write hstr, ih hstrs, Option.bind_eq_bind, Option.bind_some, Option.pure_def]

/-- A walk over some names is read back. -/
theorem decodeTwalk_message {tag fid : ℕ}
    (hfid : fid < 4294967296) (hnew : newfid < 4294967296) (hcount : names.length < 65536)
    (hlen : ∀ name ∈ names, name.length < 65536) {msg : List UInt8}
    (hmsg : msg = p9Message .twalk tag (writeU32 fid ++ writeU32 newfid ++
      (writeU16 (u16 names.length) ++ names.flatMap writeString)))
    (hsize : msg.length < 4294967296) :
    decodeTwalk msg = some ⟨msg.length, P9Type.twalk.code, u16 tag, fid, newfid, names⟩ := by
  set body := writeU32 fid ++ writeU32 newfid ++
    (writeU16 (u16 names.length) ++ names.flatMap writeString) with hbody
  have hall : 7 + body.length = msg.length := by
    rw [hmsg]
    simp [p9Message, writeU32, writeU16]
    omega
  have hnames := decodeStrings_write hlen []
  rw [List.append_nil] at hnames
  refine (congrArg decodeTwalk hmsg).trans ?_
  rw [p9Message, hall, decodeTwalk, u32_of_lt hsize, hbody]
  simp only [List.append_assoc, List.cons_append, decodeU32_write, u32_of_lt hsize, u32_of_lt hfid,
    u32_of_lt hnew, decodeU16_write, u16_of_lt hcount, hnames, List.head?_cons, List.tail_cons,
    Option.map_some, Option.bind_eq_bind, Option.bind_some, if_true, Option.pure_def]

section Names

variable {path : Option (List UInt8)}

/-- The message of a walk over the names of a path. -/
def walkRequest (tag fid newfid : ℕ) (path : Option (List UInt8)) : List UInt8 :=
  p9Message .twalk tag (writeU32 fid ++ writeU32 newfid ++
    (writeU16 (u16 (pathNames path).length) ++ (pathNames path).flatMap writeString))

theorem walkMessage_eq (buf : Mem) (tag fid newfid : ℕ) (h0 : 0 ∉ path.getD [])
    (hlen : (path.getD []).length ≤ 255) :
    walkMessage buf tag fid newfid path = walkRequest tag fid newfid path := by
  rcases path with _ | _ | ⟨c, l⟩
  · simp [walkMessage, walkRequest, pathNames, u16]
  · simp [walkMessage, walkRequest, pathNames, u16]
  · have hnames := walkNamesAt_eq (l := c :: l) buf h0 hlen
    simp only [walkMessage, walkRequest, pathNames, hnames]
    rfl

theorem length_flatMap_writeString (hlen : ∀ name ∈ names, name.length < 65536) :
    (names.flatMap writeString).length = 2 * names.length + names.flatten.length := by
  induction names with
  | nil => rfl
  | cons name names ih =>
    obtain ⟨hname, hnames⟩ := List.forall_mem_cons.mp hlen
    have hstr : (writeString name).length = 2 + name.length := by
      rw [writeString, u16_of_lt hname, List.take_length, List.length_append]
      rfl
    rw [List.flatMap_cons, List.length_append, ih hnames, hstr, List.length_cons, List.flatten_cons,
      List.length_append]
    omega

variable {σ : Type} [P9Link σ]

theorem P9.p9Walk_eq (s : P9 σ) (fid newfid : ℕ) (path : Option (List UInt8)) :
    s.p9Walk fid newfid path = typeCheck .rwalk
      (P9.rpc { s with tag := u16 (s.tag + 1) } (walkRequest s.tag fid newfid path)) := by
  rcases path with _ | _ | ⟨c, l⟩
  · simp [p9Walk, request, walkRequest, pathNames, u16]
  · simp [p9Walk, request, walkRequest, pathNames, u16]
  · simp only [p9Walk, request, walkNames, splitComponents_eq (le_refl _)]
    rfl

/-- **A walk says what the path says.** A server that reads the message of `p9_walk` finds the two
fids and the names of the path, and the size in front is the number of bytes sent. -/
theorem twalk_encodes_names (s : P9 σ) (buf : Mem) (fid newfid : ℕ) (path : Option (List UInt8))
    (hfid : fid < 4294967296) (hnew : newfid < 4294967296) (h0 : 0 ∉ path.getD [])
    (hlen : (path.getD []).length ≤ 255) : s.p9Walk fid newfid path = P9.typeCheck .rwalk
        (P9.rpc { s with tag := u16 (s.tag + 1) } (walkMessage buf s.tag fid newfid path)) ∧
      decodeTwalk (walkMessage buf s.tag fid newfid path) =
        some ⟨(walkMessage buf s.tag fid newfid path).length, P9Type.twalk.code, u16 s.tag, fid,
          newfid, pathNames path⟩ := by
  have hmsg := walkMessage_eq buf s.tag fid newfid h0 hlen
  refine ⟨hmsg ▸ s.p9Walk_eq fid newfid path, ?_⟩
  have hcount := length_fields_le isSlash (path.getD [])
  have htotal := length_flatten_fields_le isSlash (path.getD [])
  have hshort : ∀ name ∈ pathNames path, name.length < 65536 := by
    intro name hname
    have hle := length_le_of_mem_fields hname
    omega
  rw [← pathNames] at hcount htotal
  refine decodeTwalk_message hfid hnew (by omega) hshort hmsg ?_
  rw [hmsg, walkRequest, p9Message]
  simp only [writeU32, writeU16, List.length_append, List.length_cons, List.length_nil,
    length_flatMap_writeString hshort]
  omega

/-- The path `/a//bc/` has the names `a` and `bc`. -/
theorem twalk_encodes_names_slashes :
    1 < 4294967296 ∧ 0 ∉ ([47, 97, 47, 47, 98, 99, 47] : List UInt8) ∧
    decodeTwalk (walkMessage (fun _ => 0) 0 0 1 (some [47, 97, 47, 47, 98, 99, 47])) =
      some ⟨24, 110, 0, 0, 1, [[97], [98, 99]]⟩ := by
  refine ⟨by decide, by decide, ?_⟩
  exact (twalk_encodes_names oneNameClient (fun _ => 0) 0 1 (some [47, 97, 47, 47, 98, 99, 47])
    (by decide) (by decide) (by decide) (by decide)).2

end Names

/-! ## How far a walk comes -/

theorem P9.p9Walk_answered (s : P9 WalkServer) (fid : ℕ)
    (hnew : newfid < 4294967296) (path : Option (List UInt8)) {answer : WalkAnswer _}
    (hans : s.link.answer (walkRequest s.tag fid newfid path) = answer) :
    ∃ s', s.p9Walk fid newfid path =
        .ok (s', if answer.reply.1 = P9Type.rwalk.code then 0 else -1) ∧ s'.link.bindings =
        if answer.complete then newfid :: s.link.bindings else s.link.bindings := by
  have hword : wordAt (walkRequest s.tag fid newfid path) 11 = newfid :=
    (Mem.load32_of_bytes rfl rfl rfl rfl).trans (u32_of_lt hnew)
  rw [P9.p9Walk_eq, P9.rpc]
  simp only [P9Link.rpc, hans, hword, typeCheck, Option.isSome_some, true_and]
  refine ⟨_, rfl, ?_⟩
  rfl

/-- **The end of a walk.** `p9_walk` returns 0 exactly when the new fid was bound, unless the walk
ends at a later name. -/
theorem walk_reaches_target_iff (s : P9 WalkServer) (fid newfid : ℕ) (hnew : newfid < 4294967296)
    (path : Option (List UInt8)) : ∃ s' r, s.p9Walk fid newfid path = .ok (s', r) ∧
      ((r = 0 ↔ s'.link.bindings = newfid :: s.link.bindings) ↔
        (s.link.answer (walkRequest s.tag fid newfid path)).stopped = false) := by
  have hlong : s.link.bindings ≠ newfid :: s.link.bindings := fun h => by
    simpa using congrArg List.length h
  rcases hans : s.link.answer (walkRequest s.tag fid newfid path) with body |
    ⟨qids, hle, hfirst⟩ <;>
    obtain ⟨s', hrun, hbind⟩ := s.p9Walk_answered fid hnew path hans <;>
    refine ⟨s', _, hrun, ?_⟩ <;> rw [hbind]
  · -- refused
    have hne : rlerror ≠ P9Type.rwalk.code := by decide
    simp [WalkAnswer.reply, WalkAnswer.complete, WalkAnswer.stopped, hne, hlong]
  · by_cases hend : qids.length = nwnameIn (walkRequest s.tag fid newfid path)
    · simp [WalkAnswer.reply, WalkAnswer.complete, WalkAnswer.stopped, hend]
    · have hlt : qids.length < nwnameIn (walkRequest s.tag fid newfid path) := by omega
      simp [WalkAnswer.reply, WalkAnswer.complete, WalkAnswer.stopped, hend, hlt, hlong]

/-- A walk over the two names of `a/b`. -/
theorem walk_reaches_target_iff_two : ∃ s s' : P9 WalkServer, s.link = allNames ∧
    1 < 4294967296 ∧ ∃ r, s.p9Walk 0 1 (some [97, 47, 98]) = .ok (s', r) ∧
      (r = 0 ↔ s'.link.bindings = [1]) := by
  obtain ⟨s', r, hrun, hiff⟩ := walk_reaches_target_iff ⟨allNames, 0, 1, true, fun _ => 0⟩ 0 1
    (by decide) (some [97, 47, 98])
  exact ⟨_, s', rfl, by decide, r, hrun, hiff.mpr (by decide)⟩

/-- The walk to `a/b` ends at `b`, and is taken for a success. -/
theorem walk_stops_at_later_name :
    ∃ s', oneNameClient.p9Walk 0 1 (some [97, 47, 98]) = .ok (s', 0) ∧ s'.link.bindings = [] := by
  have hnew : 1 < 4294967296 := by decide
  obtain ⟨s', hrun, hbind⟩ := oneNameClient.p9Walk_answered 0 hnew (some [97, 47, 98]) rfl
  refine ⟨s', hrun.trans ?_, hbind.trans ?_⟩
  · exact congrArg (fun r => Except.ok (s', r)) (if_pos (by decide))
  · exact if_neg (by decide)

end PenOS
