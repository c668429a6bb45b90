import Mathlib.Data.List.TakeWhile
import PenOS.P9Fids

/-!
# Directory listings

A server sends a directory as records of 24 bytes and a name. Both functions go through them
with the same steps (`visits`): a name is cut to 255 bytes, and so is the step over it. A
listing is asked for once, in 4096 bytes.
-/

namespace PenOS

open List

/-! ## Records -/

/-- A record as the server sends it: `qid[13] offset[8] type[1] name[s]`. -/
structure DirRecord where
  qid : List UInt8
  offset : ℕ
  type : UInt8
  name : List UInt8
  qid_length : qid.length = 13
  name_length : name.length < 65536
  no_nul : 0 ∉ name

namespace DirRecord

/-- The bytes of a record. -/
def encode (e : DirRecord) : List UInt8 :=
  e.qid ++ writeU64 e.offset ++ e.type :: writeU16 e.name.length ++ e.name

/-- What the loops should make of a record. -/
def entry (e : DirRecord) : DirEntry := ⟨e.type, e.name.take 255⟩

end DirRecord

/-- The bytes of a listing. -/
def encodeAll (es : List DirRecord) : List UInt8 := es.flatMap DirRecord.encode

/-- The records from `offset` on, each with its place. -/
def recordsAt : ℕ → List DirRecord → List (ℕ × DirEntry)
  | _, [] => []
  | offset, e :: es => (offset, e.entry) :: recordsAt (offset + e.encode.length) es

/-- The steps of the loops: the entries visited, each with its place. -/
def visits (buf : List UInt8) (count : ℕ) : ℕ → ℕ → List (ℕ × DirEntry)
  | 0, _ => []
  | fuel + 1, offset =>
    match dirEntryAt buf count offset with
    | none => []
    | some (e, next) => (offset, e) :: visits buf count fuel next

/-- `p9_list_directory` prints the entries visited. -/
theorem listEntries_eq (buf : List UInt8) (count fuel offset : ℕ) :
    listEntries buf count fuel offset = (visits buf count fuel offset).map (·.2.shown) := by
  induction fuel generalizing offset with
  | zero => rfl
  | succ fuel ih =>
    rw [listEntries, visits]
    rcases dirEntryAt buf count offset with _ | ⟨e, next⟩
    · rfl
    · exact congrArg (e.shown :: ·) (ih next)

theorem matchEntries_eq (buf typed : List UInt8) (count fuel offset : ℕ)
    {found : List (List UInt8)} (hfound : found.length ≤ 16) :
    matchEntries buf count typed fuel offset found = (found ++ (((visits buf count fuel offset).map
      Prod.snd).filter (·.completes typed)).map DirEntry.shown).take 16 := by
  induction fuel generalizing offset found with
  | zero => simp [matchEntries, visits, take_of_length_le hfound]
  | succ fuel ih =>
    rw [matchEntries, visits]
    split_ifs with hlt
    · rcases dirEntryAt buf count offset with _ | ⟨e, next⟩
      · simp [take_of_length_le hfound]
      · have hnext : (if e.completes typed then found ++ [e.shown] else found).length ≤ 16 := by
          split_ifs
          · rw [length_append]
            exact hlt
          · exact hfound
        dsimp only
        rw [ih next hnext, map_cons, filter_cons]
        split_ifs <;> simp
    · rw [take_left' (by omega)]

/-! ## Places -/

variable {e : DirRecord} {es : List DirRecord}

theorem dirEntryAt_append (pre t : List UInt8) (n offset : ℕ) :
    dirEntryAt (pre ++ t) (pre.length + n) (pre.length + offset) =
      (dirEntryAt t n offset).map fun x => (x.1, pre.length + x.2) := by
  have hget : ∀ k, (pre ++ t).getD (pre.length + offset + k) 0 = t.getD (offset + k) 0 := by
    intro k
    rw [Nat.add_assoc, getD_append_right _ _ _ _ (Nat.le_add_right _ _), Nat.add_sub_cancel_left]
  have hdrop : (pre ++ t).drop (pre.length + offset + 24) = t.drop (offset + 24) := by
    rw [Nat.add_assoc, drop_append, Nat.add_sub_cancel_left, drop_eq_nil_of_le (by omega),
      nil_append]
  simp only [dirEntryAt, hget, hdrop]
  split_ifs <;> first | omega | simp [Nat.add_assoc]

theorem visits_append (pre t : List UInt8) (n fuel offset : ℕ) :
    visits (pre ++ t) (pre.length + n) fuel (pre.length + offset) =
      (visits t n fuel offset).map fun x => (pre.length + x.1, x.2) := by
  induction fuel generalizing offset with
  | zero => rfl
  | succ fuel ih =>
    rw [visits, visits, dirEntryAt_append]
    rcases dirEntryAt t n offset with _ | ⟨e, next⟩
    · rfl
    · exact congrArg (_ :: ·) (ih next)

theorem recordsAt_add (es : List DirRecord) (k offset : ℕ) :
    recordsAt (k + offset) es = (recordsAt offset es).map fun x => (k + x.1, x.2) := by
  induction es generalizing offset with
  | nil => rfl
  | cons e es ih =>
    rw [recordsAt, recordsAt, Nat.add_assoc, ih]
    rfl

theorem recordsAt_snd (offset : ℕ) : (recordsAt offset es).map Prod.snd = es.map (·.entry) := by
  induction es generalizing offset with
  | nil => rfl
  | cons e es ih => exact congrArg (e.entry :: ·) (ih _)

theorem mem_recordsAt (offset : ℕ) (es : List DirRecord) (e : DirRecord) (rest : List DirRecord) :
    (offset + (encodeAll es).length, e.entry) ∈ recordsAt offset (es ++ e :: rest) := by
  induction es generalizing offset with
  | nil => exact mem_cons_self
  | cons e' es ih =>
    rw [encodeAll, flatMap_cons, length_append, ← Nat.add_assoc]
    exact mem_cons_of_mem _ (ih _)

/-- The places visited are inside the listing. -/
theorem lt_of_mem_visits {buf : List UInt8} {count fuel offset : ℕ} {x : ℕ × DirEntry}
    (hx : x ∈ visits buf count fuel offset) : x.1 < count := by
  induction fuel generalizing offset with
  | zero => cases hx
  | succ fuel ih =>
    rw [visits] at hx
    rcases hentry : dirEntryAt buf count offset with _ | y <;> rw [hentry] at hx
    · cases hx
    · rcases mem_cons.mp hx with rfl | hx
      · by_contra hge
        rw [dirEntryAt, if_neg hge] at hentry
        cases hentry
      · exact ih hx

theorem DirRecord.length_encode (e : DirRecord) : e.encode.length = 24 + e.name.length := by
  simp [encode, writeU64, writeU32, writeU16, e.qid_length]
  omega

theorem DirRecord.drop_encode (e : DirRecord) : e.encode.drop 24 = e.name := by
  have h24 : (e.qid ++ writeU64 e.offset ++ e.type :: writeU16 e.name.length).length = 24 := by
    simp [writeU64, writeU32, writeU16, e.qid_length]
  rw [encode, ← h24, drop_left]

theorem dirEntryAt_encode (e : DirRecord) (rest : List UInt8) :
    dirEntryAt (e.encode ++ rest) (e.encode.length + rest.length) 0 =
      some (e.entry, 24 + min 255 e.name.length) := by
  have hlen := e.length_encode
  have hbytes : e.encode ++ rest = (e.qid ++ writeU64 e.offset) ++ e.type ::
      (writeU16 e.name.length ++ (e.name ++ rest)) := by
    simp [DirRecord.encode]
  have h21 : (e.qid ++ writeU64 e.offset).length = 21 := by
    simp [e.qid_length, writeU64, writeU32]
  have hget : ∀ k, (e.encode ++ rest).getD (21 + k) 0 =
      (e.type :: (writeU16 e.name.length ++ (e.name ++ rest))).getD k 0 := fun k => by
    rw [hbytes, ← h21, getD_append_right _ _ _ _ (Nat.le_add_right _ _), Nat.add_sub_cancel_left]
  have hname : (e.encode ++ rest).drop 24 = e.name ++ rest := by
    rw [drop_append_of_le_length (by omega), e.drop_encode]
  have hcount : ((e.encode ++ rest).getD 22 0).toNat +
      256 * ((e.encode ++ rest).getD 23 0).toNat = e.name.length := by
    have := e.name_length
    rw [hget 1, hget 2]
    simp [writeU16, Mem.byteOf]
    omega
  have hcut : (if e.name.length > 255 then 255 else e.name.length) = min 255 e.name.length := by
    split_ifs <;> omega
  have htake : cString ((e.name ++ rest).take (min 255 e.name.length)) = e.name.take 255 := by
    rw [take_append_of_le_length (by omega), ← take_take, take_length, cString,
      takeWhile_eq_self_iff]
    intro c hc
    have hne : c ≠ 0 := fun heq => e.no_nul (heq ▸ mem_of_mem_take hc)
    simpa using hne
  simp only [dirEntryAt, Nat.zero_add, hcount, hcut, hname, htake]
  rw [if_pos (by omega), if_neg (by omega), if_neg (by omega), hget 0]
  rfl

/-! ## What the loops visit -/

/-- No name but the last is longer than 255 bytes; if the last one is, what is left of it is no
record. -/
def Steady : List DirRecord → Prop
  | [] => True
  | e :: es => e.name.length ≤ 255 ∧ Steady es ∨
      es = [] ∧ dirEntryAt (e.name.drop 255) (e.name.length - 255) 0 = none

theorem visits_iff (es : List DirRecord) {fuel : ℕ} (hfuel : (encodeAll es).length < fuel) :
    visits (encodeAll es) (encodeAll es).length fuel 0 = recordsAt 0 es ↔ Steady es := by
  induction es generalizing fuel with
  | nil =>
    obtain ⟨fuel, rfl⟩ := Nat.exists_eq_add_of_lt hfuel
    exact iff_of_true rfl trivial
  | cons e es ih =>
    obtain ⟨fuel, rfl⟩ := Nat.exists_eq_succ_of_ne_zero (Nat.ne_of_gt (Nat.zero_lt_of_lt hfuel))
    have hlen := e.length_encode
    have hbuf : encodeAll (e :: es) = e.encode ++ encodeAll es := flatMap_cons
    rw [hbuf, length_append] at hfuel ⊢
    rw [visits, dirEntryAt_encode, recordsAt, Nat.zero_add, cons.injEq, Steady]
    rw [and_iff_right rfl]
    rcases Nat.lt_or_ge 255 e.name.length with hlong | hshort
    · rw [Nat.min_eq_left hlong.le]
      cases es with
      | nil =>
        -- the loop goes on in what is left of the name
        have hrest : e.encode ++ encodeAll [] = e.encode.take 279 ++ e.name.drop 255 := by
          rw [← e.drop_encode, drop_drop, take_append_drop]
          exact append_nil _
        have h279 : (e.encode.take 279).length = 279 := by rw [length_take]; omega
        have hnext := dirEntryAt_append (e.encode.take 279) (e.name.drop 255)
          (e.name.length - 255) 0
        rw [h279, ← hrest, show 279 + (e.name.length - 255) =
          e.encode.length + (encodeAll []).length by rw [hlen]; change _ = 24 + _ + 0; omega]
          at hnext
        obtain ⟨fuel, rfl⟩ : ∃ n, fuel = n + 1 := ⟨fuel - 1, by omega⟩
        rw [visits, hnext, recordsAt]
        rcases dirEntryAt (e.name.drop 255) (e.name.length - 255) 0 with _ | x <;> simp
        omega
      | cons e' es =>
        refine iff_of_false (fun heq => ?_) ?_
        · cases fuel with
          | zero => cases heq
          | succ fuel =>
            rw [visits, recordsAt] at heq
            generalize dirEntryAt _ _ _ = next at heq
            rcases next with _ | x
            · cases heq
            · have hplace := congrArg Prod.fst (cons.inj heq).1
              omega
        · rintro (⟨hle, -⟩ | ⟨hnil, -⟩)
          · omega
          · cases hnil
    · rw [Nat.min_eq_right hshort, ← hlen]
      have hshift := visits_append e.encode (encodeAll es) (encodeAll es).length fuel 0
      have hrecords := recordsAt_add es e.encode.length 0
      rw [Nat.add_zero] at hshift hrecords
      rw [hshift, hrecords, map_inj_right fun x y hxy => ?_, ih (by omega)]
      · refine ⟨fun h => .inl ⟨hshort, h⟩, ?_⟩
        rintro (⟨-, h⟩ | ⟨rfl, -⟩)
        · exact h
        · trivial
      · simpa [Prod.ext_iff] using hxy

/-- **Listings are parsed faithfully**, by both loops, exactly when no name but the last is longer
than 255 bytes and what is left of a longer last one is no record. -/
theorem listing_parsed_iff (es : List DirRecord) :
    (visits (encodeAll es) (encodeAll es).length ((encodeAll es).length + 1) 0 = recordsAt 0 es ∧
      listEntries (encodeAll es) (encodeAll es).length ((encodeAll es).length + 1) 0 =
        es.map (·.entry.shown) ∧ ∀ typed, matchEntries (encodeAll es) (encodeAll es).length typed
        ((encodeAll es).length + 1) 0 [] = (((es.map DirRecord.entry).filter
          (·.completes typed)).map DirEntry.shown).take 16) ↔ Steady es := by
  have hiff := visits_iff es (Nat.lt_succ_self _)
  refine ⟨fun h => hiff.mp h.1, fun h => ?_⟩
  have hvisits := hiff.mpr h
  refine ⟨hvisits, ?_, fun typed => ?_⟩
  · rw [listEntries_eq, hvisits]
    have hsnd : (recordsAt 0 es).map Prod.snd = es.map (·.entry) := recordsAt_snd 0
    simpa [Function.comp_def] using congrArg (map DirEntry.shown) hsnd
  · rw [matchEntries_eq _ _ _ _ _ (by simp), hvisits, recordsAt_snd, nil_append]

/-- A record whose name has `n` times the same byte. -/
def DirRecord.plain (n : ℕ) (c : UInt8) (hn : n < 65536) (hc : c ≠ 0) : DirRecord where
  qid := replicate 13 0
  offset := 0
  type := 0
  name := replicate n c
  qid_length := length_replicate
  name_length := by rwa [length_replicate]
  no_nul := fun h => hc (eq_of_mem_replicate h).symm

/-- A name of 256 bytes hides the record after it. -/
theorem long_name_hides_next : ∃ es : List DirRecord, (encodeAll es).length ≤ 4096 ∧
    listEntries (encodeAll es) (encodeAll es).length ((encodeAll es).length + 1) 0 ≠
      es.map (·.entry.shown) := by
  refine ⟨[.plain 256 97 (by decide) (by decide), .plain 1 98 (by decide) (by decide)], ?_, ?_⟩
  all_goals decide +kernel

/-! ## Servers by their replies -/

/-- A server: the type and the payload of its reply to a message, and what it is then. -/
class P9Answers (σ : Type) where
  reply : σ → List UInt8 → σ × UInt8 × List UInt8

instance {σ : Type} [P9Answers σ] : P9Link σ where
  rpc d msg rx :=
    let out := P9Answers.reply d msg
    let reply := replyTo msg out.2.1 out.2.2
    .ok (out.1, rx.paste 0 reply.length fun k => reply.getD k 0, some reply.length)

section

variable {σ : Type} [P9Answers σ] {s : P9 σ} {d : σ} {type expected : P9Type} {code : UInt8}
  {body payload : List UInt8}

/-- The receive buffer after a reply: its type, and its payload if it fits. -/
theorem P9.request_answered
    (hans : P9Answers.reply s.link (p9Message type s.tag body) = (d, code, payload)) :
    ∃ rx, s.request type body =
        .ok ({ s with link := d, tag := u16 (s.tag + 1), rx := rx }, true) ∧ rx 4 = code ∧
      (payload.length ≤ 8185 → ∀ k < payload.length, rx (7 + k) = payload.getD k 0) := by
  refine ⟨s.rx.paste 0 (replyTo (p9Message type s.tag body) code payload).length
    (fun k => (replyTo (p9Message type s.tag body) code payload).getD k 0), ?_, ?_,
    fun hsmall k hk => ?_⟩
  · simp only [request, rpc, P9Link.rpc, hans, Option.isSome_some]
  · rw [Mem.paste_of_mem (Nat.zero_le _) (by simp [replyTo, writeU32])]
    rfl
  · have htake := take_of_length_le (show _ ≤ p9MaxMsgSize - 7 from hsmall)
    rw [Mem.paste_of_mem (Nat.zero_le _) (by simp [replyTo, writeU32, htake]; omega)]
    simp only [replyTo, htake, Nat.sub_zero]
    rw [Nat.add_comm 7 k]
    rfl

/-- A request that is granted. -/
theorem P9.typeCheck_granted (hcode : expected.code = code)
    (hans : P9Answers.reply s.link (p9Message type s.tag body) = (s.link, code, payload)) :
    ∃ tag rx, P9.typeCheck expected (s.request type body) =
      .ok ({ s with tag := tag, rx := rx }, 0) := by
  obtain ⟨rx, hreq, htype, -⟩ := P9.request_answered hans
  exact ⟨_, rx, by rw [hreq, typeCheck, if_pos ⟨rfl, htype.trans hcode.symm⟩]⟩

/-- Data of a reply that is no longer than what was asked for. -/
theorem P9.transfer_answered {fid offset count : ℕ} {data : List UInt8}
    (hans : P9Answers.reply s.link (p9Message type s.tag
      (writeU32 fid ++ writeU64 offset ++ writeU32 count)) =
        (d, expected.code, writeU32 data.length ++ data))
    (hle : data.length ≤ count) (hcount : count ≤ 4096) :
    ∃ tag rx, s.transfer type expected fid offset count =
      .ok ({ s with link := d, tag := tag, rx := rx }, data.length, data) := by
  obtain ⟨rx, hreq, htype, hbytes⟩ := P9.request_answered hans
  have hlen : (writeU32 data.length ++ data).length = 4 + data.length := by
    simp [writeU32]
    omega
  have hbytes := hbytes (by omega)
  have hload : min (rx.load32 7) count = data.length := by
    rw [Mem.load32_of_bytes (hbytes 0 (by omega)) (hbytes 1 (by omega)) (hbytes 2 (by omega))
      (hbytes 3 (by omega)), u32_of_lt (by omega)]
    exact Nat.min_eq_left hle
  have hdata : (List.range data.length).map (fun k => rx (11 + k)) = data := by
    refine ext_getElem (by simp) fun k hk hk' => ?_
    rw [getElem_map, getElem_range, show 11 + k = 7 + (k + 4) by omega, hbytes (k + 4) (by omega)]
    exact getD_eq_getElem data 0 hk'
  refine ⟨u16 (s.tag + 1), rx, ?_⟩
  rw [transfer, hreq]
  simp only [hload, hdata]
  rw [if_pos ⟨trivial, htype⟩, int32, if_pos (by omega)]

theorem P9.p9Clunk_answered (s : P9 σ) (fid : ℕ) : ∃ t, s.p9Clunk fid = .ok t ∧
    t.nextFid = s.nextFid ∧ t.initialized = s.initialized := by
  obtain ⟨rx, hreq, -⟩ := P9.request_answered
    (rfl : P9Answers.reply s.link (p9Message .tclunk s.tag (writeU32 fid)) = _)
  exact ⟨{ s with link := _, tag := u16 (s.tag + 1), rx := rx }, by rw [p9Clunk, hreq], rfl, rfl⟩

end

/-! ## One request for a directory -/

/-- The records that fit in `count` bytes. -/
def fitting : ℕ → List DirRecord → List DirRecord
  | _, [] => []
  | count, e :: es =>
    if e.encode.length ≤ count then e :: fitting (count - e.encode.length) es else []

theorem length_fitting_le (count : ℕ) (es : List DirRecord) :
    (encodeAll (fitting count es)).length ≤ count := by
  induction es generalizing count with
  | nil => exact Nat.zero_le _
  | cons e es ih =>
    rw [fitting]
    split_ifs with hle
    · have := ih (count - e.encode.length)
      rw [encodeAll, flatMap_cons, length_append]
      exact Nat.add_le_of_le_sub' hle this
    · exact Nat.zero_le _

theorem fitting_cases (count : ℕ) (es : List DirRecord) :
    (fitting count es = es ∧ (encodeAll es).length ≤ count) ∨
      ∃ e rest, es = fitting count es ++ e :: rest ∧ count < (encodeAll es).length := by
  induction es generalizing count with
  | nil => exact .inl ⟨rfl, Nat.zero_le _⟩
  | cons e es ih =>
    have hlen : (encodeAll (e :: es)).length = e.encode.length + (encodeAll es).length := by
      rw [encodeAll, flatMap_cons, length_append]
      rfl
    rw [fitting]
    split_ifs with hle
    · rcases ih (count - e.encode.length) with ⟨hall, hsum⟩ | ⟨e', rest, hsplit, hsum⟩
      · exact .inl ⟨by rw [hall], by omega⟩
      · exact .inr ⟨e', rest, by rw [cons_append, ← hsplit], by omega⟩
    · exact .inr ⟨e, es, rfl, by omega⟩

/-- A server with one directory, to which every walk leads. -/
structure Directory where
  records : List DirRecord

namespace Directory

/-- The records after `offset`. -/
def after (d : Directory) (offset : ℕ) : List DirRecord :=
  if offset = 0 then d.records else (d.records.dropWhile (·.offset ≠ offset)).drop 1

/-- `Treaddir` is answered with as many whole records as fit. -/
def answer (d : Directory) (msg : List UInt8) : List UInt8 :=
  if msg.getD 4 0 = P9Type.treaddir.code then
    let data := encodeAll (fitting (wordAt msg 19)
      (d.after (wordAt msg 11 + 4294967296 * wordAt msg 15)))
    writeU32 data.length ++ data
  else []

/-- Every request is granted. -/
instance : P9Answers Directory where
  reply d msg := (d, msg.getD 4 0 + 1, d.answer msg)

/-- What `p9_list_directory` visits. -/
def firstVisits (d : Directory) : List (ℕ × DirEntry) :=
  let data := encodeAll (fitting 4096 d.records)
  visits data data.length (data.length + 1) 0

end Directory

theorem P9.p9Readdir_directory (s : P9 Directory) (fid : ℕ) :
    ∃ tag rx, s.p9Readdir fid 0 4096 = .ok ({ s with tag := tag, rx := rx },
      (encodeAll (fitting 4096 s.link.records)).length,
      encodeAll (fitting 4096 s.link.records)) :=
  transfer_answered rfl (length_fitting_le 4096 s.link.records) le_rfl

theorem P9.visit_directory (s : P9 Directory) (root fid : ℕ) (path : List UInt8) :
    ∃ tag rx, s.visit root fid path = .ok ({ s with tag := tag, rx := rx }, .opened) := by
  obtain ⟨tag1, rx1, hwalk⟩ : ∃ tag rx, s.p9Walk root fid (some path) =
    .ok ({ s with tag := tag, rx := rx }, 0) := typeCheck_granted rfl rfl
  obtain ⟨tag2, rx2, hopen⟩ : ∃ tag rx, ({ s with tag := tag1, rx := rx1 } : P9 Directory).p9Open
    fid 0 = .ok ({ s with tag := tag, rx := rx }, 0) := typeCheck_granted rfl rfl
  refine ⟨tag2, rx2, ?_⟩
  rw [visit, hwalk]
  simp [hopen]

theorem P9Files.p9ListDirectory_directory (s : P9Files Directory) (hinit : s.initialized = true)
    (path : Option (List UInt8)) :
    ∃ s', s.p9ListDirectory path = .ok (s', 0, s.link.firstVisits.map (·.2.shown)) := by
  obtain ⟨tag1, rx1, hvisit⟩ := s.takeFid.1.visit_directory 0 s.nextFid (walkPath (path.getD s.cwd))
  obtain ⟨tag2, rx2, hread⟩ := P9.p9Readdir_directory
    { s.takeFid.1.toP9 with tag := tag1, rx := rx1 } s.nextFid
  obtain ⟨t, hclunk⟩ := P9.p9Clunk_answered
    { s.takeFid.1.toP9 with tag := tag2, rx := rx2 } s.nextFid
  rw [p9ListDirectory, if_neg (by simp [hinit])]
  dsimp only [takeFid] at hvisit hread hclunk ⊢
  simp only [hvisit, hread, close, hclunk]
  rw [if_neg (by omega), Int.toNat_natCast, listEntries_eq]
  exact ⟨_, rfl⟩

/-- **A listing shows the whole directory** exactly when it fits in one reply of 4096 bytes and is
steady. -/
theorem directory_listed_iff (s : P9Files Directory) (hinit : s.initialized = true)
    (path : Option (List UInt8)) :
    (∃ s', s.p9ListDirectory path = .ok (s', 0, s.link.firstVisits.map (·.2.shown))) ∧
      (s.link.firstVisits = recordsAt 0 s.link.records ↔
        (encodeAll s.link.records).length ≤ 4096 ∧ Steady s.link.records) := by
  refine ⟨s.p9ListDirectory_directory hinit path, ?_⟩
  rcases fitting_cases 4096 s.link.records with ⟨hall, hle⟩ | ⟨e, rest, hsplit, hlt⟩
  · rw [Directory.firstVisits, hall, visits_iff _ (Nat.lt_succ_self _)]
    exact (and_iff_right hle).symm
  · refine iff_of_false (fun heq => ?_) fun h => absurd h.1 (by omega)
    have hmem := mem_recordsAt 0 (fitting 4096 s.link.records) e rest
    rw [← hsplit, ← heq] at hmem
    have hplace := lt_of_mem_visits hmem
    omega

/-- The files `a` and `bb` are listed. -/
theorem directory_listed_iff_two : ∃ s s' : P9Files Directory, s.initialized = true ∧
    s.p9ListDirectory none = .ok (s', 0, [[97], [98, 98]]) := by
  obtain ⟨s', hrun⟩ := (directory_listed_iff ⟨⟨⟨[.plain 1 97 (by decide) (by decide),
    .plain 2 98 (by decide) (by decide)]⟩, 0, 1, true, fun _ => 0⟩, [slash]⟩ rfl none).1
  exact ⟨_, s', rfl, hrun⟩

/-- Of 15 files with names of 255 bytes 14 are shown. -/
theorem long_directory_cut : ∃ d : Directory, d.records.length = 15 ∧
    ∀ s : P9Files Directory, s.link = d → s.initialized = true → ∀ path, ∃ s' names,
      s.p9ListDirectory path = .ok (s', 0, names) ∧ names.length = 14 := by
  refine ⟨⟨replicate 15 (.plain 255 97 (by decide) (by decide))⟩, length_replicate,
    fun s hlink hinit path => ?_⟩
  obtain ⟨s', hrun⟩ := s.p9ListDirectory_directory hinit path
  refine ⟨s', _, hrun, ?_⟩
  rw [hlink, length_map]
  decide +kernel

end PenOS
