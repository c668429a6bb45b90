import PenOS.P9Replies
import PenOS.P9Walk

/-!
# What the client checks of a reply

No caller of `p9_rpc` looks at the number of bytes the device has written. Six operations compare
the type byte and decode what they expect behind it, `p9_get_file_size` not even that. If the reply
is short, the rest is taken from an earlier one.
-/

namespace PenOS

/-- The type of `Rgetattr`. -/
abbrev rgetattr : UInt8 := 25

namespace P9Op

/-- The message of an operation. -/
def message (tag : ℕ) : P9Op → List UInt8
  | .version => p9Message .tversion p9Notag
      (writeU32 p9MaxMsgSize ++ writeString [57, 80, 50, 48, 48, 48, 46, 76])
  | .attach uname aname => p9Message .tattach tag
      (writeU32 0 ++ writeU32 p9Nofid ++ writeString uname ++ writeString aname ++ writeU32 0)
  | .walk fid newfid path => walkRequest tag fid newfid path
  | .lopen fid flags => p9Message .tlopen tag (writeU32 fid ++ writeU32 flags)
  | .read fid offset count => p9Message .tread tag
      (writeU32 fid ++ writeU64 offset ++ writeU32 count)
  | .readdir fid offset count => p9Message .treaddir tag
      (writeU32 fid ++ writeU64 offset ++ writeU32 count)
  | .clunk fid => p9Message .tclunk tag (writeU32 fid)
  | .getFileSize fid => p9Message .tgetattr tag (writeU32 fid ++ writeU64 4095)

/-- The type of the reply that belongs to an operation. -/
def replyCode : P9Op → UInt8
  | .version => P9Type.rversion.code
  | .attach _ _ => P9Type.rattach.code
  | .walk _ _ _ => P9Type.rwalk.code
  | .lopen _ _ => P9Type.rlopen.code
  | .read _ _ _ => P9Type.rread.code
  | .readdir _ _ _ => P9Type.rreaddir.code
  | .clunk _ => 121
  | .getFileSize _ => rgetattr

/-- What an operation returns, and the bytes it writes to its output argument. -/
def result {σ : Type} [P9Link σ] (s : P9 σ) : P9Op → Except Halt (P9 σ × ℤ × List UInt8)
  | .version => s.p9Version.map fun out => (out.1, out.2, [])
  | .attach uname aname => (s.p9Attach uname aname).map fun out => (out.1, out.2, [])
  | .walk fid newfid path => (s.p9Walk fid newfid path).map fun out => (out.1, out.2, [])
  | .lopen fid flags => (s.p9Open fid flags).map fun out => (out.1, out.2, [])
  | .read fid offset count => s.p9Read fid offset count
  | .readdir fid offset count => s.p9Readdir fid offset count
  | .clunk fid => (s.p9Clunk fid).map fun s => (s, 0, [])
  | .getFileSize fid => (s.p9GetFileSize fid).map fun out =>
      (out.1, if out.2.isSome then 0 else -1, (out.2.map writeU64).getD [])

/-- The bytes of `rx_buffer` that an operation decodes or copies when it succeeds. -/
def Reads (op : P9Op) (rx : Mem) (k : ℕ) : Prop :=
  match op with
  | .read _ _ count | .readdir _ _ count => k = 4 ∨ 7 ≤ k ∧ k < 11 + min (rx.load32 7) count
  | .getFileSize _ => 56 ≤ k ∧ k < 64
  | _ => k = 4

/-- **Validated before use.** Success is reported only of a reply of the right type that covers all
bytes read; otherwise nothing is written to the output. -/
structure Validated (op : P9Op) (rx : Mem) (len : ℕ) (r : ℤ) (out : List UInt8) : Prop where
  success : 0 ≤ r → rx 4 = op.replyCode ∧ ∀ k, op.Reads rx k → k < len
  failure : (rx 4 = rlerror ∨ ∃ k, op.Reads rx k ∧ len ≤ k) → r = -1 ∧ out = []

/-- The reply is long enough for its type; the one `p9_get_file_size` gets is of its type. -/
def Sufficient (op : P9Op) (rx : Mem) (len : ℕ) : Prop :=
  match op with
  | .read _ _ count | .readdir _ _ count =>
    rx 4 = op.replyCode → 11 + min (rx.load32 7) count ≤ len
  | .getFileSize _ => rx 4 = rgetattr ∧ 64 ≤ len
  | _ => rx 4 = op.replyCode → 5 ≤ len

end P9Op

variable {σ : Type} [P9Link σ] {s : P9 σ} {link : σ} {rx : Mem} {len : ℕ} {msg : List UInt8}

/-- An answered request. -/
theorem P9.rpc_of_some (h : P9Link.rpc s.link msg s.rx = .ok (link, rx, some len)) :
    s.rpc msg = .ok ({ s with link := link, rx := rx }, true) := by
  rw [rpc, h]
  rfl

theorem P9.typeCheck_of_some (expected : P9Type)
    (h : P9Link.rpc s.link msg s.rx = .ok (link, rx, some len)) :
    P9.typeCheck expected (s.rpc msg) = .ok ({ s with link := link, rx := rx },
      if rx 4 = expected.code then 0 else -1) := by
  rw [rpc_of_some h]
  simp [typeCheck, replyType]

namespace P9Op

variable {op : P9Op}

omit [P9Link σ] in
theorem replyCode_ne_rlerror (op : P9Op) : op.replyCode ≠ rlerror := by
  cases op <;> rw [replyCode] <;> decide

theorem validated_type_iff (hreads : ∀ k, op.Reads rx k ↔ k = 4) :
    op.Validated rx len (if rx 4 = op.replyCode then 0 else -1) [] ↔
      (rx 4 = op.replyCode → 5 ≤ len) := by
  constructor
  · rintro ⟨hok, -⟩ htype
    rw [if_pos htype] at hok
    have hlt := (hok (le_refl _)).2 4 ((hreads 4).mpr rfl)
    omega
  · intro hlen
    refine ⟨fun hr => ?_, fun hbad => ?_⟩ <;> by_cases htype : rx 4 = op.replyCode
    · have hlong := hlen htype
      refine ⟨htype, fun k hk => ?_⟩
      rw [(hreads k).mp hk]
      omega
    · rw [if_neg htype] at hr
      omega
    · have hlong := hlen htype
      rcases hbad with hbad | ⟨k, hk, hle⟩
      · exact absurd (htype.symm.trans hbad) op.replyCode_ne_rlerror
      · rw [hreads k] at hk
        omega
    · exact ⟨if_neg htype, rfl⟩

theorem validated_count_iff {count : ℕ}
    (hreads : ∀ k, op.Reads rx k ↔ k = 4 ∨ 7 ≤ k ∧ k < 11 + min (rx.load32 7) count) {r : ℤ}
    {out : List UInt8}
    (hyes : rx 4 = op.replyCode → r = int32 (min (rx.load32 7) count) ∧
      out.length = min (rx.load32 7) count) (hno : rx 4 ≠ op.replyCode → r = -1 ∧ out = []) :
    op.Validated rx len r out ↔ (rx 4 = op.replyCode → 11 + min (rx.load32 7) count ≤ len) := by
  constructor
  · rintro ⟨hok, hbad⟩ htype
    by_contra hshort
    obtain ⟨hr, hout⟩ := hyes htype
    -- the last byte read is not covered: nothing may be written, so nothing is counted
    obtain ⟨-, hnil⟩ := hbad (.inr ⟨10 + min (rx.load32 7) count, (hreads _).mpr (.inr (by omega)),
      by omega⟩)
    rw [hnil, List.length_nil] at hout
    rw [← hout] at hr
    have hlast := (hok (hr ▸ le_refl _)).2 10 ((hreads 10).mpr (.inr (by omega)))
    omega
  · intro hlen
    by_cases htype : rx 4 = op.replyCode
    · have hlong := hlen htype
      have hcovered : ∀ k, op.Reads rx k → k < len := by
        intro k hk
        rw [hreads k] at hk
        omega
      refine ⟨fun _ => ⟨htype, hcovered⟩, fun hbad => ?_⟩
      rcases hbad with hbad | ⟨k, hk, hle⟩
      · exact absurd (htype.symm.trans hbad) op.replyCode_ne_rlerror
      · exact absurd (hcovered k hk) (by omega)
    · obtain ⟨rfl, rfl⟩ := hno htype
      exact ⟨fun hr => absurd hr (by decide), fun _ => ⟨rfl, rfl⟩⟩

end P9Op

theorem P9.transfer_of_some (expected : P9Type) {type : P9Type} {fid offset count : ℕ}
    (h : P9Link.rpc s.link
    (p9Message type s.tag (writeU32 fid ++ writeU64 offset ++ writeU32 count))
      s.rx = .ok (link, rx, some len)) :
    ∃ s' r out, s.transfer type expected fid offset count = .ok (s', r, out) ∧ s'.rx = rx ∧
      (rx 4 = expected.code → r = int32 (min (rx.load32 7) count) ∧
        out.length = min (rx.load32 7) count) ∧ (rx 4 ≠ expected.code → r = -1 ∧ out = []) := by
  have hrpc := rpc_of_some (s := { s with tag := u16 (s.tag + 1) }) h
  rw [transfer, request, hrpc]
  by_cases htype : rx 4 = expected.code
  · exact ⟨_, _, _, if_pos ⟨rfl, htype⟩, rfl, fun _ => ⟨rfl, by simp⟩, fun hne => absurd htype hne⟩
  · exact ⟨_, _, _, if_neg fun hand => htype hand.2, rfl, fun heq => absurd heq htype,
      fun _ => ⟨rfl, rfl⟩⟩

/-- **The checks of the client**: an operation validates a reply before it uses it exactly if
the reply is sufficient. -/
theorem reply_validated_iff (s : P9 σ) (op : P9Op) (hop : ∀ fid, op ≠ .clunk fid)
    (hrpc : P9Link.rpc s.link (op.message s.tag) s.rx = .ok (link, rx, some len)) :
    ∃ s' r out, op.result s = .ok (s', r, out) ∧ s'.rx = rx ∧
      (op.Validated rx len r out ↔ op.Sufficient rx len) := by
  have hcheck : ∀ {t : P9 σ} (expected : P9Type), t.link = s.link → t.rx = s.rx →
      op.replyCode = expected.code → (∀ k, op.Reads rx k ↔ k = 4) →
      ∃ s' r out, (P9.typeCheck expected (t.rpc (op.message s.tag))).map
          (fun out => (out.1, out.2, ([] : List UInt8))) = .ok (s', r, out) ∧ s'.rx = rx ∧
        (op.Validated rx len r out ↔ (rx 4 = op.replyCode → 5 ≤ len)) := by
    intro t expected hlink hrx hcode hreads
    rw [← hlink, ← hrx] at hrpc
    rw [P9.typeCheck_of_some expected hrpc]
    exact ⟨_, _, _, rfl, rfl, hcode ▸ P9Op.validated_type_iff hreads⟩
  cases op with
  | version => exact hcheck .rversion rfl rfl rfl fun _ => Iff.rfl
  | attach uname aname => exact hcheck .rattach rfl rfl rfl fun _ => Iff.rfl
  | walk fid newfid path =>
    simp only [P9Op.result, P9.p9Walk_eq]
    exact hcheck .rwalk rfl rfl rfl fun _ => Iff.rfl
  | lopen fid flags => exact hcheck .rlopen rfl rfl rfl fun _ => Iff.rfl
  | read fid offset count =>
    obtain ⟨s', r, out, hrun, hrx, hyes, hno⟩ := P9.transfer_of_some .rread hrpc
    exact ⟨s', r, out, hrun, hrx,
      P9Op.validated_count_iff (fun _ => Iff.rfl) hyes hno⟩
  | readdir fid offset count =>
    obtain ⟨s', r, out, hrun, hrx, hyes, hno⟩ := P9.transfer_of_some .rreaddir hrpc
    exact ⟨s', r, out, hrun, hrx,
      P9Op.validated_count_iff (fun _ => Iff.rfl) hyes hno⟩
  | clunk fid => exact absurd rfl (hop fid)
  | getFileSize fid =>
    have hanswer := P9.rpc_of_some (s := { s with tag := u16 (s.tag + 1) }) hrpc
    have hreads : ∀ k, (P9Op.getFileSize fid).Reads rx k ↔ 56 ≤ k ∧ k < 64 := fun _ => Iff.rfl
    refine ⟨{ s with tag := u16 (s.tag + 1), link := link, rx := rx }, 0,
      writeU64 (readU64 rx 56), ?_, rfl, ?_⟩
    · rw [P9Op.result, P9.p9GetFileSize, P9.request]
      rw [P9Op.message] at hanswer
      rw [hanswer]
      rfl
    · constructor
      · rintro ⟨hok, -⟩
        obtain ⟨htype, hcovered⟩ := hok (le_refl _)
        have hlast := hcovered 63 ((hreads 63).mpr (by decide))
        exact ⟨htype, hlast⟩
      · rintro ⟨htype, hlen⟩
        have hcovered : ∀ k, (P9Op.getFileSize fid).Reads rx k → k < len := fun k hk => by
          rw [hreads k] at hk
          omega
        refine ⟨fun _ => ⟨htype, hcovered⟩, fun hbad => ?_⟩
        rcases hbad with hbad | ⟨k, hk, hle⟩
        · exact absurd (htype.symm.trans hbad) (by decide)
        · exact absurd (hcovered k hk) (by omega)

/-- A device that answers every request with the same bytes. -/
structure FixedReply where
  reply : List UInt8

instance : P9Link FixedReply where
  rpc link _ rx := .ok (link, rx.paste 0 link.reply.length fun k => link.reply.getD k 0,
    some link.reply.length)

/-- A client whose buffer still holds an `Rread` of four bytes. -/
def staleClient (reply : List UInt8) : P9 FixedReply :=
  ⟨⟨reply⟩, 0, 1, true, fun k => if k = 7 then 4 else if k < 11 then 0 else 97⟩

/-- `Rversion` is looked at as it came. -/
theorem reply_validated_iff_version : (∀ fid, P9Op.version ≠ .clunk fid) ∧ ∃ s' r out,
      P9Op.version.result (staleClient [7, 0, 0, 0, 101, 255, 255]) = .ok (s', r, out) ∧
      P9Op.version.Validated s'.rx 7 r out := by
  have hop : ∀ fid, P9Op.version ≠ .clunk fid := by simp
  obtain ⟨s', r, out, hrun, hrx, hiff⟩ :=
    reply_validated_iff (staleClient [7, 0, 0, 0, 101, 255, 255]) .version hop rfl
  exact ⟨hop, s', r, out, hrun, hrx ▸ hiff.mpr fun _ => by decide⟩

/-- `p9_get_file_size` takes the size from an error, and `p9_read` four bytes from a reply
that ends before its count. -/
theorem stale_bytes_used :
    (∃ s' out, (P9Op.getFileSize 5).result (staleClient [11, 0, 0, 0, 7, 0, 0, 2, 0, 0, 0]) =
        .ok (s', 0, out) ∧ s'.rx 4 = rlerror ∧ ¬ (P9Op.getFileSize 5).Validated s'.rx 11 0 out) ∧
    ∃ s', (P9Op.read 5 0 16).result (staleClient [7, 0, 0, 0, 117, 0, 0]) =
        .ok (s', 4, [97, 97, 97, 97]) ∧
      ¬ (P9Op.read 5 0 16).Validated s'.rx 7 4 [97, 97, 97, 97] := by
  refine ⟨⟨_, _, rfl, by decide, fun h => ?_⟩, ⟨_, rfl, fun h => ?_⟩⟩
  · exact absurd (h.failure (.inl (by decide))).1 (by decide)
  · exact absurd ((h.success (by decide)).2 10 (.inr (by decide))) (by decide)

end PenOS
