import Mathlib.Data.Finset.Insert
import PenOS.P9Files
import PenOS.P9Queue

/-!
# Fids at the server

A walk from a bound fid binds a new one if it comes to its end; all other requests name a bound fid,
and a clunk releases it. Apart from this a server may grant or refuse what it likes (`P9Backend`).
The client numbers its fids by `next_fid++` and by the timer.
-/

namespace PenOS

variable {completing : Bool} {type : P9Type}

/-! ## Requests -/

/-- A request as the server reads it. -/
inductive P9Request : Type where
  | version : P9Request
  | attach (fid : ℕ) : P9Request
  | walk (fid newfid nwname : ℕ) : P9Request
  /-- `Tlopen`, `Tread`, `Treaddir` or `Tgetattr` -/
  | access (type : P9Type) (fid : ℕ) : P9Request
  | clunk (fid : ℕ) : P9Request
  | unknown : P9Request

/-- The word at byte `a` of a message. -/
def wordAt (msg : List UInt8) (a : ℕ) : ℕ := Mem.load32 (fun k => msg.getD k 0) a

/-- The requests that name one fid and change no fid. -/
def accessTypes : List P9Type := [.tlopen, .tread, .treaddir, .tgetattr]

def readRequest (msg : List UInt8) : P9Request :=
  let type := msg.getD 4 0
  if type = P9Type.tversion.code then .version
  else if type = P9Type.tattach.code then .attach (wordAt msg 7)
  else if type = P9Type.twalk.code then
    .walk (wordAt msg 7) (wordAt msg 11) ((msg.getD 15 0).toNat + 256 * (msg.getD 16 0).toNat)
  else if type = P9Type.tclunk.code then .clunk (wordAt msg 7)
  else match accessTypes.find? fun t => t.code = type with
    | some t => .access t (wordAt msg 7)
    | none => .unknown

/-! ## The server -/

/-- What a server decides about a request that names its fids rightly. -/
inductive P9Decision : Type where
  | grant (body : List UInt8) : P9Decision
  /-- a walk that ends at one of the later names -/
  | grantPart (body : List UInt8) : P9Decision
  | refuse (body : List UInt8) : P9Decision

/-- The file system behind the fids, with all its decisions. -/
class P9Backend (τ : Type) where
  decide : τ → List UInt8 → τ × P9Decision

/-- A request with the fids bound when it came, and whether the last walk had bound one. -/
structure P9Event where
  request : P9Request
  bound : Finset ℕ
  walked : Bool

/-- A server: its fids, whether the last walk came to its end, and the requests so far,
the latest first. -/
structure P9Server (τ : Type) where
  backend : τ
  bound : Finset ℕ
  walked : Bool
  log : List P9Event

/-- A walk goes from a bound fid to an unbound one, and after a complete walk the other requests
name a bound fid. -/
def P9Event.Live (e : P9Event) : Prop :=
  match e.request with
  | .walk fid newfid _ => fid ∈ e.bound ∧ newfid ∉ e.bound
  | .access _ fid => e.walked = true → fid ∈ e.bound
  | .clunk fid => e.walked = true → fid ∈ e.bound
  | _ => True

instance : DecidablePred P9Event.Live
  | ⟨.walk fid newfid _, bound, _⟩ => inferInstanceAs (Decidable (fid ∈ bound ∧ newfid ∉ bound))
  | ⟨.access _ fid, bound, walked⟩ => inferInstanceAs (Decidable (walked = true → fid ∈ bound))
  | ⟨.clunk fid, bound, walked⟩ => inferInstanceAs (Decidable (walked = true → fid ∈ bound))
  | ⟨.version, _, _⟩ | ⟨.attach _, _, _⟩ | ⟨.unknown, _, _⟩ => inferInstanceAs (Decidable True)

/-- All requests so far. -/
def P9Server.Live {τ : Type} (srv : P9Server τ) : Prop := ∀ e ∈ srv.log, e.Live

/-- The type of `Rlerror`. -/
abbrev rlerror : UInt8 := 7

namespace P9Server

variable {τ : Type} [P9Backend τ]

/-- A request is handled: the server afterwards, and the type and body of the reply. -/
def handle (srv : P9Server τ) (msg : List UInt8) : P9Server τ × UInt8 × List UInt8 :=
  let request := readRequest msg
  let (backend, decision) := P9Backend.decide srv.backend msg
  let srv := { srv with backend := backend, log := ⟨request, srv.bound, srv.walked⟩ :: srv.log }
  match request with
  | .version => ({ srv with bound := ∅, walked := false }, P9Type.rversion.code, [])
  | .attach fid =>
    if fid ∈ srv.bound then (srv, rlerror, [])
    else match decision with
      | .grant body => ({ srv with bound := insert fid srv.bound }, P9Type.rattach.code, body)
      | _ => (srv, rlerror, [])
  | .walk fid newfid nwname =>
    if fid ∈ srv.bound ∧ (newfid ∈ srv.bound → newfid = fid) then
      match decision with
      | .grant body =>
        ({ srv with bound := insert newfid srv.bound, walked := true }, P9Type.rwalk.code, body)
      | .grantPart body =>
        -- if the first name is not found the walk is refused
        ({ srv with walked := false }, if 2 ≤ nwname then P9Type.rwalk.code else rlerror, body)
      | .refuse body => ({ srv with walked := false }, rlerror, body)
    else ({ srv with walked := false }, rlerror, [])
  | .access type fid =>
    if fid ∈ srv.bound then
      match decision with
      | .grant body => (srv, type.code + 1, body)
      | _ => (srv, rlerror, [])
    else (srv, rlerror, [])
  | .clunk fid =>
    -- the fid is gone whatever the reply
    ({ srv with bound := srv.bound.erase fid }, if fid ∈ srv.bound then 121 else rlerror, [])
  | .unknown => (srv, rlerror, [])

/-- Every request is answered. -/
instance : P9Link (P9Server τ) where
  rpc srv msg rx :=
    let answer := srv.handle msg
    let reply := replyTo msg answer.2.1 answer.2.2
    .ok (answer.1, rx.paste 0 reply.length fun k => reply.getD k 0, some reply.length)

end P9Server

/-! ## One request -/

namespace P9Server

variable {τ : Type} [P9Backend τ] {msg : List UInt8} {fid newfid n : ℕ}

theorem handle_log (srv : P9Server τ) (msg : List UInt8) :
    (srv.handle msg).1.log = ⟨readRequest msg, srv.bound, srv.walked⟩ :: srv.log := by
  simp only [handle]
  rcases readRequest msg with _ | _ | _ | _ | _ | _ <;> dsimp only
  all_goals (repeat' split) <;> rfl

/-- A walk binds the new fid, or nothing. -/
theorem handle_walk (srv : P9Server τ) (h : readRequest msg = .walk fid newfid n) :
    ((srv.handle msg).2.1 = P9Type.rwalk.code →
      fid ∈ srv.bound ∧ (newfid ∈ srv.bound → newfid = fid)) ∧
    ((srv.handle msg).1.walked = true ∧ (srv.handle msg).2.1 = P9Type.rwalk.code ∧
        (srv.handle msg).1.bound = insert newfid srv.bound ∨
      (srv.handle msg).1.walked = false ∧ (srv.handle msg).1.bound = srv.bound) := by
  have hne : rlerror ≠ P9Type.rwalk.code := by decide
  simp only [handle, h]
  by_cases hok : fid ∈ srv.bound ∧ (newfid ∈ srv.bound → newfid = fid)
  · rw [if_pos hok]
    refine ⟨fun _ => hok, ?_⟩
    rcases (P9Backend.decide srv.backend msg).2 with body | body | body
    · exact Or.inl ⟨rfl, rfl, rfl⟩
    · exact Or.inr ⟨rfl, rfl⟩
    · exact Or.inr ⟨rfl, rfl⟩
  · rw [if_neg hok]
    exact ⟨fun hcode => absurd hcode hne, Or.inr ⟨rfl, rfl⟩⟩

/-- Other requests need their fid, and leave the table alone. -/
theorem handle_access (srv : P9Server τ) (htype : type ∈ accessTypes)
    (h : readRequest msg = .access type fid) :
    (srv.handle msg).1.bound = srv.bound ∧ (srv.handle msg).1.walked = srv.walked ∧
      ((srv.handle msg).2.1 = type.code + 1 → fid ∈ srv.bound) := by
  have hne : ∀ t ∈ accessTypes, rlerror ≠ t.code + 1 := by decide
  simp only [handle, h]
  split_ifs with hmem
  · rcases (P9Backend.decide srv.backend msg).2 with body | body | body <;>
      exact ⟨rfl, rfl, fun _ => hmem⟩
  · exact ⟨rfl, rfl, fun hcode => absurd hcode (hne type htype)⟩

theorem handle_version (srv : P9Server τ) (h : readRequest msg = .version) :
    (srv.handle msg).1.bound = ∅ := by
  simp only [handle, h]

/-- An attach that is granted binds the root. -/
theorem handle_attach (srv : P9Server τ) (h : readRequest msg = .attach fid)
    (hcode : (srv.handle msg).2.1 = P9Type.rattach.code) :
    (srv.handle msg).1.bound = insert fid srv.bound := by
  have hne : rlerror ≠ P9Type.rattach.code := by decide
  simp only [handle, h] at hcode ⊢
  split_ifs at hcode ⊢
  · exact absurd hcode hne
  · rcases hd : (P9Backend.decide srv.backend msg).2 with body | body | body <;>
      simp only [hd] at hcode ⊢
    · exact absurd hcode hne
    · exact absurd hcode hne

theorem handle_clunk (srv : P9Server τ) (h : readRequest msg = .clunk fid) :
    (srv.handle msg).1.bound = srv.bound.erase fid ∧ (srv.handle msg).1.walked = srv.walked := by
  constructor <;> simp only [handle, h]

end P9Server

/-- The fields of a message of the client are read by the server as they were written. -/
theorem readRequest_walk (tag fid newfid : ℕ) (names : List UInt8) :
    ∃ n, readRequest (p9Message .twalk tag (writeU32 fid ++ writeU32 newfid ++ names)) =
      .walk (u32 fid) (u32 newfid) n := by
  have hfid : wordAt (p9Message .twalk tag (writeU32 fid ++ writeU32 newfid ++ names)) 7 =
      u32 fid := Mem.load32_of_bytes rfl rfl rfl rfl
  have hnew : wordAt (p9Message .twalk tag (writeU32 fid ++ writeU32 newfid ++ names)) 11 =
      u32 newfid := Mem.load32_of_bytes rfl rfl rfl rfl
  rw [← hfid, ← hnew]
  exact ⟨_, rfl⟩

theorem readRequest_clunk (tag fid : ℕ) :
    readRequest (p9Message .tclunk tag (writeU32 fid)) = .clunk (u32 fid) := by
  have hfid : wordAt (p9Message .tclunk tag (writeU32 fid)) 7 = u32 fid :=
    Mem.load32_of_bytes rfl rfl rfl rfl
  rw [← hfid]
  rfl

theorem readRequest_access (h : type ∈ accessTypes) (tag fid : ℕ) (body : List UInt8) :
    readRequest (p9Message type tag (writeU32 fid ++ body)) = .access type (u32 fid) := by
  have hfid : wordAt (p9Message type tag (writeU32 fid ++ body)) 7 = u32 fid :=
    Mem.load32_of_bytes rfl rfl rfl rfl
  rw [← hfid]
  simp only [accessTypes, List.mem_cons, List.not_mem_nil, or_false] at h
  rcases h with rfl | rfl | rfl | rfl <;> rfl

namespace P9

variable {τ : Type} {s s' : P9 (P9Server τ)} {root fid newfid : ℕ} {v : Visit}

/-- One request has been sent. -/
structure Asked (s s' : P9 (P9Server τ)) (r : P9Request) : Prop where
  nextFid : s'.nextFid = s.nextFid
  initialized : s'.initialized = s.initialized
  log : s'.link.log = ⟨r, s.link.bound, s.link.walked⟩ :: s.link.log

/-- What comes of a walk. -/
structure Walked (s s' : P9 (P9Server τ)) (fid newfid : ℕ) (r : ℤ) : Prop where
  asked : ∃ n, s.Asked s' (.walk fid newfid n)
  granted : r = 0 → fid ∈ s.link.bound ∧ (newfid ∈ s.link.bound → newfid = fid)
  bound : s'.link.walked = true ∧ r = 0 ∧ s'.link.bound = insert newfid s.link.bound ∨
    s'.link.walked = false ∧ s'.link.bound = s.link.bound

/-- What comes of a request that names one fid. -/
structure Accessed (s s' : P9 (P9Server τ)) (type : P9Type) (fid : ℕ) : Prop extends
    Asked s s' (.access type fid) where
  bound : s'.link.bound = s.link.bound
  walked : s'.link.walked = s.link.walked

/-- What comes of a clunk. -/
structure Clunked (s s' : P9 (P9Server τ)) (fid : ℕ) : Prop extends Asked s s' (.clunk fid) where
  bound : s'.link.bound = s.link.bound.erase fid
  walked : s'.link.walked = s.link.walked

/-- Requests that name `fid` and leave the table alone. -/
inductive Uses (fid : ℕ) : P9 (P9Server τ) → P9 (P9Server τ) → Prop where
  | refl {s : P9 (P9Server τ)} : Uses fid s s
  | tail {s s₁ s' : P9 (P9Server τ)} {type : P9Type} :
      Uses fid s s₁ → s₁.Accessed s' type fid → Uses fid s s'

theorem Uses.kept (h : Uses fid s s') :
    s'.link.bound = s.link.bound ∧ s'.link.walked = s.link.walked ∧ s'.nextFid = s.nextFid ∧
      s'.initialized = s.initialized := by
  induction h with
  | refl => exact ⟨rfl, rfl, rfl, rfl⟩
  | tail _ hacc ih =>
    obtain ⟨h1, h2, h3, h4⟩ := ih
    exact ⟨hacc.bound.trans h1, hacc.walked.trans h2, hacc.nextFid.trans h3,
      hacc.initialized.trans h4⟩

/-- What comes of `visit`. -/
inductive Visited (root fid : ℕ) (s : P9 (P9Server τ)) : P9 (P9Server τ) → Visit → Prop where
  | refused {s' : P9 (P9Server τ)} {r : ℤ} (hwalk : s.Walked s' root fid r) (hr : r ≠ 0) :
      Visited root fid s s' .notWalked
  | tried {s₁ s' : P9 (P9Server τ)} {v : Visit} (hwalk : s.Walked s₁ root fid 0)
      (hopen : s₁.Accessed s' .tlopen fid) (hv : v ≠ .notWalked)
      (hmem : v = .opened → fid ∈ s₁.link.bound) : Visited root fid s s' v

/-- How an operation ends after `visit`: a fid walked to is clunked; only path completion keeps it
when it was not opened. -/
inductive Finished (completing : Bool) (fid : ℕ) :
    Visit → P9 (P9Server τ) → P9 (P9Server τ) → Prop where
  | notWalked {s : P9 (P9Server τ)} : Finished completing fid .notWalked s s
  | kept {s : P9 (P9Server τ)} (h : completing = true) : Finished completing fid .notOpened s s
  | closed {v : Visit} {s s₁ s' : P9 (P9Server τ)} (hv : v ≠ .notWalked)
      (hopen : completing = true → v = .opened) (huses : Uses fid s s₁)
      (hclunk : s₁.Clunked s' fid) : Finished completing fid v s s'

/-- The fids bound after `visit`. -/
theorem Visited.bound (h : Visited root fid s s' v) :
    v = .notWalked ∧ s'.link.bound = s.link.bound ∨
    v ≠ .notWalked ∧ root ∈ s.link.bound ∧ (fid ∈ s.link.bound → fid = root) ∧
      (s'.link.walked = true ∧ s'.link.bound = insert fid s.link.bound ∨
        s'.link.walked = false ∧ s'.link.bound = s.link.bound) := by
  cases h with
  | refused hwalk hr =>
    rcases hwalk.bound with ⟨-, hr0, -⟩ | ⟨-, hb⟩
    · exact absurd hr0 hr
    · exact Or.inl ⟨rfl, hb⟩
  | tried hwalk hopen hv hmem =>
    obtain ⟨hroot, hfid⟩ := hwalk.granted rfl
    refine Or.inr ⟨hv, hroot, hfid, ?_⟩
    rw [hopen.walked, hopen.bound]
    exact hwalk.bound.imp (fun h => ⟨h.1, h.2.2⟩) id

/-- **When an operation leaves the table as it was.** -/
theorem Finished.bound_iff {s1 : P9 (P9Server τ)}
    (hvisit : Visited root fid s s1 v) (hfin : Finished completing fid v s1 s')
    (hne : completing = true → fid ≠ root) : s'.link.bound = s.link.bound ↔
      ¬ (v ≠ .notWalked ∧ fid = root ∨
        completing = true ∧ v = .notOpened ∧ s1.link.walked = true) := by
  have hcases := hvisit.bound
  cases hfin with
  | notWalked =>
    obtain ⟨-, hb⟩ | ⟨hv, -⟩ := hcases
    · exact iff_of_true hb (by simp)
    · exact absurd rfl hv
  | kept hcomp =>
    obtain ⟨hv, -⟩ | ⟨-, hroot, hfid, hb⟩ := hcases
    · cases hv
    have hmem : fid ∉ s.link.bound := fun h => hne hcomp (hfid h)
    rcases hb with ⟨hw, hb⟩ | ⟨hw, hb⟩
    · refine iff_of_false (fun heq => hmem ?_) (by simp [hcomp, hw])
      rw [← heq, hb]
      exact Finset.mem_insert_self _ _
    · exact iff_of_true hb (by simp [hne hcomp, hw])
  | closed hv hopen huses hclunk =>
    obtain ⟨hv', -⟩ | ⟨-, hroot, hfid, hb⟩ := hcases
    · exact absurd hv' hv
    -- whether the walk had bound it or not, the fid is released
    have hfinal : s'.link.bound = s.link.bound.erase fid := by
      rw [hclunk.bound, huses.kept.1]
      rcases hb with ⟨-, hb⟩ | ⟨-, hb⟩
      · rw [hb, Finset.erase_insert_eq_erase]
      · rw [hb]
    have hopened : completing = true → v ≠ .notOpened := fun h hv => by
      rw [hopen h] at hv
      cases hv
    rw [hfinal, Finset.erase_eq_self]
    constructor
    · rintro hmem (⟨-, rfl⟩ | ⟨h1, h2, -⟩)
      · exact hmem hroot
      · exact hopened h1 h2
    · exact fun h hmem => h (Or.inl ⟨hv, hfid hmem⟩)

/-! ## Live requests -/

theorem Asked.live {r : P9Request} (h : s.Asked s' r) (hlive : s.link.Live)
    (hr : P9Event.Live ⟨r, s.link.bound, s.link.walked⟩) : s'.link.Live := by
  intro e he
  rw [h.log] at he
  rcases List.mem_cons.mp he with rfl | he
  · exact hr
  · exact hlive e he

theorem Uses.live (h : Uses fid s s') (hlive : s.link.Live)
    (hfid : s.link.walked = true → fid ∈ s.link.bound) : s'.link.Live := by
  induction h with
  | refl => exact hlive
  | tail huses hacc ih =>
    obtain ⟨hb, hw, -⟩ := huses.kept
    exact hacc.toAsked.live ih (by rw [hb, hw]; exact hfid)

theorem Visited.live (h : Visited root fid s s' v) (hlive : s.link.Live)
    (hroot : root ∈ s.link.bound) (hfid : fid ∉ s.link.bound) :
    s'.link.Live ∧ (s'.link.walked = true → fid ∈ s'.link.bound) := by
  have hwalk : ∀ {s1 : P9 (P9Server τ)} {r : ℤ}, s.Walked s1 root fid r →
      s1.link.Live ∧ (s1.link.walked = true → fid ∈ s1.link.bound) := by
    intro s1 r hw
    obtain ⟨n, hasked⟩ := hw.asked
    refine ⟨hasked.live hlive ⟨hroot, hfid⟩, fun hwalked => ?_⟩
    rcases hw.bound with ⟨-, -, hb⟩ | ⟨hf, -⟩
    · rw [hb]
      exact Finset.mem_insert_self _ _
    · rw [hf] at hwalked
      cases hwalked
  cases h with
  | refused hw _ => exact hwalk hw
  | tried hw hopen _ _ =>
    obtain ⟨hlive1, hfid1⟩ := hwalk hw
    refine ⟨hopen.toAsked.live hlive1 hfid1, ?_⟩
    rw [hopen.walked, hopen.bound]
    exact hfid1

theorem Finished.live (h : Finished completing fid v s s')
    (hlive : s.link.Live) (hfid : s.link.walked = true → fid ∈ s.link.bound) : s'.link.Live := by
  cases h with
  | notWalked => exact hlive
  | kept _ => exact hlive
  | closed _ _ huses hclunk =>
    obtain ⟨hb, hw, -⟩ := huses.kept
    exact hclunk.toAsked.live (huses.live hlive hfid) (by rw [hb, hw]; exact hfid)

/-- The other statics of the client. -/
theorem Visited.statics (h : Visited root fid s s' v) :
    s'.nextFid = s.nextFid ∧ s'.initialized = s.initialized := by
  cases h with
  | refused hw _ =>
    obtain ⟨n, hasked⟩ := hw.asked
    exact ⟨hasked.nextFid, hasked.initialized⟩
  | tried hw hopen _ _ =>
    obtain ⟨n, hasked⟩ := hw.asked
    exact ⟨hopen.nextFid.trans hasked.nextFid, hopen.initialized.trans hasked.initialized⟩

theorem Finished.statics (h : Finished completing fid v s s') :
    s'.nextFid = s.nextFid ∧ s'.initialized = s.initialized := by
  cases h with
  | notWalked => exact ⟨rfl, rfl⟩
  | kept _ => exact ⟨rfl, rfl⟩
  | closed _ _ huses hclunk =>
    obtain ⟨-, -, hn, hi⟩ := huses.kept
    exact ⟨hclunk.nextFid.trans hn, hclunk.initialized.trans hi⟩

variable [P9Backend τ]

/-! ## The requests of the client -/

theorem rpc_spec (s : P9 (P9Server τ)) (msg : List UInt8) :
    ∃ s', s.rpc msg = .ok (s', true) ∧ s'.link = (s.link.handle msg).1 ∧
      s'.replyType = (s.link.handle msg).2.1 ∧ s.Asked s' (readRequest msg) := by
  refine ⟨_, rfl, rfl, ?_, rfl, rfl, s.link.handle_log _⟩
  simp only [replyType]
  rw [Mem.paste_of_mem (Nat.zero_le _) (by simp [replyTo, writeU32])]
  rfl

theorem request_spec (s : P9 (P9Server τ)) (type : P9Type) (body : List UInt8) :
    ∃ s', s.request type body = .ok (s', true) ∧
      s'.link = (s.link.handle (p9Message type s.tag body)).1 ∧
      s'.replyType = (s.link.handle (p9Message type s.tag body)).2.1 ∧
      s.Asked s' (readRequest (p9Message type s.tag body)) := by
  obtain ⟨s', hrpc, hlink, htype, hasked⟩ :=
    rpc_spec { s with tag := u16 (s.tag + 1) } (p9Message type s.tag body)
  exact ⟨s', hrpc, hlink, htype, hasked.nextFid, hasked.initialized, hasked.log⟩

/-- The handshake forgets all fids. -/
theorem p9Version_spec (s : P9 (P9Server τ)) :
    ∃ s' r, s.p9Version = .ok (s', r) ∧ s.Asked s' .version ∧ s'.link.bound = ∅ := by
  obtain ⟨s', hrpc, hlink, -, hasked⟩ := s.rpc_spec (p9Message .tversion p9Notag
    (writeU32 p9MaxMsgSize ++ writeString [57, 80, 50, 48, 48, 48, 46, 76]))
  refine ⟨s', _, by rw [p9Version, hrpc]; rfl, hasked, ?_⟩
  rw [hlink]
  exact s.link.handle_version rfl

theorem p9Attach_spec (s : P9 (P9Server τ)) (uname aname : List UInt8) :
    ∃ s' r, s.p9Attach uname aname = .ok (s', r) ∧ s.Asked s' (.attach 0) ∧
      (0 ≤ r → s'.link.bound = insert 0 s.link.bound) := by
  obtain ⟨s', hreq, hlink, hcode, hasked⟩ := s.request_spec .tattach
    (writeU32 0 ++ writeU32 p9Nofid ++ writeString uname ++ writeString aname ++ writeU32 0)
  refine ⟨s', _, by rw [p9Attach, hreq]; rfl, hasked, fun hr => ?_⟩
  have hgranted : s'.replyType = P9Type.rattach.code := by
    by_contra hne
    rw [if_neg fun h => hne h.2] at hr
    exact absurd hr (by decide)
  rw [hlink]
  exact s.link.handle_attach rfl (hcode.symm.trans hgranted)

theorem p9Walk_spec (s : P9 (P9Server τ)) (hf : fid < 4294967296) (hn : newfid < 4294967296)
    (path : Option (List UInt8)) :
    ∃ s' r, s.p9Walk fid newfid path = .ok (s', r) ∧ s.Walked s' fid newfid r := by
  obtain ⟨names, hwalk⟩ : ∃ names, s.p9Walk fid newfid path = typeCheck .rwalk
      (s.request .twalk (writeU32 fid ++ writeU32 newfid ++ names)) := ⟨_, rfl⟩
  obtain ⟨s', hreq, hlink, htype, hasked⟩ :=
    s.request_spec .twalk (writeU32 fid ++ writeU32 newfid ++ names)
  obtain ⟨n, hread⟩ := readRequest_walk s.tag fid newfid names
  rw [u32_of_lt hf, u32_of_lt hn] at hread
  obtain ⟨hgrant, hbound⟩ := P9Server.handle_walk s.link hread
  rw [hread] at hasked
  rw [← hlink, ← htype] at hbound
  rw [← htype] at hgrant
  refine ⟨s', _, by rw [hwalk, hreq]; rfl, ⟨n, hasked⟩, fun hr => hgrant ?_, ?_⟩
  · by_contra hne
    rw [if_neg (by simp [hne])] at hr
    cases hr
  · rcases hbound with ⟨hw, hcode, hb⟩ | hb
    · exact Or.inl ⟨hw, if_pos ⟨rfl, hcode⟩, hb⟩
    · exact Or.inr hb

theorem access_spec (s : P9 (P9Server τ)) (htype : type ∈ accessTypes)
    (hf : fid < 4294967296) (body : List UInt8) :
    ∃ s', s.request type (writeU32 fid ++ body) = .ok (s', true) ∧ s.Accessed s' type fid ∧
      (s'.replyType = type.code + 1 → fid ∈ s.link.bound) := by
  obtain ⟨s', hreq, hlink, hcode, hasked⟩ := s.request_spec type (writeU32 fid ++ body)
  have hread := readRequest_access htype s.tag fid body
  rw [u32_of_lt hf] at hread
  obtain ⟨hbound, hwalked, hmem⟩ := P9Server.handle_access s.link htype hread
  rw [hread] at hasked
  rw [← hlink] at hbound hwalked
  rw [← hcode] at hmem
  exact ⟨s', hreq, ⟨hasked, hbound, hwalked⟩, hmem⟩

theorem p9Open_spec (s : P9 (P9Server τ)) (hf : fid < 4294967296) (flags : ℕ) :
    ∃ s' r, s.p9Open fid flags = .ok (s', r) ∧ s.Accessed s' .tlopen fid ∧
      (r = 0 → fid ∈ s.link.bound) := by
  obtain ⟨s', hreq, hacc, hmem⟩ := s.access_spec (show P9Type.tlopen ∈ accessTypes by decide) hf
    (writeU32 flags)
  refine ⟨s', _, by rw [p9Open, hreq]; rfl, hacc, fun hr => hmem ?_⟩
  by_contra hne
  rw [if_neg fun h => hne h.2] at hr
  cases hr

theorem transfer_spec (s : P9 (P9Server τ)) (expected : P9Type)
    (htype : type ∈ accessTypes) (hf : fid < 4294967296) (offset count : ℕ) :
    ∃ s' r, s.transfer type expected fid offset count = .ok (s', r) ∧ s.Accessed s' type fid := by
  obtain ⟨s', hreq, hacc, -⟩ := s.access_spec htype hf (writeU64 offset ++ writeU32 count)
  rw [← List.append_assoc] at hreq
  simp only [transfer, hreq]
  split_ifs
  · exact ⟨s', _, rfl, hacc⟩
  · exact ⟨s', _, rfl, hacc⟩

theorem p9GetFileSize_spec (s : P9 (P9Server τ)) (hf : fid < 4294967296) :
    ∃ s' r, s.p9GetFileSize fid = .ok (s', r) ∧ s.Accessed s' .tgetattr fid := by
  obtain ⟨s', hreq, hacc, -⟩ := s.access_spec (show P9Type.tgetattr ∈ accessTypes by decide) hf
    (writeU64 4095)
  exact ⟨s', _, by rw [p9GetFileSize, hreq], hacc⟩

theorem p9Clunk_spec (s : P9 (P9Server τ)) (hf : fid < 4294967296) :
    ∃ s', s.p9Clunk fid = .ok s' ∧ s.Clunked s' fid := by
  obtain ⟨s', hreq, hlink, -, hasked⟩ := s.request_spec .tclunk (writeU32 fid)
  have hread := readRequest_clunk s.tag fid
  rw [u32_of_lt hf] at hread
  obtain ⟨hbound, hwalked⟩ := P9Server.handle_clunk s.link hread
  rw [hread] at hasked
  rw [← hlink] at hbound hwalked
  exact ⟨s', by rw [p9Clunk, hreq], hasked, hbound, hwalked⟩

/-! ## Walking to a fid and closing it -/

theorem visit_spec (s : P9 (P9Server τ)) {root : ℕ} (hr : root < 4294967296)
    (hf : fid < 4294967296) (path : List UInt8) :
    ∃ s' v, s.visit root fid path = .ok (s', v) ∧ Visited root fid s s' v := by
  obtain ⟨s1, r, hwalk, hwalked⟩ := s.p9Walk_spec hr hf (some path)
  simp only [visit, hwalk]
  by_cases hr0 : r = 0
  · subst hr0
    obtain ⟨s2, r, hopen, hacc, hmem⟩ := s1.p9Open_spec hf 0
    rw [if_neg (by decide), hopen]
    refine ⟨s2, _, rfl, .tried hwalked hacc ?_ fun hv => hmem ?_⟩
    · split_ifs <;> exact Visit.noConfusion
    · by_contra hne
      rw [if_pos hne] at hv
      cases hv
  · rw [if_pos hr0]
    exact ⟨s1, _, rfl, .refused hwalked hr0⟩

end P9

end PenOS
