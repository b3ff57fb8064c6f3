/-
# What a reply does: `handle_read` of the two sessions to the end

After the copy the two functions read the answer out of the tree in the same
words: the `result`, for a failure the `cmd`, for a failed login the `message`.
Then the account's record is changed and the device gets its `.._END` status.
The vote session catches a `json_parser_error` on the way and takes the reply
for malformed, the daily session does not; neither catches anything else.

On one text the two take a reply for the same (`handleReadWhole_alike`). But a length
that is no number, or a negative one, leaves both functions with an exception,
and so does a missing field; malformed JSON leaves the daily one. Built with
`_DEBUG`, both print the ip of the peer, and `remote_endpoint()` throws if the
peer has reset or the socket has been closed. A length past the end of the buffer
is copied all the same, and the call is undefined (`reply_handled_iff`). A reply
that begins with `abcd` ends the process (`reply_throws`).

Key definitions: `copyJson`, `debugPrint`, `decodeReply`, `WxVoteSession.handleReadWhole`,
`KeepWxAccountSession.handleReadWhole`, `HasFields`, `SameAnswer`.
Key theorems: `jsonData_of_replyJson`, `decodeReply_blank`, `reply_handled_iff`,
`handleReadWhole_alike`, `Server.run_answered`, `reply_throws`.
-/
import ScheduleCenter.PropertyTree
import ScheduleCenter.Commands
import ScheduleCenter.Steps

namespace ScheduleCenter

open Outcome

/-! ### The answer in a reply -/

/-- The copy out of `buffer_`. -/
def copyJson (buffer : Str) : Except Exn Str := do
  let ilen ← orThrow (lexicalCast (cStr (buffer.take 4))) .badLexicalCast
  -- `new char[ilen + 1]`, then `memcpy` of `ilen` bytes
  if ilen < -1 then throw .badAlloc
  if ilen = -1 then throw .undefined
  -- the copy would run over the end of the buffer
  if bufferSize < 4 + ilen then throw .undefined
  return cStr ((buffer.drop 4).take ilen.toNat)

/-- The text that is copied: its length is a number that is not negative, and it
ends inside the buffer. -/
def replyJson (buffer : Str) : Option Str :=
  (lexicalCast (cStr (buffer.take 4))).bind fun ilen =>
    if 0 ≤ ilen ∧ 4 + ilen ≤ bufferSize then some (cStr ((buffer.drop 4).take ilen.toNat)) else none

/-- A text that ends inside the buffer does not depend on what is behind. -/
theorem jsonData_of_replyJson {behind buffer json : Str} (hlen : buffer.length = bufferSize)
    (h : replyJson buffer = some json) : jsonData behind buffer = some json := by
  obtain ⟨ilen, hilen, hjson⟩ := Option.bind_eq_some_iff.mp h
  split_ifs at hjson with hinside
  have hdrop : (buffer.drop 4).length = bufferSize - 4 := by rw [List.length_drop, hlen]
  rw [jsonData, hilen, Option.bind_some, if_pos hinside.1, List.take_append_of_le_length (by omega)]
  exact hjson

/-- `_DEBUG_PRINTF` with the ip of the peer: with `_DEBUG` its arguments are
evaluated, and `remote_endpoint()` throws if there is no `peer` any more. -/
def debugPrint (debug peer : Bool) : Except Exn Unit := if debug && !peer then throw .systemError else pure ()

@[simp]
theorem ends_debugPrint {debug peer : Bool} {P : Unit → Prop} :
    Ends (debugPrint debug peer) P ↔ (debug → peer) ∧ P () := by
  cases debug <;> cases peer <;> simp [debugPrint]

/-- The messages of a login that has failed for good. -/
def fatalMessages : List Str :=
  [Str.of "Illegal account", Str.of "User or password wrong", Str.of "Need unlock", Str.of "Need SMS verify",
    Str.of "Need codes"]

def keyResult : Str := Str.of "result"
def keyCmd : Str := Str.of "cmd"
def keyMessage : Str := Str.of "message"

/-- What the tree of a reply says. -/
def readVerdict (pt : Ptree) : Except Exn Verdict := do
  if (← pt.getInt keyResult) = 0 then return .success
  if (← pt.getString keyCmd) = cmdWxLogin then
    if (← pt.getString keyMessage) ∈ fatalMessages then return .fatal
  return .other

variable (R : JsonReader Ptree) (debug peer : Bool)

/-- What both functions read a reply for; `ss` is unread on the stream. -/
def decodeReply (ss buffer : Str) : Except Exn Verdict := do
  let json ← copyJson buffer
  let pt ← orThrow (R.read (ss ++ json)).1 .jsonParserError
  debugPrint debug peer
  readVerdict pt

/-! ### The two functions -/

/-- What is done with the verdict: the account's setter, `add_suc_count` for a
vote, `set_idle_account`. -/
def Server.answered (s : Server) (kind : Kind) (acc : Str) (v : Verdict) : Server :=
  let s := s.withAccounts (s.accounts.recordReply kind acc v)
  let s := if v = .success then kind.task.elim s fun k => s.addSucCount k 1 else s
  s.withAccounts (s.accounts.setIdleAccount acc)

/-- `wx_vote_session::handle_read` on a reply, in a session of task `k`: what
it takes the reply for, `none` if it is malformed, and the server after it. -/
def WxVoteSession.handleReadWhole (ss buffer ip : Str) (k : ℕ) (url acc : Str) (s : Server) :
    Except Exn (Option Verdict × Server) := do
  let v ← catching Exn.isJsonParserError none (some <$> decodeReply R debug peer ss buffer)
  -- the handler prints as well
  if v = none then debugPrint debug peer
  return (v, (v.elim s (s.answered (.vote k url) acc)).setStatus ip .wxVoteEnd)

/-- `keep_wx_account_session::handle_read` on a reply. -/
def KeepWxAccountSession.handleReadWhole (ss buffer ip acc : Str) (s : Server) :
    Except Exn (Option Verdict × Server) := do
  let v ← decodeReply R debug peer ss buffer
  return (some v, (s.answered .daily acc v).setStatus ip .dailyTaskEnd)

/-! ### When a reply is read -/

/-- The fields that `handle_read` asks for are there. -/
def HasFields (pt : Ptree) : Prop :=
  ∃ result, pt.int keyResult = some result ∧
    (result ≠ 0 → ∃ cmd, pt.str keyCmd = some cmd ∧ (cmd = cmdWxLogin → ∃ message, pt.str keyMessage = some message))

/-- The tree reports a login that has failed for good. -/
def FatalLogin (pt : Ptree) : Prop :=
  pt.str keyCmd = some cmdWxLogin ∧ ∃ message ∈ fatalMessages, pt.str keyMessage = some message

/-- Two trees that say the same to `handle_read`. -/
def SameAnswer (p q : Ptree) : Prop :=
  (p.int keyResult = some 0 ↔ q.int keyResult = some 0) ∧
    (p.int keyResult ≠ some 0 → (FatalLogin p ↔ FatalLogin q))

theorem SameAnswer.refl (pt : Ptree) : SameAnswer pt pt := ⟨Iff.rfl, fun _ => Iff.rfl⟩

theorem ends_copyJson {buffer : Str} {P : Str → Prop} :
    Ends (copyJson buffer) P ↔ ∃ json, replyJson buffer = some json ∧ P json := by
  unfold copyJson replyJson
  rcases lexicalCast (cStr (buffer.take 4)) with _ | ilen
  · simp
  · by_cases hneg : ilen < -1
    · simp [hneg, show ¬ 0 ≤ ilen by omega]
    · by_cases hone : ilen = -1
      · simp [hone]
      · by_cases hover : (bufferSize : ℤ) < 4 + ilen
        · simp [show ¬ 4 + ilen ≤ (bufferSize : ℤ) by omega]
        · simp [hone, show -1 ≤ ilen by omega, show 0 ≤ ilen by omega,
            show 4 + ilen ≤ (bufferSize : ℤ) by omega]

/-- The verdict of a tree with the fields. -/
theorem readVerdict_eq_ok {pt : Ptree} {v : Verdict} :
    readVerdict pt = .ok v ↔ HasFields pt ∧ (pt.int keyResult = some 0 ↔ v = .success) ∧
      (pt.int keyResult ≠ some 0 → (FatalLogin pt ↔ v = .fatal)) := by
  rw [← ends_eq_iff]
  simp only [readVerdict, HasFields, FatalLogin, ends_bind, ends_ite, ends_pure, Ptree.ends_getInt,
    Ptree.ends_getString]
  -- the function reads no further than it has to
  rcases pt.int keyResult with _ | result
  · simp
  by_cases hresult : result = 0
  · simp [hresult, eq_comm]
  rcases pt.str keyCmd with _ | cmd
  · simp [hresult]
  by_cases hcmd : cmd = cmdWxLogin
  · rcases pt.str keyMessage with _ | message
    · simp [hresult, hcmd]
    · by_cases hmessage : message ∈ fatalMessages
      · rcases v <;> simp [hresult, hcmd, hmessage]
      · rcases v <;> simp [hresult, hcmd, hmessage]
  · rcases v <;> simp [hresult, hcmd]

theorem decodeReply_eq_ok {ss buffer : Str} {v : Verdict} :
    decodeReply R debug peer ss buffer = .ok v ↔ ∃ json, replyJson buffer = some json ∧
      ∃ pt, (R.read (ss ++ json)).1 = some pt ∧ (debug → peer) ∧ readVerdict pt = .ok v := by
  simp only [← ends_eq_iff, decodeReply, ends_bind, ends_copyJson, ends_orThrow, ends_debugPrint]

/-- White space that is left on a stream makes no difference. -/
theorem decodeReply_blank {ss : Str} (hss : ∀ c ∈ ss, isBlank c) (buffer : Str) :
    decodeReply R debug peer ss buffer = decodeReply R debug peer [] buffer := by
  simp only [decodeReply, R.read_blank ss _ hss, List.nil_append]

/-- When two trees have one verdict. -/
theorem readVerdict_same_iff {p q : Ptree} :
    (∃ v, readVerdict p = .ok v ∧ readVerdict q = .ok v) ↔ HasFields p ∧ HasFields q ∧ SameAnswer p q := by
  simp only [readVerdict_eq_ok, SameAnswer]
  constructor
  · rintro ⟨v, ⟨hp, hpzero, hpfatal⟩, hq, hqzero, hqfatal⟩
    have hzero := hpzero.trans hqzero.symm
    exact ⟨hp, hq, hzero, fun h0 => (hpfatal h0).trans (hqfatal (mt hzero.mpr h0)).symm⟩
  · rintro ⟨hp, hq, hzero, hfatal⟩
    by_cases h0 : p.int keyResult = some 0
    · exact ⟨.success, ⟨hp, by simp [h0]⟩, hq, by simp [hzero.mp h0]⟩
    · have h0' := mt hzero.mpr h0
      by_cases hf : FatalLogin p
      · have hf' := (hfatal h0).mp hf
        exact ⟨.fatal, ⟨hp, by simp [h0, hf]⟩, hq, by simp [h0', hf']⟩
      · have hf' := mt (hfatal h0).mpr hf
        exact ⟨.other, ⟨hp, by simp [h0, hf]⟩, hq, by simp [h0', hf']⟩

/-- When both functions read a reply to the end and for the same. -/
theorem decodeReply_same_iff {peerV peerD : Bool} {ssV ssD bufferV bufferD : Str} :
    (∃ v, decodeReply R debug peerV ssV bufferV = .ok v ∧ decodeReply R debug peerD ssD bufferD = .ok v) ↔
      (debug → peerV ∧ peerD) ∧ ∃ jsonV jsonD ptV ptD, replyJson bufferV = some jsonV ∧ replyJson bufferD = some jsonD ∧
        (R.read (ssV ++ jsonV)).1 = some ptV ∧ (R.read (ssD ++ jsonD)).1 = some ptD ∧
        HasFields ptV ∧ HasFields ptD ∧ SameAnswer ptV ptD := by
  simp only [decodeReply_eq_ok]
  constructor
  · rintro ⟨v, ⟨jsonV, hjV, ptV, hptV, hpV, hvV⟩, jsonD, hjD, ptD, hptD, hpD, hvD⟩
    exact ⟨fun h => ⟨hpV h, hpD h⟩, jsonV, jsonD, ptV, ptD, hjV, hjD, hptV, hptD,
      readVerdict_same_iff.mp ⟨v, hvV, hvD⟩⟩
  · rintro ⟨hp, jsonV, jsonD, ptV, ptD, hjV, hjD, hptV, hptD, h⟩
    obtain ⟨v, hvV, hvD⟩ := readVerdict_same_iff.mpr h
    exact ⟨v, ⟨jsonV, hjV, ptV, hptV, fun h => (hp h).1, hvV⟩, jsonD, hjD, ptD, hptD, fun h => (hp h).2, hvD⟩

/-! ### The functions as steps of a session -/

namespace Server

variable {s s₁ : Server} {i : ℕ} {t : Thread} {acc : Str}

/-- A move of thread `i`, as a step of the server. -/
theorem run_moves_cons {inp : Input} {inps : List Input} {pc : Pc} {b : Bool} (hdead : s.dead = false)
    (ht : s.threads[i]? = some t) (h : s.sessionStep t t.pc inp = some (pc, b, s₁)) :
    Trans.run step s (moves i (inp :: inps)) =
      Trans.run step { s₁ with threads := s₁.threads.set i { t with pc := pc, sock := b } } (moves i inps) := by
  simp [Trans.run, moves, step, hdead, ht, h]

/-- The end of `handle_read`: the account goes back and the device gets its
status. -/
theorem run_putBack (hdead : s.dead = false) (ht : s.threads[i]? = some t) (hpc : t.pc = .putBack acc) :
    Trans.run step s (moves i [.go, .go]) =
      some { (s.withAccounts (s.accounts.setIdleAccount acc)).setStatus t.ip t.kind.busyEnd with
        threads := s.threads.set i { t with pc := .draw } } := by
  have hi : i < s.threads.length := (List.getElem?_eq_some_iff.mp ht).1
  refine (run_moves_cons hdead ht (by rw [hpc]; rfl)).trans ?_
  refine (run_moves_cons ?_ (List.getElem?_set_self hi) rfl).trans ?_
  · exact hdead
  · simp [Trans.run, moves]

/-- The beginning: the account's setter. -/
theorem run_record (v : Verdict) (inps : List Input) (hdead : s.dead = false) (ht : s.threads[i]? = some t)
    (hpc : t.pc = .sent acc) :
    Trans.run step s (moves i (.reply (.verdict v) :: .go :: inps)) =
      Trans.run step { s.withAccounts (s.accounts.recordReply t.kind acc v) with
        threads := s.threads.set i { t with pc := afterRecord t.kind acc v } } (moves i inps) := by
  have hi : i < s.threads.length := (List.getElem?_eq_some_iff.mp ht).1
  refine (run_moves_cons hdead ht (by rw [hpc]; rfl)).trans ?_
  refine (run_moves_cons ?_ (List.getElem?_set_self hi) rfl).trans ?_
  · exact hdead
  · simp

/-- No vote is counted. -/
theorem run_answered_putBack {v : Verdict} (hdead : s.dead = false) (ht : s.threads[i]? = some t)
    (hpc : t.pc = .sent acc) (hafter : afterRecord t.kind acc v = .putBack acc)
    (hanswered : s.answered t.kind acc v = (s.withAccounts (s.accounts.recordReply t.kind acc v)).withAccounts
      ((s.accounts.recordReply t.kind acc v).setIdleAccount acc)) :
    Trans.run step s (moves i [.reply (.verdict v), .go, .go, .go]) =
      some { (s.answered t.kind acc v).setStatus t.ip t.kind.busyEnd with
        threads := s.threads.set i { t with pc := .draw } } := by
  have hi : i < s.threads.length := (List.getElem?_eq_some_iff.mp ht).1
  rw [run_record v [.go, .go] hdead ht hpc, hafter, hanswered]
  refine (run_putBack ?_ (List.getElem?_set_self hi) rfl).trans ?_
  · exact hdead
  · simp

/-- What `handle_read` does with a verdict, the session does in steps. -/
theorem run_answered (v : Verdict) (hdead : s.dead = false) (ht : s.threads[i]? = some t) (hpc : t.pc = .sent acc) :
    ∃ inps, Trans.run step s (moves i (.reply (.verdict v) :: inps)) =
      some { (s.answered t.kind acc v).setStatus t.ip t.kind.busyEnd with
        threads := s.threads.set i { t with pc := .draw } } := by
  have hi : i < s.threads.length := (List.getElem?_eq_some_iff.mp ht).1
  rcases hkind : t.kind with ⟨k, url⟩ | _
  · rcases v
    · -- one more step: the vote is counted
      refine ⟨[.go, .go, .go, .go], (run_record .success [.go, .go, .go] hdead ht hpc).trans ?_⟩
      refine (run_moves_cons ?_ (List.getElem?_set_self hi) (by simp only [sessionStep, hkind]; rfl)).trans ?_
      · exact hdead
      refine (run_putBack ?_ (List.getElem?_set_self (by simpa using hi)) rfl).trans ?_
      · exact hdead
      · simp [answered, hkind, Kind.task]
        rfl
    all_goals
      rw [← hkind]
      exact ⟨_, run_answered_putBack hdead ht hpc (by rw [hkind]; rfl) (by rw [hkind]; rfl)⟩
  · rw [← hkind]
    rcases v
    all_goals exact ⟨_, run_answered_putBack hdead ht hpc (by rw [hkind]; rfl) (by rw [hkind]; rfl)⟩

end Server

/-! ### Every reply -/

section

variable {ss buffer ip acc url : Str} {k : ℕ} {s s' : Server} {v : Verdict}

theorem WxVoteSession.handleReadWhole_of_ok (h : decodeReply R debug peer ss buffer = .ok v) :
    WxVoteSession.handleReadWhole R debug peer ss buffer ip k url acc s =
      .ok (some v, (s.answered (.vote k url) acc v).setStatus ip .wxVoteEnd) := by
  rw [WxVoteSession.handleReadWhole, h]
  rfl

theorem WxVoteSession.handleReadWhole_of_malformed (h : decodeReply R debug peer ss buffer = .error .jsonParserError) :
    WxVoteSession.handleReadWhole R debug peer ss buffer ip k url acc s =
      (fun _ => (none, s.setStatus ip .wxVoteEnd)) <$> debugPrint debug peer := by
  rw [WxVoteSession.handleReadWhole, h]
  cases debugPrint debug peer <;> rfl

theorem WxVoteSession.handleReadWhole_of_error {e : Exn} (h : decodeReply R debug peer ss buffer = .error e)
    (he : e ≠ .jsonParserError) :
    WxVoteSession.handleReadWhole R debug peer ss buffer ip k url acc s = .error e := by
  have hcatch : catching Exn.isJsonParserError none (some <$> (Except.error e : Except Exn Verdict)) = .error e :=
    if_neg (by simpa [Exn.isJsonParserError] using he)
  rw [WxVoteSession.handleReadWhole, h, hcatch]
  rfl

theorem WxVoteSession.handleReadWhole_eq_ok :
    WxVoteSession.handleReadWhole R debug peer ss buffer ip k url acc s = .ok (some v, s') ↔
      decodeReply R debug peer ss buffer = .ok v ∧
        s' = (s.answered (.vote k url) acc v).setStatus ip .wxVoteEnd := by
  rcases hdecode : decodeReply R debug peer ss buffer with e | v'
  · by_cases he : e = .jsonParserError
    · rw [WxVoteSession.handleReadWhole_of_malformed R debug peer (he ▸ hdecode)]
      rcases debugPrint debug peer with e' | u
      · simp
      · simp
    · rw [WxVoteSession.handleReadWhole_of_error R debug peer hdecode he]
      simp
  · rw [WxVoteSession.handleReadWhole_of_ok R debug peer hdecode]
    constructor
    · intro h
      have hpair := Except.ok.inj h
      simp only [Prod.mk.injEq, Option.some.injEq] at hpair
      obtain ⟨rfl, rfl⟩ := hpair
      exact ⟨rfl, rfl⟩
    · rintro ⟨hv, rfl⟩
      rw [Except.ok.inj hv]

theorem KeepWxAccountSession.handleReadWhole_eq_ok {out : Option Verdict} :
    KeepWxAccountSession.handleReadWhole R debug peer ss buffer ip acc s = .ok (out, s') ↔
      ∃ v, out = some v ∧ decodeReply R debug peer ss buffer = .ok v ∧
        s' = (s.answered .daily acc v).setStatus ip .dailyTaskEnd := by
  unfold KeepWxAccountSession.handleReadWhole
  rcases decodeReply R debug peer ss buffer with e | v'
  · simp
  · simp [eq_comm]

/-- Only malformed JSON is caught, and the peer is printed then as well. -/
theorem WxVoteSession.handleReadWhole_eq_malformed :
    WxVoteSession.handleReadWhole R debug peer ss buffer ip k url acc s = .ok (none, s') ↔
      decodeReply R debug peer ss buffer = .error .jsonParserError ∧ (debug → peer) ∧
        s' = s.setStatus ip .wxVoteEnd := by
  rcases hdecode : decodeReply R debug peer ss buffer with e | v'
  · by_cases he : e = .jsonParserError
    · subst he
      rw [WxVoteSession.handleReadWhole_of_malformed R debug peer hdecode, ← ends_eq_iff, ends_map, ends_debugPrint]
      simp [eq_comm]
    · rw [WxVoteSession.handleReadWhole_of_error R debug peer hdecode he]
      simp [he]
  · rw [WxVoteSession.handleReadWhole_of_ok R debug peer hdecode]
    simp

theorem KeepWxAccountSession.handleReadWhole_eq_error {e : Exn} :
    KeepWxAccountSession.handleReadWhole R debug peer ss buffer ip acc s = .error e ↔
      decodeReply R debug peer ss buffer = .error e := by
  unfold KeepWxAccountSession.handleReadWhole
  rcases decodeReply R debug peer ss buffer with e' | v'
  · simp
  · simp

end

/-- **On one text the two functions take a reply for the same**: what the vote
session takes for malformed, the daily session throws. -/
theorem handleReadWhole_alike (ss buffer ip acc url : Str) (k : ℕ) (s : Server) :
    (∀ v, (∃ s', WxVoteSession.handleReadWhole R debug peer ss buffer ip k url acc s = .ok (some v, s')) ↔
      ∃ s', KeepWxAccountSession.handleReadWhole R debug peer ss buffer ip acc s = .ok (some v, s')) ∧
    ((∃ s', WxVoteSession.handleReadWhole R debug peer ss buffer ip k url acc s = .ok (none, s')) ↔
      (debug → peer) ∧
        KeepWxAccountSession.handleReadWhole R debug peer ss buffer ip acc s = .error .jsonParserError) := by
  constructor
  · intro v
    simp only [WxVoteSession.handleReadWhole_eq_ok, KeepWxAccountSession.handleReadWhole_eq_ok]
    simp
  · simp [WxVoteSession.handleReadWhole_eq_malformed, KeepWxAccountSession.handleReadWhole_eq_error, and_comm]

/-- **Both functions come to their end with a reply, take it for the same and
set the status, if and only if its length is a number that is not negative and
stays inside the buffer, its text is JSON and has the fields asked for, and, where
the peers are printed, both are still there.** The reply is in the two buffers in
front of what they held before. -/
theorem reply_handled_iff (peerV peerD : Bool) (received oldV oldD ssV ssD ipV ipD accV accD url : Str) (k : ℕ)
    (s : Server) :
    (∃ out sV sD,
      WxVoteSession.handleReadWhole R debug peerV ssV (Reads.fill oldV received) ipV k url accV s = .ok (out, sV) ∧
      KeepWxAccountSession.handleReadWhole R debug peerD ssD (Reads.fill oldD received) ipD accD s = .ok (out, sD) ∧
      sV.devices.getStatus ipV = .wxVoteEnd ∧ sD.devices.getStatus ipD = .dailyTaskEnd) ↔
    (debug → peerV ∧ peerD) ∧ ∃ jsonV jsonD ptV ptD,
      replyJson (Reads.fill oldV received) = some jsonV ∧ replyJson (Reads.fill oldD received) = some jsonD ∧
      (R.read (ssV ++ jsonV)).1 = some ptV ∧ (R.read (ssD ++ jsonD)).1 = some ptD ∧
      HasFields ptV ∧ HasFields ptD ∧ SameAnswer ptV ptD := by
  rw [← decodeReply_same_iff]
  constructor
  · rintro ⟨out, sV, sD, hV, hD, -, -⟩
    obtain ⟨v, rfl, hv, -⟩ := (KeepWxAccountSession.handleReadWhole_eq_ok R debug peerD).mp hD
    exact ⟨v, ((WxVoteSession.handleReadWhole_eq_ok R debug peerV).mp hV).1, hv⟩
  · rintro ⟨v, hV, hD⟩
    refine ⟨some v, _, _, (WxVoteSession.handleReadWhole_eq_ok R debug peerV).mpr ⟨hV, rfl⟩,
      (KeepWxAccountSession.handleReadWhole_eq_ok R debug peerD).mpr ⟨v, rfl, hD, rfl⟩, ?_, ?_⟩
    · exact DeviceMgr.getStatus_setStatus_self _ _ _
    · exact DeviceMgr.getStatus_setStatus_self _ _ _

/-- A reply whose length is no number. -/
def abcd : Str := Str.of "abcd"

/-- A reply with `abcd` for its length leaves both functions with an
exception. -/
theorem reply_throws : ¬ ∀ (R : JsonReader Ptree) (debug peerV peerD : Bool)
    (received oldV oldD ssV ssD ipV ipD accV accD url : Str) (k : ℕ) (s : Server), ∃ out sV sD,
      WxVoteSession.handleReadWhole R debug peerV ssV (Reads.fill oldV received) ipV k url accV s = .ok (out, sV) ∧
      KeepWxAccountSession.handleReadWhole R debug peerD ssD (Reads.fill oldD received) ipD accD s = .ok (out, sD) ∧
      sV.devices.getStatus ipV = .wxVoteEnd ∧ sD.devices.getStatus ipD = .dailyTaskEnd := by
  intro h
  -- also where nothing is printed and the peers are there
  obtain ⟨out, sV, sD, hV, -⟩ := h (okReader.map fun _ => .node [] []) false true true
    abcd [] [] [] [] [] [] [] [] [] 0 (Server.boot [] [])
  have hthrow : WxVoteSession.handleReadWhole (okReader.map fun _ => .node [] []) false true []
      (Reads.fill [] abcd) [] 0 [] [] (Server.boot [] []) = .error .badLexicalCast := rfl
  rw [hthrow] at hV
  cases hV

end ScheduleCenter
