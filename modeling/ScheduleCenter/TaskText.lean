/-
# The text of a task: from the scheduler to the sessions

A payload of the scheduler is parsed twice. `schedule_connection::on_read`
looks for two keys and puts the text of a vote task into the queue;
`main_task::do_work_queue` parses it again on the worker thread and
`wx_vote::do_task` reads the fields of the task, and
`wx_vote_session::on_connected` reads more of them on the session's thread.
Only the first of them catches an exception, and only `json_parser_error`.

Nothing is thrown if and only if the payload is no JSON, lacks one of the two
keys, or has a number for its command and with it what the command needs
(`task_contained_iff`): presence of the keys is not enough, and a vote task
needs fields that `on_read` does not look at. A vote task without a count of
votes ends the process (`vote_without_count`).

The url of a task is in base64. The decoder takes the padding for zero bits, so
the phone gets the url that was encoded if and only if no padding was needed
(`readTask_encode_iff`).

Key definitions: `ScheduleConnection.onRead`, `MainTask.doWorkQueue`, `WxVote.doTask`,
`WxVoteSession.readTask`, `Contained`.
Key theorems: `task_contained_iff`, `vote_without_count`, `readTask_encode_iff`.
-/
import ScheduleCenter.PropertyTree
import ScheduleCenter.Commands
import ScheduleCenter.Server
import ScheduleCenter.Base.Base64

namespace ScheduleCenter

open Outcome

def cmdScheWxVote : Int := 0x10000000
def cmdScheWxGetResult : Int := 0x10000001

def keyTaskCmd : Str := Str.of "task_cmd"
def keyTaskId : Str := Str.of "task_id"
def keyVotesCnt : Str := Str.of "votes_cnt"
def keyUrl : Str := Str.of "url"
def keyScript : Str := Str.of "script"
def keyMp : Str := Str.of "MP"

/-- `TASKS_INFO`, queued. -/
structure TasksInfo where
  id : Int
  description : Str
deriving DecidableEq

/-- What `on_read` does with a payload. -/
inductive SchedCall
  | nothing
  | addTask (ti : TasksInfo)
  | getResult (id : Int)
deriving DecidableEq

/-- `read_json` on a stream of its own, `none` for a `json_parser_error`. -/
abbrev ReadJson := Str → Option Ptree

variable (readJson : ReadJson)

/-- `schedule_connection::on_read`. -/
def ScheduleConnection.onRead (data : Str) : Except Exn SchedCall :=
  catching Exn.isJsonParserError .nothing do
    let pt ← orThrow (readJson (cStr data)) .jsonParserError
    if (pt.find keyTaskCmd).isNone ∨ (pt.find keyTaskId).isNone then return .nothing
    let cmd ← pt.getInt keyTaskCmd
    if cmd = cmdScheWxVote then return .addTask ⟨← pt.getInt keyTaskId, data⟩
    if cmd = cmdScheWxGetResult then return .getResult (← pt.getInt keyTaskId)
    return .nothing

/-- `kvote_ret_fmt`. -/
def kvoteRetFmt : Str := Str.of
  "\x7b\"task_id\":%1%,\"task_cmd\":%2%,\"result_code\":%3%,\"success count\":%4%,\"msg\":\"%5%\"\x7d"

/-- `wx_vote::do_task`: the result; `joined` is `success_count` when the
sessions have returned. -/
def WxVote.doTask (m : AccountMgr) (joined : Int) (pt : Ptree) : Except Exn Str := do
  let targetCount ← pt.getInt keyVotesCnt
  let voteUrl ← pt.getString keyUrl
  if (m.getIdleNotVoteCount voteUrl : Int) < targetCount then
    return format kvoteRetFmt [Decimal.signed (← pt.getInt keyTaskId), Decimal.signed (← pt.getInt keyTaskCmd),
      Decimal.signed (-1), Decimal.signed 0, Str.of "There's no too many accounts."]
  return format kvoteRetFmt [Decimal.signed (← pt.getInt keyTaskId), Decimal.signed (← pt.getInt keyTaskCmd),
    Decimal.signed 0, Decimal.signed joined, Str.of "ok"]

/-- `main_task::do_work_queue`: the new `result`. -/
def MainTask.doWorkQueue (m : AccountMgr) (joined : Int) (task result : Str) : Except Exn Str := do
  let pt ← orThrow (readJson (cStr task)) .jsonParserError
  let cmd ← pt.getInt keyTaskCmd
  if cmd = cmdScheWxVote then WxVote.doTask m joined pt else return result

/-- The beginning of `wx_vote_session::on_connected`: the script, the account
to follow and the decoded url. -/
def WxVoteSession.readTask (pt : Ptree) : Except Exn (Str × Str × Str) := do
  let script ← pt.getString keyScript
  let voteUrl ← pt.getString keyUrl
  let voteMp ← pt.getString keyMp
  let voteUrlDec ← orThrow (Base64.decode voteUrl) .dataflow
  return (script, voteMp, voteUrlDec)

/-- No exception leaves `on_read`, nor, for a vote task it queues, the
functions that get the text. -/
def Contained (data : Str) : Prop :=
  Ends (ScheduleConnection.onRead readJson data) fun call => ∀ ti, call = .addTask ti →
    (∀ m joined result, Ends (MainTask.doWorkQueue readJson m joined ti.description result) fun _ => True) ∧
    ∀ pt, readJson (cStr ti.description) = some pt → Ends (WxVoteSession.readTask pt) fun _ => True

/-- The tree has the fields of a vote task. -/
structure VoteFields (pt : Ptree) : Prop where
  taskId : ∃ n, pt.int keyTaskId = some n
  votesCnt : ∃ n, pt.int keyVotesCnt = some n
  script : ∃ w, pt.str keyScript = some w
  mp : ∃ w, pt.str keyMp = some w
  url : ∃ w, pt.str keyUrl = some w ∧ w.all Base64.inAlphabet ∧ w.length % 4 ≠ 1

/-- The tree has what its command needs. -/
def CommandFields (pt : Ptree) : Prop :=
  ∃ cmd, pt.int keyTaskCmd = some cmd ∧ (cmd = cmdScheWxVote → VoteFields pt) ∧
    (cmd = cmdScheWxGetResult → ∃ n, pt.int keyTaskId = some n)

/-! ### One function after another -/

theorem ends_doTask {m : AccountMgr} {joined : Int} {pt : Ptree} :
    Ends (WxVote.doTask m joined pt) (fun _ => True) ↔ (∃ n, pt.int keyVotesCnt = some n) ∧
      (∃ w, pt.str keyUrl = some w) ∧ (∃ n, pt.int keyTaskId = some n) ∧ ∃ n, pt.int keyTaskCmd = some n := by
  simp only [WxVote.doTask, ends_bind, ends_ite, ends_pure, Ptree.ends_getInt, Ptree.ends_getString, and_true,
    exists_and_right]
  constructor
  · rintro ⟨n, hn, w, hw, hfew, hmany⟩
    refine ⟨⟨n, hn⟩, ⟨w, hw⟩, ?_⟩
    by_cases hcount : (m.getIdleNotVoteCount w : Int) < n
    · exact hfew hcount
    · exact hmany hcount
  · rintro ⟨⟨n, hn⟩, ⟨w, hw⟩, hids⟩
    exact ⟨n, hn, w, hw, fun _ => hids, fun _ => hids⟩

theorem ends_readTask {pt : Ptree} :
    Ends (WxVoteSession.readTask pt) (fun _ => True) ↔ (∃ w, pt.str keyScript = some w) ∧
      (∃ w, pt.str keyMp = some w) ∧ ∃ w, pt.str keyUrl = some w ∧ w.all Base64.inAlphabet ∧ w.length % 4 ≠ 1 := by
  simp only [WxVoteSession.readTask, ends_bind, ends_pure, ends_orThrow, Ptree.ends_getString, and_true,
    ← Base64.decode_isSome_iff, Option.isSome_iff_exists]
  constructor
  · rintro ⟨script, hscript, url, hurl, mp, hmp, hdec⟩
    exact ⟨⟨script, hscript⟩, ⟨mp, hmp⟩, url, hurl, hdec⟩
  · rintro ⟨⟨script, hscript⟩, ⟨mp, hmp⟩, url, hurl, hdec⟩
    exact ⟨script, hscript, url, hurl, mp, hmp, hdec⟩

/-- The worker thread gets through a task of a tree. -/
theorem ends_doWorkQueue {m : AccountMgr} {joined : Int} {task result : Str} {pt : Ptree} {cmd : Int}
    (hread : readJson (cStr task) = some pt) (hcmd : pt.int keyTaskCmd = some cmd) (hvote : cmd = cmdScheWxVote) :
    Ends (MainTask.doWorkQueue readJson m joined task result) (fun _ => True) ↔
      Ends (WxVote.doTask m joined pt) fun _ => True := by
  simp only [MainTask.doWorkQueue, ends_bind, ends_orThrow, hread, Ptree.ends_getInt, hcmd, Option.some.injEq,
    exists_eq_left', hvote, if_true]

/-- What `on_read` makes of a tree with both keys. -/
theorem ends_onRead {data : Str} {pt : Ptree} (hread : readJson (cStr data) = some pt)
    (hcmd : pt.find keyTaskCmd ≠ none) (hid : pt.find keyTaskId ≠ none) {P : SchedCall → Prop} :
    Ends (ScheduleConnection.onRead readJson data) P ↔ ∃ cmd, pt.int keyTaskCmd = some cmd ∧
      (cmd = cmdScheWxVote → ∃ n, pt.int keyTaskId = some n ∧ P (.addTask ⟨n, data⟩)) ∧
      (cmd ≠ cmdScheWxVote →
        (cmd = cmdScheWxGetResult → ∃ n, pt.int keyTaskId = some n ∧ P (.getResult n)) ∧
        (cmd ≠ cmdScheWxGetResult → P .nothing)) := by
  simp [ScheduleConnection.onRead, ends_catching, hread, hcmd, hid]

/-- Without JSON or without the keys nothing is done. -/
theorem onRead_nothing {data : Str} (h : ∀ pt, readJson (cStr data) = some pt →
    pt.find keyTaskCmd = none ∨ pt.find keyTaskId = none) :
    ScheduleConnection.onRead readJson data = .ok .nothing := by
  rw [← ends_eq_iff]
  rcases hread : readJson (cStr data) with _ | pt
  · simp [ScheduleConnection.onRead, ends_catching, hread, Exn.isJsonParserError]
  · rcases h pt hread with hcmd | hid
    · simp [ScheduleConnection.onRead, ends_catching, hread, hcmd]
    · simp [ScheduleConnection.onRead, ends_catching, hread, hid]

/-- The worker and the sessions get through the text of a vote task if and
only if it has the fields. -/
theorem voteFields_iff {data : Str} {pt : Ptree} (hread : readJson (cStr data) = some pt)
    (hcmd : pt.int keyTaskCmd = some cmdScheWxVote) :
    ((∃ n, pt.int keyTaskId = some n) ∧
      (∀ m joined result, Ends (MainTask.doWorkQueue readJson m joined data result) fun _ => True) ∧
      Ends (WxVoteSession.readTask pt) fun _ => True) ↔ VoteFields pt := by
  simp only [ends_doWorkQueue readJson hread hcmd rfl, ends_doTask, ends_readTask]
  constructor
  · rintro ⟨hid, hqueue, hscript, hmp, hurl⟩
    exact ⟨hid, (hqueue (.loadData []) 0 []).1, hscript, hmp, hurl⟩
  · intro h
    obtain ⟨url, hurl, -⟩ := h.url
    exact ⟨h.taskId, fun _ _ _ => ⟨h.votesCnt, ⟨url, hurl⟩, h.taskId, _, hcmd⟩, h.script, h.mp, h.url⟩

/-- **No exception leaves the functions a payload goes through if and only if
it is no JSON, lacks `task_cmd` or `task_id`, or has a number for the command
and the fields the command needs.** -/
theorem task_contained_iff (data : Str) :
    Contained readJson data ↔ ∀ pt, readJson (cStr data) = some pt →
      pt.find keyTaskCmd = none ∨ pt.find keyTaskId = none ∨ CommandFields pt := by
  by_cases hkeys : ∀ pt, readJson (cStr data) = some pt → pt.find keyTaskCmd = none ∨ pt.find keyTaskId = none
  · have hnothing := onRead_nothing readJson hkeys
    have hcontained : Contained readJson data := ⟨.nothing, hnothing, fun ti hti => absurd hti (by simp)⟩
    exact iff_of_true hcontained fun pt hpt => (hkeys pt hpt).imp_right Or.inl
  · push Not at hkeys
    obtain ⟨pt, hread, hcmd, hid⟩ := hkeys
    have hfields : (∀ pt', readJson (cStr data) = some pt' →
        pt'.find keyTaskCmd = none ∨ pt'.find keyTaskId = none ∨ CommandFields pt') ↔ CommandFields pt := by
      simp [hread, hcmd, hid]
    rw [hfields, Contained, ends_onRead readJson hread hcmd hid, CommandFields]
    apply exists_congr
    intro cmd
    apply and_congr_right
    intro hint
    by_cases hvote : cmd = cmdScheWxVote
    · subst hvote
      have hget : cmdScheWxVote ≠ cmdScheWxGetResult := by decide
      rw [← voteFields_iff readJson hread hint]
      simp [hread, hget]
    · simp [hvote]

/-- A payload with the two keys and the command of a vote. -/
def voteOnly : Str := Str.of "\x7b\"task_cmd\":268435456,\"task_id\":1\x7d"

/-- Its tree. -/
def voteOnlyTree : Ptree :=
  .node [] [(keyTaskCmd, .node (Str.of "268435456") []), (keyTaskId, .node (Str.of "1") [])]

def readVoteOnly : ReadJson := fun s => if s = voteOnly then some voteOnlyTree else none

/-- A task without a count of votes is queued and leaves the worker thread
with an exception. -/
theorem vote_without_count : ¬ ∀ (readJson : ReadJson) (data : Str), Contained readJson data := by
  intro h
  obtain ⟨call, hcall, hcontained⟩ := h readVoteOnly voteOnly
  have hadd : ScheduleConnection.onRead readVoteOnly voteOnly = .ok (.addTask ⟨1, voteOnly⟩) := rfl
  have hthrow : MainTask.doWorkQueue readVoteOnly (.loadData []) 0 voteOnly [] = .error .ptreeBadPath := rfl
  rw [hadd] at hcall
  obtain ⟨r, hr, -⟩ := (hcontained ⟨1, voteOnly⟩ (Except.ok.inj hcall).symm).1 (.loadData []) 0 []
  rw [hthrow] at hr
  cases hr

/-! ### The voting link -/

/-- **Of a url in standard base64 the session sends the decoded one if and
only if its length is a multiple of three.** Otherwise zero bytes follow it. -/
theorem readTask_encode_iff {pt : Ptree} {script mp : Str} (hscript : pt.str keyScript = some script)
    (hmp : pt.str keyMp = some mp) (u : Str) (hurl : pt.str keyUrl = some (Base64.encode u)) :
    WxVoteSession.readTask pt = .ok (script, mp, u) ↔ u.length % 3 = 0 := by
  rw [← Base64.decode_encode_eq_iff, ← ends_eq_iff]
  simp only [WxVoteSession.readTask, ends_bind, ends_pure, ends_orThrow, Ptree.ends_getString, hscript, hmp, hurl,
    Option.some.injEq, exists_eq_left', Prod.mk.injEq, true_and, exists_eq_right]

/-- A task with the url `u`, as the sessions get it. -/
def urlTask (u : Str) : Ptree :=
  .node [] [(keyScript, .node (Str.of "s") []), (keyMp, .node (Str.of "m") []), (keyUrl, .node (Base64.encode u) [])]

theorem readTask_three : WxVoteSession.readTask (urlTask (Str.of "abc")) =
    .ok (Str.of "s", Str.of "m", Str.of "abc") ↔ (Str.of "abc").length % 3 = 0 :=
  readTask_encode_iff rfl rfl (Str.of "abc") rfl

/-- The link `a` comes out with two zero bytes. -/
theorem padded_link : ¬ ∀ (u script mp : Str) (pt : Ptree), pt.str keyScript = some script → pt.str keyMp = some mp →
    pt.str keyUrl = some (Base64.encode u) → WxVoteSession.readTask pt = .ok (script, mp, u) := by
  intro h
  have hzeros : WxVoteSession.readTask (urlTask (Str.of "a")) =
      .ok (Str.of "s", Str.of "m", Str.of "a" ++ [0, 0]) := rfl
  have hlink := h (Str.of "a") (Str.of "s") (Str.of "m") (urlTask (Str.of "a")) rfl rfl rfl
  rw [hzeros, Except.ok.injEq] at hlink
  exact absurd hlink (by decide)

end ScheduleCenter
