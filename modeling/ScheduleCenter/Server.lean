/-
# The server as one system

The parts of `schedule_center` that run side by side, as one labelled step
function `Server.step`: the session threads (`a_session::start` with
`on_connected`, `handle_read` and `on_read_timeout` of the two session
classes), the main `io_service` thread (phone accepts and disconnects, restart
replies, the midnight reset, the daily task), and the worker thread that runs
vote tasks one after another (`wx_vote::do_task`).

A step is one section under a lock, or one stretch of code between two such
sections. Everything the environment decides is in the label: whether a
connect or a write succeeds, what the phone replies, whether a timer runs out.
A session thread is a place in the code (`Pc`) and what its locals hold there.

An exception that no handler catches ends the process (`dead`): a reply that
is not what `handle_read` expects, in the daily session also one that is not
JSON.

Key definitions: `Pc`, `Thread`, `Server`, `Server.sessionStep`, `Server.step`, `Server.boot`.
-/
import ScheduleCenter.AccountMgr

namespace ScheduleCenter

/-! ### `device_mgr` -/

/-- The `DEVICE_STATUS_` constants. -/
inductive DeviceStatus
  | onlineIdle | offline | taskBegin | wxVoting | wxVoteEnd | dailyTask | dailyTaskEnd
deriving DecidableEq

/-- `devices_pro`, keyed by ip. -/
abbrev DeviceMgr := AList fun _ : Str => DeviceStatus

namespace DeviceMgr

/-- `set_status` in memory: a status that is already there is not written, and
a new ip gets a record. -/
def setStatus (d : DeviceMgr) (ip : Str) (status : DeviceStatus) : DeviceMgr :=
  if d.lookup ip = some status then d else d.insert ip status

def getStatus (d : DeviceMgr) (ip : Str) : DeviceStatus := (d.lookup ip).getD .offline

def getStatusCount (d : DeviceMgr) (status : DeviceStatus) : ℕ :=
  d.entries.countP fun e => e.2 = status

/-- The ips a task starts a session for: those idle in its copy of the map. -/
def idleIps (d : DeviceMgr) : List Str :=
  (d.entries.filter fun e => e.2 = DeviceStatus.onlineIdle).map fun e => e.1

end DeviceMgr

/-! ### `wx_vote` -/

structure WxVote where
  successCount : Int
  targetCount : Int
deriving DecidableEq, Inhabited

def WxVote.addSucCount (v : WxVote) (n : Int) : WxVote := { v with successCount := v.successCount + n }

def WxVote.needVote (v : WxVote) : Bool := v.targetCount > v.successCount

/-- `need_wait_vote`: the shared lock on `success_count` is held while the
devices in `WX_VOTING` are counted. -/
def WxVote.needWaitVote (v : WxVote) (d : DeviceMgr) : Bool :=
  v.successCount + d.getStatusCount .wxVoting == v.targetCount

/-! ### Sessions -/

/-- What a reply that parses and has the fields `handle_read` asks for says. -/
inductive Verdict
  | success
  /-- The login failed for good: the account is to be marked. -/
  | fatal
  | other
deriving DecidableEq

/-- What `handle_read` makes of a reply. -/
inductive Reply
  | verdict (v : Verdict)
  /-- `json_parser_error`. -/
  | badJson
  /-- Any other exception: a bad length header, a missing or ill-typed field, or in the
  debug build a socket without a peer to print. -/
  | throws
deriving DecidableEq

/-- The session classes: `wx_vote_session` of a vote task with its url,
`keep_wx_account_session`. -/
inductive Kind
  | vote (task : ℕ) (url : Str)
  | daily
deriving DecidableEq

def Kind.task : Kind → Option ℕ
  | .vote k _ => some k
  | .daily => none

/-- The status the loop sets before it writes. -/
def Kind.busy : Kind → DeviceStatus
  | .vote _ _ => .wxVoting
  | .daily => .dailyTask

/-- The status `handle_read` sets at its end. -/
def Kind.busyEnd : Kind → DeviceStatus
  | .vote _ _ => .wxVoteEnd
  | .daily => .dailyTaskEnd

/-- The two draws under the shared lock. -/
def AccountMgr.pick (m : AccountMgr) : Kind → Option Node × AccountMgr
  | .vote _ url => (m.pickNotVote url, m)
  | .daily => m.pickNotDaily

/-- The account's setter in `handle_read`. -/
def AccountMgr.recordReply (m : AccountMgr) (kind : Kind) (acc : Str) : Verdict → AccountMgr
  | .success =>
    match kind with
    | .vote _ url => m.setVoteStatus acc url
    | .daily => m.setEverydayTask acc dailytaskFinished
  | .fatal => m.setAccStatus acc statusAbnormal
  | .other => m

/-- Where a session thread is. -/
inductive Pc
  /-- Created; `start` has not run yet. -/
  | init
  /-- The phone's connection is found; next `set_status(TASK_BEGIN)`. -/
  | begin
  | bind
  | connect
  /-- `restart_lua` is sent and `ios_.run()` waits for the restart timer, after
  a failed connect or inside the loop of `on_connected`. -/
  | restartWait (inLoop : Bool)
  /-- At the head of the loop: next the draw, under the shared lock. -/
  | draw
  /-- A node is chosen and the shared lock is dropped. -/
  | picked (n : Node)
  /-- `acc = *itor` is done; next the erase, under the exclusive lock. -/
  | taken (n : Node) (acc : Str)
  /-- Next the first `need_wait_vote()` for this account. -/
  | check (acc : Str)
  /-- In the body of the wait loop: next `need_vote()`. -/
  | waiting (acc : Str)
  /-- In the body of the wait loop, asleep: next `need_wait_vote()` again. -/
  | asleep (acc : Str)
  /-- Next `set_status(WX_VOTING)`, or `DAILY_TASK`. -/
  | mark (acc : Str)
  | write (acc : Str)
  /-- The command is sent and the reply is outstanding. -/
  | sent (acc : Str)
  /-- In `handle_read`: next the account's setter. -/
  | record (acc : Str) (v : Verdict)
  /-- Next `add_suc_count(1)`. -/
  | count (acc : Str)
  /-- Next `set_idle_account`. -/
  | putBack (acc : Str)
  /-- Next `set_status(.._END)`, the end of `handle_read`; `timedOut` if
  `on_read_timeout` has closed the socket. -/
  | readEnd (timedOut : Bool)
  /-- `on_connected` has returned; next the last `set_status`. -/
  | close
  | done
deriving DecidableEq

/-- A thread in, or about to enter, `a_session::start` of session `ses`. -/
structure Thread where
  ses : ℕ
  ip : Str
  kind : Kind
  /-- `socket_` is open. It is the session's: a second thread in `start` of the session
  opens it anew, and steps of the first one on that socket are left out. -/
  sock : Bool
  pc : Pc
deriving DecidableEq

/-- What the environment decides at a step of a session thread. -/
inductive Input
  | go
  | ok
  | err
  | reply (r : Reply)
  | readError
  | expired
  | cancelled
deriving DecidableEq

/-! ### The system -/

/-- Where the main `io_service` thread is: between handlers, in
`pho_conn_pool::start` or `stop`, in `on_restart_lua_end` of a session (then
in its `start`), or in `reset_all_everyday_task`. -/
inductive MainPc
  | idle
  | stopErase (ip : Str) (again : Bool)
  | startIdle (ip : Str)
  | startInsert (ip : Str)
  | restart (ses : ℕ)
  | running (i : ℕ)
  | resetting (todo : List Str)
deriving DecidableEq

/-- Where the worker thread is in `wx_vote::do_task`. -/
inductive WorkerPc
  | idle
  | admitted (target : Int) (url : Str)
  | joining (task : ℕ)
deriving DecidableEq

structure Server where
  accounts : AccountMgr
  devices : DeviceMgr
  /-- The ips `pho_conn_pool` holds a connection of. -/
  conns : List Str
  /-- The sessions whose slot is connected to a phone's `op_ok_sig_`. -/
  slots : List ℕ
  votes : List WxVote
  threads : List Thread
  main : MainPc
  worker : WorkerPc
  dead : Bool
deriving DecidableEq

/-- The labels. -/
inductive Act
  | thread (i : ℕ) (inp : Input)
  | accept (ip : Str)
  | disconnect (ip : Str)
  | restartReply (ses : ℕ)
  | resetTask
  | dailyTask
  | main
  | voteAdmit (target : Int) (url : Str)
  | voteSpawn
  | voteJoin
deriving DecidableEq

namespace Server

@[simps]
def setStatus (s : Server) (ip : Str) (status : DeviceStatus) : Server :=
  { s with devices := s.devices.setStatus ip status }

@[simps]
def withAccounts (s : Server) (m : AccountMgr) : Server := { s with accounts := m }

@[simps]
def withSlots (s : Server) (slots : List ℕ) : Server := { s with slots := slots }

def vote (s : Server) (task : ℕ) : WxVote := s.votes.getD task default

@[simps]
def addSucCount (s : Server) (task : ℕ) (n : Int) : Server :=
  { s with votes := s.votes.set task ((s.vote task).addSucCount n) }

/-- After the setter: a successful vote is counted, then the account goes back. -/
def afterRecord (kind : Kind) (acc : Str) : Verdict → Pc
  | .success => if kind = .daily then .putBack acc else .count acc
  | _ => .putBack acc

/-- One step of a session thread: where it goes on, whether its socket is
open then, and the server it leaves. A session that is entered again while its first
thread is still inside `start` is followed as if each thread had a socket of its own. -/
def sessionStep (s : Server) (t : Thread) : Pc → Input → Option (Pc × Bool × Server)
  | .init, .go => some (if t.ip ∈ s.conns then .begin else .done, t.sock, s)
  | .begin, .go => some (.bind, t.sock, s.setStatus t.ip .taskBegin)
  | .bind, .go =>
    some (.connect, t.sock, s.withSlots (if t.ses ∈ s.slots then s.slots else t.ses :: s.slots))
  | .connect, .ok => some (.draw, true, s)
  | .connect, .err => some (.restartWait false, t.sock, s)
  | .restartWait inLoop, .expired =>
    some (if inLoop then .draw else .close, t.sock, s.withSlots (s.slots.erase t.ses))
  | .restartWait inLoop, .cancelled => some (if inLoop then .draw else .close, t.sock, s)
  | .draw, .go =>
    some ((s.accounts.pick t.kind).1.elim .close .picked, t.sock, s.withAccounts (s.accounts.pick t.kind).2)
  | .picked n, .go => some (.taken n n.acc, t.sock, s)
  | .taken n acc, .go =>
    some (if t.kind = .daily then .mark acc else .check acc, t.sock, s.withAccounts (s.accounts.eraseIdle n))
  | .check acc, .go => t.kind.task.map fun k =>
    (if (s.vote k).needWaitVote s.devices then .waiting acc else .mark acc, t.sock, s)
  | .asleep acc, .go => t.kind.task.map fun k =>
    (if (s.vote k).needWaitVote s.devices then .waiting acc else .mark acc, t.sock, s)
  | .waiting acc, .go => t.kind.task.map fun k =>
    (if (s.vote k).needVote then .asleep acc else .close, t.sock, s)
  | .mark acc, .go => some (.write acc, t.sock, s.setStatus t.ip t.kind.busy)
  | .write acc, .ok => if t.sock then some (.sent acc, t.sock, s) else none
  | .write _, .err => some (.draw, t.sock, s)
  | .sent acc, .reply (.verdict v) => some (.record acc v, t.sock, s)
  | .sent _, .reply .badJson =>
    some (if t.kind = .daily then (.done, t.sock, { s with dead := true }) else (.readEnd false, t.sock, s))
  | .sent _, .reply .throws => some (.done, t.sock, { s with dead := true })
  | .sent _, .readError => some (.readEnd false, t.sock, s)
  | .sent _, .expired => some (.readEnd true, false, s)
  | .record acc v, .go =>
    some (afterRecord t.kind acc v, t.sock, s.withAccounts (s.accounts.recordReply t.kind acc v))
  | .count acc, .go => t.kind.task.map fun k => (.putBack acc, t.sock, s.addSucCount k 1)
  | .putBack acc, .go => some (.readEnd false, t.sock, s.withAccounts (s.accounts.setIdleAccount acc))
  | .readEnd timedOut, .go =>
    some (if timedOut then .restartWait true else .draw, t.sock, s.setStatus t.ip t.kind.busyEnd)
  -- the reply and the end of the read timer came together: the timer's handler closes the socket
  | .readEnd false, .expired => some (.restartWait true, false, s.setStatus t.ip t.kind.busyEnd)
  | .close, .go => some (.done, false, s.setStatus t.ip .onlineIdle)
  | _, _ => none

/-- A new session for each ip, on a thread of its own. -/
def spawn (s : Server) (kind : Kind) (ips : List Str) : Server :=
  { s with threads := s.threads ++ ips.mapIdx fun j ip => ⟨s.threads.length + j, ip, kind, false, .init⟩ }

/-- The first thread of a session. -/
def findSession (s : Server) (ses : ℕ) : Option Thread := s.threads.find? (·.ses = ses)

/-- What the main thread does next inside a handler. -/
def mainStep (s : Server) : MainPc → Option Server
  | .idle => none
  | .stopErase ip again =>
    some { s with conns := s.conns.erase ip, main := if again then .startIdle ip else .idle }
  | .startIdle ip => some { s.setStatus ip .onlineIdle with main := .startInsert ip }
  | .startInsert ip => some { s with conns := ip :: s.conns, main := .idle }
  | .restart ses => (s.findSession ses).map fun t =>
    { s with threads := s.threads ++ [{ t with sock := false, pc := .init }], main := .running s.threads.length }
  | .running i => if (s.threads[i]?).map (·.pc) = some .done then some { s with main := .idle } else none
  | .resetting [] => some { s with main := .idle }
  | .resetting (acc :: todo) =>
    some { s.withAccounts (s.accounts.setEverydayTask acc dailytaskNotFinished) with main := .resetting todo }

/-- The threads `do_task` joins have all returned. -/
def joined (s : Server) (task : ℕ) : Bool :=
  (s.threads.zipIdx.all fun p => p.1.kind.task ≠ some task || p.1.ses ≠ p.2 || p.1.pc = .done)

/-- One step of the server. -/
def step (s : Server) (a : Act) : Option Server :=
  if s.dead then none else
  match a with
  | .thread i inp => do
    let t ← s.threads[i]?
    let (pc, sock, s') ← s.sessionStep t t.pc inp
    return { s' with threads := s'.threads.set i { t with pc := pc, sock := sock } }
  | .main => s.mainStep s.main
  | .accept ip =>
    if s.main = .idle then
      if ip ∈ s.conns then some { s.setStatus ip .offline with main := .stopErase ip true }
      else some { s with main := .startIdle ip }
    else none
  | .disconnect ip =>
    if s.main = .idle ∧ ip ∈ s.conns then some { s.setStatus ip .offline with main := .stopErase ip false }
    else none
  | .restartReply ses =>
    if s.main = .idle ∧ ses ∈ s.slots then
      (s.findSession ses).map fun t => { s.setStatus t.ip .onlineIdle with main := .restart ses }
    else none
  | .resetTask => if s.main = .idle then some { s with main := .resetting s.accounts.accountsPro.keys } else none
  | .dailyTask => if s.main = .idle then some (s.spawn .daily s.devices.idleIps) else none
  | .voteAdmit target url =>
    if s.worker = .idle then
      some (if (s.accounts.getIdleNotVoteCount url : Int) < target then s
        else { s with worker := .admitted target url })
    else none
  | .voteSpawn =>
    match s.worker with
    | .admitted target url =>
      some { s.spawn (.vote s.votes.length url) s.devices.idleIps with
        votes := s.votes ++ [⟨0, target⟩], worker := .joining s.votes.length }
    | _ => none
  | .voteJoin =>
    match s.worker with
    | .joining k =>
      if s.joined k then
        some { s with votes := s.votes.set k { s.vote k with successCount := 0 }, worker := .idle }
      else none
    | _ => none

/-- The server after `device_mgr::init` and `wx_account_mgr::init`. -/
def boot (rows : List (Str × AccountPro)) (ips : List Str) : Server where
  accounts := .loadData rows
  devices := ips.foldl (fun d ip => d.insert ip .offline) ∅
  conns := []
  slots := []
  votes := []
  threads := []
  main := .idle
  worker := .idle
  dead := false

end Server
end ScheduleCenter
