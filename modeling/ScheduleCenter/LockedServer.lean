/-
# The server under the account mutex

`Server` takes a draw of an account as one step. In the code a draw for a vote,
and the count that admits a vote task, hold `rwmutex_` of the account manager
shared through a loop in which `get_vote_status` locks it shared again, before
each node it looks at. A thread that waits to hold the mutex exclusively holds
these locks up, and the thread inside the loop holds it up in turn.

`LockedServer` is the server with the threads that are inside such a loop and
the threads that wait: a step of `Server` is taken in one piece where it needs
no lock or a shared one only, and in several where it loops or locks
exclusively. Every run of it is a run of `Server` (`reach_server`), and a
step of `Server` is a run of it where nobody is inside or waits
(`lift_step`). The mutexes of the success counter and of the device map hold
nobody up for good (`CounterLocks`) and are left out.

Two things keep the sessions from their ends. From a state in which one thread
waits and another has still to lock the mutex again, the server never comes to
rest, and from every other state it can, if the main thread runs no session's
`start` (`comes_to_rest`). And a main thread that was sent into `start` by
`on_restart_lua_end` can stay in the wait loop for good (`hung_forever`).

The runs are those in which no session is used after its destruction: the object
of a session is there as long as its own thread is unfinished, or `join_all` is
still busy with a thread before it (`Server.intact`).

Key definitions: `Server.access`, `LockedServer`, `LockedServer.step`, `LockedServer.deadlocked`,
`Server.intact`, `Server.Hung`.
Key theorems: `AccountMgr.sharedLocks_scans`, `LockedServer.reach_server`, `LockedServer.lift_step`,
`LockedServer.deadlocked_step`, `LockedServer.accounts_of_scanning`, `LockedServer.settles`,
`LockedServer.comes_to_rest`, `LockedServer.hung_forever`.
-/
import ScheduleCenter.AtRest
import ScheduleCenter.Locks
import ScheduleCenter.SessionLookups

namespace ScheduleCenter

/-! ### What a step does with `rwmutex_` -/

inductive Access
  | free
  /-- A shared section without a second lock. -/
  | shared
  /-- A shared section that locks the mutex shared again. -/
  | scan
  | exclusive
deriving DecidableEq

/-- A thread can be held up inside the operation. -/
def Access.holdsUp : Access → Bool
  | .scan | .exclusive => true
  | _ => false

/-- The operation of the account manager a session thread calls in its next step. -/
def Thread.access (t : Thread) : Input → Access
  | .go =>
    match t.pc with
    | .draw => if t.kind = .daily then .shared else .scan
    | .taken _ _ => .exclusive
    | .record _ v => if v = .other then .free else .exclusive
    | .putBack _ => .exclusive
    | _ => .free
  | .ok | .err =>
    -- `get_accounts_pro_copy`, before the write
    match t.pc with
    | .write _ => .shared
    | _ => .free
  | _ => .free

/-- The places from which an operation can hold a session up. -/
def Pc.calls : Pc → Bool
  | .draw | .taken _ _ | .record _ _ | .putBack _ => true
  | _ => false

/-- The threads of the process: the sessions', the main one and the worker. -/
inductive Runner
  | session (i : ℕ)
  | main
  | worker
deriving DecidableEq

def Act.runner : Act → Runner
  | .thread i _ => .session i
  | .voteAdmit _ _ | .voteSpawn | .voteJoin => .worker
  | _ => .main

namespace AccountMgr

/-- The calls of `get_vote_status` in `get_idle_not_vote_account`: it stops at
the first account for the url. -/
def drawLooks (m : AccountMgr) (url : Str) : ℕ :=
  min (m.idle.findIdx (fun n => m.votable url n.acc) + 1) m.idle.length

/-- Those in `get_idle_not_vote_count`: it goes through the list. -/
def countLooks (m : AccountMgr) : ℕ := m.idle.length

end AccountMgr

namespace Server

def access (s : Server) : Act → Access
  | .thread i inp => (s.threads[i]?).elim .free fun t => t.access inp
  | .voteAdmit _ _ => if s.worker = .idle then .scan else .free
  | .main =>
    match s.main with
    | .resetting (_ :: _) => .exclusive
    | _ => .free
  | _ => .free

/-- How often a scan locks the mutex a second time. -/
def looks (s : Server) : Act → ℕ
  | .thread i _ => (s.threads[i]?).elim 0 fun t =>
    match t.kind with
    | .vote _ url => s.accounts.drawLooks url
    | .daily => 0
  | .voteAdmit _ _ => s.accounts.countLooks
  | _ => 0

/-- The object of session `ses` is there. A task's own thread of it holds it
until it ends, and `do_task` of a vote until `join_all` has come to this thread. -/
def hasSession (s : Server) (ses : ℕ) : Bool :=
  (s.threads.take (ses + 1)).zipIdx.any fun p => p.1.ses = p.2 && p.1.pc ≠ .done &&
    (p.2 = ses || p.1.kind ≠ .daily && p.1.kind.task = (s.threads[ses]?).bind (·.kind.task))

/-- The main thread is not inside `on_restart_lua_end` of a session that is destroyed. -/
def intact (s : Server) : Bool :=
  match s.main with
  | .restart ses => s.hasSession ses
  | .running i => (s.threads[i]?).any fun t => t.pc = .done || s.hasSession t.ses
  | _ => true

end Server

/-- The server, the operations inside a scan with the times they have still to
lock the mutex again, and those that wait to hold it exclusively. -/
structure LockedServer where
  server : Server
  scanning : List (Act × ℕ)
  waiting : List Act
deriving DecidableEq

namespace LockedServer

inductive Label
  /-- A step that is taken in one piece. -/
  | whole (a : Act)
  /-- The mutex is held shared. -/
  | enter (a : Act)
  /-- `get_vote_status`: the mutex is locked shared again, and released. -/
  | look (j : ℕ)
  | leave (j : ℕ)
  /-- From here on the thread waits to hold the mutex exclusively. -/
  | ask (a : Act)
  | hold (j : ℕ)
deriving DecidableEq

/-- The operations that threads are inside of. -/
def pending (l : LockedServer) : List Act := l.scanning.map (·.1) ++ l.waiting

/-- The thread is not inside an operation. -/
def outside (l : LockedServer) (a : Act) : Bool := l.pending.all fun b => b.runner ≠ a.runner

/-- One step. A shared lock is given while nobody waits, the exclusive one while
nobody is inside a scan; the other sections are one step each. How often a scan
locks the mutex again is counted as it begins (`accounts_of_scanning`). -/
def step (l : LockedServer) : Label → Option LockedServer
  | .whole a =>
    if l.server.access a = .free ∨ l.server.access a = .shared ∧ l.waiting = [] then
      (l.server.step a).map fun s => { l with server := s }
    else none
  | .enter a =>
    if l.server.dead = false ∧ l.server.access a = .scan ∧ l.outside a = true ∧ l.waiting = [] then
      some { l with scanning := (a, l.server.looks a) :: l.scanning }
    else none
  | .look j =>
    match l.scanning[j]? with
    | some (a, n + 1) =>
      if l.server.dead = false ∧ l.waiting = [] then some { l with scanning := l.scanning.set j (a, n) } else none
    | _ => none
  | .leave j =>
    match l.scanning[j]? with
    | some (a, 0) => (l.server.step a).map fun s => { l with server := s, scanning := l.scanning.eraseIdx j }
    | _ => none
  | .ask a =>
    if l.server.dead = false ∧ l.server.access a = .exclusive ∧ l.outside a = true then
      some { l with waiting := a :: l.waiting }
    else none
  | .hold j =>
    match l.waiting[j]? with
    | some a =>
      if l.scanning = [] then (l.server.step a).map fun s => { l with server := s, waiting := l.waiting.eraseIdx j }
      else none
    | none => none

/-- Nobody is inside an operation. -/
def quiet (s : Server) : LockedServer := ⟨s, [], []⟩

/-- A thread waits, and another has still to lock the mutex again. -/
def deadlocked (l : LockedServer) : Bool := !l.waiting.isEmpty && l.scanning.any fun p => 0 < p.2

/-- No session is used after its destruction. -/
def Intact (l : LockedServer) (_ : Label) : Prop := l.server.intact = true

instance (l : LockedServer) (lab : Label) : Decidable (l.Intact lab) := inferInstanceAs (Decidable (_ = _))

/-! ### The operations -/

end LockedServer

/-- The draw locks the mutex a second time as often as `drawLooks` says. -/
theorem AccountMgr.sharedLocks_notVoteLoop (url : Str) (m : AccountMgr) : ∀ ns : List Node,
    (notVoteLoop url (fun _ => .done) ns).sharedLocks m =
      min (ns.findIdx (fun n => m.votable url n.acc) + 1) ns.length
  | [] => rfl
  | n :: ns => by
    have ih := sharedLocks_notVoteLoop url m ns
    simp only [notVoteLoop, getVoteStatusCode, RwLock.Code.sharedLocks, List.findIdx_cons, List.length_cons]
    by_cases hv : m.getVoteStatus n.acc url = statusVoted
    · rw [if_pos hv, ih, show m.votable url n.acc = false by simp [votable, hv], cond_false]
      omega
    · rw [if_neg hv, RwLock.Code.sharedLocks]
      by_cases hs : (m.accountsPro.at n.acc).status = statusAbnormal
      · rw [if_pos hs, ih, show m.votable url n.acc = false by simp [votable, hs], cond_false]
        omega
      · rw [if_neg hs, show m.votable url n.acc = true by simp [votable, hv, hs], cond_true]
        simp [drawCode, RwLock.Code.sharedLocks]

theorem AccountMgr.sharedLocks_countLoop (url : Str) (m : AccountMgr) : ∀ (ns : List Node) (cnt : ℕ),
    (countLoop url (fun _ => .done) ns cnt).sharedLocks m = ns.length
  | [], _ => rfl
  | n :: ns, cnt => by
    simp only [countLoop, getVoteStatusCode, RwLock.Code.sharedLocks, List.length_cons]
    split
    · rw [RwLock.Code.sharedLocks, sharedLocks_countLoop url m ns]
    · rw [sharedLocks_countLoop url m ns]

/-- The two scans lock the mutex once more than they look. -/
theorem AccountMgr.sharedLocks_scans (m : AccountMgr) (url : Str) :
    (Op.code (.getIdleNotVoteAccount url) .done).sharedLocks m = m.drawLooks url + 1 ∧
      (Op.code (.getIdleNotVoteCount url) .done).sharedLocks m = m.countLooks + 1 :=
  ⟨congrArg (· + 1) (sharedLocks_notVoteLoop url m m.idle),
    congrArg (· + 1) (sharedLocks_countLoop url m m.idle 0)⟩

namespace Server

section Access

variable {s s' : Server} {a b : Act}

theorem access_thread {i : ℕ} {t : Thread} (ht : s.threads[i]? = some t) (inp : Input) :
    s.access (.thread i inp) = t.access inp := by
  simp [access, ht]

/-- Which operations can hold their thread up: those of a session in its next
step, the count of a worker without a task, and the reset. -/
theorem holdsUp_cases (ha : (s.access a).holdsUp = true) :
    (∃ i t, a = .thread i .go ∧ s.threads[i]? = some t ∧ t.pc.calls = true) ∨
      (∃ target url, a = .voteAdmit target url ∧ s.worker = .idle) ∨
      a = .main ∧ ∃ acc todo, s.main = .resetting (acc :: todo) := by
  cases a with
  | thread i inp =>
    cases ht : s.threads[i]? with
    | none =>
      simp only [access, ht, Option.elim_none] at ha
      cases ha
    | some t =>
      rw [access_thread ht] at ha
      unfold Thread.access at ha
      cases inp with
      | go =>
        refine Or.inl ⟨i, t, rfl, ht, ?_⟩
        cases hpc : t.pc <;> rw [hpc] at ha <;> first | rfl | cases ha
      | ok | err => cases hpc : t.pc <;> rw [hpc] at ha <;> cases ha
      | reply _ | readError | expired | cancelled => cases ha
  | voteAdmit target url =>
    refine Or.inr (Or.inl ⟨target, url, rfl, ?_⟩)
    by_contra hw
    simp only [access, if_neg hw] at ha
    cases ha
  | main =>
    cases hm : s.main with
    | resetting todo =>
      cases todo with
      | nil =>
        simp only [access, hm] at ha
        cases ha
      | cons acc todo => exact Or.inr (Or.inr ⟨rfl, acc, todo, rfl⟩)
    | _ =>
      simp only [access, hm] at ha
      cases ha
  | _ => cases ha

/-- Such an operation is always the next step of its thread, and ends neither the
process nor a handler of a session. -/
theorem exists_step (hd : s.dead = false) (ha : (s.access a).holdsUp = true) :
    ∃ s', s.step a = some s' ∧ s'.dead = false ∧ s'.main.inSession = s.main.inSession := by
  rcases holdsUp_cases ha with ⟨i, t, rfl, ht, hpc⟩ | ⟨target, url, rfl, hw⟩ | ⟨rfl, acc, todo, hm⟩
  · have hstep : ∃ r, s.sessionStep t t.pc .go = some r ∧ r.2.2.dead = false ∧ r.2.2.main = s.main := by
      cases hp : t.pc <;> rw [hp] at hpc <;> first | exact ⟨_, rfl, hd, rfl⟩ | cases hpc
    obtain ⟨⟨pc, b, s₁⟩, hs₁, hd₁, hm₁⟩ := hstep
    refine ⟨{ s₁ with threads := s₁.threads.set i { t with pc := pc, sock := b } }, ?_, hd₁,
      congrArg MainPc.inSession hm₁⟩
    simp [step, hd, ht, hs₁]
  · refine ⟨if (s.accounts.getIdleNotVoteCount url : Int) < target then s
      else { s with worker := .admitted target url }, by simp [step, hd, hw], ?_, ?_⟩
    · split <;> exact hd
    · split <;> rfl
  · exact ⟨{ s.withAccounts (s.accounts.setEverydayTask acc dailytaskNotFinished) with main := .resetting todo },
      by simp [step, hd, hm, mainStep], hd, by rw [hm]; rfl⟩

/-- While its thread is at an operation, it takes no other step. -/
theorem access_of_runner (ha : (s.access a).holdsUp = true) (hs : s.step b = some s') (hab : a.runner = b.runner) :
    s.access b = s.access a := by
  rcases holdsUp_cases ha with ⟨i, t, rfl, ht, hpc⟩ | ⟨target, url, rfl, hw⟩ | ⟨rfl, acc, todo, hm⟩
  · obtain ⟨inp, rfl⟩ : ∃ inp, b = .thread i inp := by
      cases b <;> simp_all [Act.runner]
    obtain ⟨u, pc, c, s₁, hu, hc, -⟩ := step_thread hs
    obtain rfl : t = u := Option.some.inj (ht.symm.trans hu)
    have hgo : inp = .go := by
      generalize t.pc = p at hc hpc
      cases hc <;> first | rfl | cases hpc
    rw [hgo]
  · cases b with
    | voteAdmit => simp [access]
    | voteSpawn =>
      cases (step_cases hs).2 with
      | voteSpawn hw' => rw [hw] at hw'; cases hw'
    | voteJoin =>
      cases (step_cases hs).2 with
      | voteJoin hw' _ => rw [hw] at hw'; cases hw'
    | _ => cases hab
  · cases b with
    | main => rfl
    | thread | voteAdmit | voteSpawn | voteJoin => cases hab
    | accept =>
      cases (step_cases hs).2 with
      | acceptAgain hm' _ | acceptNew hm' _ => rw [hm] at hm'; cases hm'
    | disconnect =>
      cases (step_cases hs).2 with
      | disconnect hm' _ => rw [hm] at hm'; cases hm'
    | restartReply =>
      cases (step_cases hs).2 with
      | restartReply hm' _ _ => rw [hm] at hm'; cases hm'
    | resetTask =>
      cases (step_cases hs).2 with
      | resetTask hm' => rw [hm] at hm'; cases hm'
    | dailyTask =>
      cases (step_cases hs).2 with
      | dailyTask hm' => rw [hm] at hm'; cases hm'

/-- A step leaves the other threads where they are. -/
theorem step_others (hs : s.step b = some s') :
    (∀ i t, s.threads[i]? = some t → b.runner ≠ .session i → s'.threads[i]? = some t) ∧
      (b.runner ≠ .main → s'.main = s.main) ∧ (b.runner ≠ .worker → s'.worker = s.worker) := by
  have happ : ∀ {l : List Thread} {i : ℕ} {t : Thread}, s.threads[i]? = some t → (s.threads ++ l)[i]? = some t :=
    fun ht => (List.getElem?_append_left (List.getElem?_eq_some_iff.mp ht).1).trans ht
  cases (step_cases hs).2
  case thread i inp t pc c s₁ ht hc =>
    refine ⟨fun j u hu hj => ?_, fun _ => hc.pool_eq.2, fun _ => hc.worker_eq⟩
    have hji : i ≠ j := fun h => hj (congrArg Runner.session h)
    exact (List.getElem?_set_ne hji).trans hu
  case restart => exact ⟨fun i t ht _ => happ ht, fun h => absurd rfl h, fun _ => rfl⟩
  case dailyTask => exact ⟨fun i t ht _ => happ ht, fun h => absurd rfl h, fun _ => rfl⟩
  case voteSpawn => exact ⟨fun i t ht _ => happ ht, fun _ => rfl, fun h => absurd rfl h⟩
  case voteRefuse => exact ⟨fun i t ht _ => ht, fun _ => rfl, fun _ => rfl⟩
  case voteAdmit => exact ⟨fun i t ht _ => ht, fun _ => rfl, fun h => absurd rfl h⟩
  case voteJoin => exact ⟨fun i t ht _ => ht, fun _ => rfl, fun h => absurd rfl h⟩
  all_goals exact ⟨fun i t ht _ => ht, fun h => absurd rfl h, fun _ => rfl⟩

theorem access_step (ha : (s.access a).holdsUp = true) (hs : s.step b = some s') (hab : a.runner ≠ b.runner) :
    s'.access a = s.access a := by
  obtain ⟨hthreads, hmain, hworker⟩ := step_others hs
  rcases holdsUp_cases ha with ⟨i, t, rfl, ht, -⟩ | ⟨target, url, rfl, -⟩ | ⟨rfl, -⟩
  · rw [access_thread ht, access_thread (hthreads i t ht (Ne.symm hab))]
  · simp only [access, hworker (Ne.symm hab)]
  · simp only [access, hmain (Ne.symm hab)]

/-- The table is changed under the exclusive lock only: the accounts that a draw
reads are there. -/
theorem accounts_eq (hpick : ∀ kind, (s.accounts.pick kind).2 = s.accounts) (ha : s.access a ≠ .exclusive)
    (hs : s.step a = some s') : s'.accounts = s.accounts := by
  cases (step_cases hs).2
  case thread i inp t pc c s₁ ht hc =>
    show s₁.accounts = s.accounts
    rw [access_thread ht] at ha
    unfold Thread.access at ha
    generalize t.pc = p at hc ha
    cases hc
    case empty | pick => exact hpick t.kind
    case record acc v _ =>
      cases v with
      | other => rfl
      | success | fatal => exact absurd rfl ha
    case eraseVote | eraseDaily | recordVote | putBack => exact absurd rfl ha
    all_goals rfl
  case reset hm => exact absurd (by simp only [access, hm]) ha
  all_goals rfl

end Access
end Server

namespace LockedServer

/-! ### A step, case by case -/

inductive StepCase (l : LockedServer) : Label → LockedServer → Prop
  | whole {a : Act} {s : Server} (ha : (l.server.access a).holdsUp = false)
      (hsh : l.server.access a = .shared → l.waiting = []) (hs : l.server.step a = some s) :
      StepCase l (.whole a) { l with server := s }
  | enter {a : Act} (hd : l.server.dead = false) (ha : l.server.access a = .scan) (hout : l.outside a = true)
      (hw : l.waiting = []) : StepCase l (.enter a) { l with scanning := (a, l.server.looks a) :: l.scanning }
  | look {j : ℕ} {a : Act} {n : ℕ} (hd : l.server.dead = false) (hj : l.scanning[j]? = some (a, n + 1))
      (hw : l.waiting = []) : StepCase l (.look j) { l with scanning := l.scanning.set j (a, n) }
  | leave {j : ℕ} {a : Act} {s : Server} (hj : l.scanning[j]? = some (a, 0)) (hs : l.server.step a = some s) :
      StepCase l (.leave j) { l with server := s, scanning := l.scanning.eraseIdx j }
  | ask {a : Act} (hd : l.server.dead = false) (ha : l.server.access a = .exclusive) (hout : l.outside a = true) :
      StepCase l (.ask a) { l with waiting := a :: l.waiting }
  | hold {j : ℕ} {a : Act} {s : Server} (hj : l.waiting[j]? = some a) (hn : l.scanning = [])
      (hs : l.server.step a = some s) : StepCase l (.hold j) { l with server := s, waiting := l.waiting.eraseIdx j }

section Run

variable {l l' : LockedServer} {lab : Label} {s s' : Server} {a : Act} {rows : List (Str × AccountPro)}
  {ips : List Str}

theorem step_cases (h : l.step lab = some l') : StepCase l lab l' := by
  cases lab with
  | whole a =>
    simp only [step] at h
    split at h
    · rename_i hg
      obtain ⟨s, hs, rfl⟩ := Option.map_eq_some_iff.mp h
      rcases hg with ha | ⟨ha, hw⟩
      · exact .whole (by rw [ha]; rfl) (fun hsh => by rw [ha] at hsh; cases hsh) hs
      · exact .whole (by rw [ha]; rfl) (fun _ => hw) hs
    · cases h
  | enter a =>
    simp only [step] at h
    split at h
    · rename_i hg
      cases h
      exact .enter hg.1 hg.2.1 hg.2.2.1 hg.2.2.2
    · cases h
  | look j =>
    simp only [step] at h
    split at h
    · split at h
      · rename_i hj hg
        cases h
        exact .look hg.1 hj hg.2
      · cases h
    · cases h
  | leave j =>
    simp only [step] at h
    split at h
    · obtain ⟨s, hs, rfl⟩ := Option.map_eq_some_iff.mp h
      exact .leave ‹_› hs
    · cases h
  | ask a =>
    simp only [step] at h
    split at h
    · rename_i hg
      cases h
      exact .ask hg.1 hg.2.1 hg.2.2
    · cases h
  | hold j =>
    simp only [step] at h
    split at h
    · split at h
      · obtain ⟨s, hs, rfl⟩ := Option.map_eq_some_iff.mp h
        exact .hold ‹_› ‹_› hs
      · cases h
    · cases h

/-! ### Runs of it are runs of the server -/

/-- A step is a step of the server, or leaves it as it is. -/
theorem step_server (h : l.step lab = some l') : l'.server = l.server ∨ ∃ a, l.server.step a = some l'.server := by
  cases step_cases h with
  | enter | look | ask => exact Or.inl rfl
  | whole _ _ hs => exact Or.inr ⟨_, hs⟩
  | leave _ hs => exact Or.inr ⟨_, hs⟩
  | hold _ _ hs => exact Or.inr ⟨_, hs⟩

/-- **Every run is a run of the server.** -/
theorem reach_server {ok : LockedServer → Label → Prop} (hr : Trans.Reach step ok l l') :
    Trans.Reach Server.step (fun _ _ => True) l.server l'.server := by
  induction hr with
  | refl => exact .refl
  | tail _ _ hs ih =>
    rcases step_server hs with heq | ⟨a, ha⟩
    · rwa [heq]
    · exact ih.tail trivial ha

theorem intact_of_calm (hm : s.main.inSession = false) : s.intact = true := by
  unfold Server.intact
  cases hmain : s.main with
  | restart _ | running _ =>
    rw [hmain] at hm
    cases hm
  | _ => rfl

/-! ### Where nobody is inside an operation the server takes its steps -/

theorem looks_end (hd : s.dead = false) (hi : s.intact = true) : ∀ n : ℕ,
    Trans.Reach step Intact ⟨s, [(a, n)], []⟩ ⟨s, [(a, 0)], []⟩
  | 0 => .refl
  | n + 1 => by
    have hlook : step ⟨s, [(a, n + 1)], []⟩ (.look 0) = some ⟨s, [(a, n)], []⟩ := by simp [step, hd]
    have hok : Intact ⟨s, [(a, n + 1)], []⟩ (.look 0) := hi
    exact (Trans.Reach.single hok hlook).trans (looks_end hd hi n)

/-- **A step of the server is a run of it**, if no thread is inside an operation. -/
theorem lift_step (hi : s.intact = true) (h : s.step a = some s') :
    Trans.Reach step Intact (quiet s) (quiet s') := by
  have hd : s.dead = false := (Server.step_cases h).1
  have hok : ∀ scanning waiting lab, Intact ⟨s, scanning, waiting⟩ lab := fun _ _ _ => hi
  cases ha : s.access a with
  | free =>
    have hw : (quiet s).step (.whole a) = some (quiet s') := by simp [step, quiet, ha, h]
    exact Trans.Reach.single (hok _ _ _) hw
  | shared =>
    have hw : (quiet s).step (.whole a) = some (quiet s') := by simp [step, quiet, ha, h]
    exact Trans.Reach.single (hok _ _ _) hw
  | scan =>
    have henter : (quiet s).step (.enter a) = some ⟨s, [(a, s.looks a)], []⟩ := by
      simp [step, quiet, ha, hd, outside, pending]
    have hleave : step ⟨s, [(a, 0)], []⟩ (.leave 0) = some (quiet s') := by simp [step, quiet, h]
    exact ((Trans.Reach.single (hok _ _ _) henter).trans (looks_end hd hi _)).tail (hok _ _ _) hleave
  | exclusive =>
    have hask : (quiet s).step (.ask a) = some ⟨s, [], [a]⟩ := by simp [step, quiet, ha, hd, outside, pending]
    have hhold : step ⟨s, [], [a]⟩ (.hold 0) = some (quiet s') := by simp [step, quiet, h]
    exact (Trans.Reach.single (hok _ _ _) hask).tail (hok _ _ _) hhold

theorem lift_reach (hr : Trans.Reach Server.step (fun s _ => s.intact = true) s s') :
    Trans.Reach step Intact (quiet s) (quiet s') := by
  induction hr with
  | refl => exact .refl
  | tail _ hi hs ih => exact ih.trans (lift_step hi hs)

/-! ### Two threads that hold each other up -/

/-- **The deadlock stays.** -/
theorem deadlocked_step (hl : l.deadlocked = true) (h : l.step lab = some l') : l'.deadlocked = true := by
  simp only [deadlocked, Bool.and_eq_true, Bool.not_eq_true', List.isEmpty_eq_false_iff, List.any_eq_true,
    decide_eq_true_eq] at hl ⊢
  obtain ⟨hwait, p, hp, hpos⟩ := hl
  cases step_cases h with
  | whole => exact ⟨hwait, p, hp, hpos⟩
  | enter _ _ _ hw => exact absurd hw hwait
  | look _ _ hw => exact absurd hw hwait
  | ask => exact ⟨by simp, p, hp, hpos⟩
  | hold _ hn =>
    rw [hn] at hp
    cases hp
  | leave hj =>
    refine ⟨hwait, p, ?_, hpos⟩
    obtain ⟨i, hi⟩ := List.mem_iff_getElem?.mp hp
    refine List.mem_eraseIdx_iff_getElem?.mpr ⟨i, fun hij => ?_, hi⟩
    subst hij
    rw [hj] at hi
    cases hi
    exact absurd hpos (Nat.lt_irrefl 0)

/-! ### The other states settle -/

/-- The operations are the next steps of different threads. -/
structure Fits (l : LockedServer) : Prop where
  scans : ∀ p ∈ l.scanning, l.server.access p.1 = .scan
  waits : ∀ a ∈ l.waiting, l.server.access a = .exclusive
  apart : (l.pending.map Act.runner).Nodup

theorem Fits.holdsUp (h : l.Fits) (ha : a ∈ l.pending) : (l.server.access a).holdsUp = true := by
  rcases List.mem_append.mp ha with ha | ha
  · obtain ⟨p, hp, rfl⟩ := List.mem_map.mp ha
    rw [h.scans p hp]
    rfl
  · rw [h.waits a ha]
    rfl

theorem runner_not_mem (hout : l.outside a = true) : a.runner ∉ l.pending.map Act.runner := by
  intro ha
  obtain ⟨b, hb, hba⟩ := List.mem_map.mp ha
  exact absurd hba (by simpa using List.all_eq_true.mp hout b hb)

/-- A thread ends its operation, and the others are where they were. -/
theorem Fits.ends (h : l.Fits) {j : ℕ} (hj : l.pending[j]? = some a) (hs : l.server.step a = some s) :
    ((l.pending.eraseIdx j).map Act.runner).Nodup ∧
      ∀ b ∈ l.pending.eraseIdx j, s.access b = l.server.access b := by
  refine ⟨h.apart.sublist ((List.eraseIdx_sublist _ j).map _), fun b hb => ?_⟩
  obtain ⟨i, hij, hi⟩ := List.mem_eraseIdx_iff_getElem?.mp hb
  refine Server.access_step (h.holdsUp (List.mem_of_getElem? hi)) hs fun hba => hij ?_
  have hlt : i < (l.pending.map Act.runner).length := by
    rw [List.length_map]
    exact (List.getElem?_eq_some_iff.mp hi).1
  refine (List.getElem?_inj hlt h.apart).mp ?_
  rw [List.getElem?_map, List.getElem?_map, hi, hj, Option.map_some, Option.map_some, hba]

/-- A scan that has looked is the same operation. -/
theorem scanning_look {j n : ℕ} (hj : l.scanning[j]? = some (a, n + 1)) :
    (l.scanning.set j (a, n)).map (·.1) = l.scanning.map (·.1) := by
  refine List.ext_getElem? fun i => ?_
  rw [List.getElem?_map, List.getElem?_map, List.getElem?_set]
  split
  · rename_i hij
    subst hij
    rw [hj, if_pos (List.getElem?_eq_some_iff.mp hj).1]
    rfl
  · rfl

/-- A scan stands before the threads that wait. -/
theorem pending_leave {j n : ℕ} (hj : l.scanning[j]? = some (a, n)) :
    l.pending[j]? = some a ∧ l.pending.eraseIdx j = (l.scanning.eraseIdx j).map (·.1) ++ l.waiting := by
  have hlt : j < (l.scanning.map (·.1)).length := by
    rw [List.length_map]
    exact (List.getElem?_eq_some_iff.mp hj).1
  constructor
  · rw [pending, List.getElem?_append_left hlt, List.getElem?_map, hj, Option.map_some]
  · rw [pending, List.eraseIdx_append_of_lt_length hlt, List.eraseIdx_map]

theorem fits_step (h : l.Fits) (hl : l.step lab = some l') : l'.Fits := by
  cases step_cases hl with
  | @whole a s ha _ hs =>
    -- a thread that is inside an operation takes no step in one piece
    have hkeep : ∀ b ∈ l.pending, s.access b = l.server.access b := by
      intro b hb
      refine Server.access_step (h.holdsUp hb) hs fun hba => ?_
      have hsame := Server.access_of_runner (h.holdsUp hb) hs hba
      rw [hsame, h.holdsUp hb] at ha
      cases ha
    refine ⟨fun p hp => ?_, fun b hb => ?_, h.apart⟩
    · exact (hkeep p.1 (List.mem_append_left _ (List.mem_map_of_mem hp))).trans (h.scans p hp)
    · exact (hkeep b (List.mem_append_right _ hb)).trans (h.waits b hb)
  | enter _ ha hout _ =>
    refine ⟨fun p hp => ?_, h.waits, List.nodup_cons.mpr ⟨runner_not_mem hout, h.apart⟩⟩
    rcases List.mem_cons.mp hp with rfl | hp
    · exact ha
    · exact h.scans p hp
  | @look j a n _ hj _ =>
    have ha : l.server.access a = .scan := h.scans (a, n + 1) (List.mem_of_getElem? hj)
    refine ⟨Counting.forall_mem_set h.scans ha, h.waits, ?_⟩
    show ((_ ++ l.waiting).map Act.runner).Nodup
    rw [scanning_look hj]
    exact h.apart
  | @leave j a s hj hs =>
    obtain ⟨hpj, hpend⟩ := pending_leave hj
    obtain ⟨hnd, hkeep⟩ := h.ends hpj hs
    rw [hpend] at hnd hkeep
    refine ⟨fun p hp => ?_, fun b hb => ?_, hnd⟩
    · exact (hkeep p.1 (List.mem_append_left _ (List.mem_map_of_mem hp))).trans
        (h.scans p (List.mem_of_mem_eraseIdx hp))
    · exact (hkeep b (List.mem_append_right _ hb)).trans (h.waits b hb)
  | ask _ ha hout =>
    refine ⟨h.scans, fun b hb => ?_, ?_⟩
    · rcases List.mem_cons.mp hb with rfl | hb
      · exact ha
      · exact h.waits b hb
    · refine ((List.perm_middle.map Act.runner).nodup_iff).mpr ?_
      exact List.nodup_cons.mpr ⟨runner_not_mem hout, h.apart⟩
  | @hold j a s hj hn hs =>
    have hpend : l.pending = l.waiting := by rw [pending, hn]; rfl
    obtain ⟨hnd, hkeep⟩ := h.ends (by rw [hpend]; exact hj) hs
    rw [hpend] at hnd hkeep
    refine ⟨fun p hp => ?_, fun b hb => ?_, ?_⟩
    · rw [hn] at hp
      cases hp
    · exact (hkeep b hb).trans (h.waits b (List.mem_of_mem_eraseIdx hb))
    · show ((l.scanning.map (·.1) ++ _).map Act.runner).Nodup
      rw [hn]
      exact hnd

theorem fits_quiet (s : Server) : (quiet s).Fits :=
  ⟨fun _ hp => absurd hp List.not_mem_nil, fun _ ha => absurd ha List.not_mem_nil, List.nodup_nil⟩

theorem fits_of_reach {ok : LockedServer → Label → Prop} (hr : Trans.Reach step ok (quiet s) l) : l.Fits :=
  hr.invariant (I := Fits) (fits_quiet s) fun _ _ _ h _ hs => fits_step h hs

/-- **The table a scan looks at stays as it is** until the scan ends: it is the
one by which its times have been counted. -/
theorem accounts_of_scanning {ok : LockedServer → Label → Prop}
    (hr : Trans.Reach step ok (quiet (.boot rows ips)) l) (hscan : l.scanning ≠ []) (h : l.step lab = some l') :
    l'.server.accounts = l.server.accounts := by
  have hpick := Server.pick_of_reach (reach_server hr)
  cases step_cases h with
  | enter | look | ask => rfl
  | whole ha _ hs =>
    refine Server.accounts_eq hpick (fun hx => ?_) hs
    rw [hx] at ha
    cases ha
  | leave hj hs =>
    refine Server.accounts_eq hpick (fun hx => ?_) hs
    have hsc := (fits_of_reach hr).scans _ (List.mem_of_getElem? hj)
    rw [hx] at hsc
    cases hsc
  | hold _ hn => exact absurd hn hscan

/-- What the threads inside operations have still to do. -/
def toDo (l : LockedServer) : ℕ := (l.scanning.map fun p => p.2 + 1).sum + l.waiting.length

/-- The scans end one after another, and then those that wait come in. -/
theorem settle_step (h : l.Fits) (hd : l.server.dead = false) (hm : l.server.main.inSession = false)
    (hl : l.deadlocked = false) (hpos : l.pending ≠ []) :
    ∃ lab l', l.step lab = some l' ∧ l'.server.dead = false ∧ l'.server.main.inSession = false ∧
      l'.deadlocked = false ∧ l'.toDo < l.toDo := by
  obtain ⟨s, scanning, waiting⟩ := l
  cases scanning with
  | nil =>
    cases waiting with
    | nil => exact absurd rfl hpos
    | cons a waiting =>
      obtain ⟨s', hs', hd', hm'⟩ := Server.exists_step hd (h.holdsUp (List.mem_append_right _ List.mem_cons_self))
      refine ⟨.hold 0, ⟨s', [], waiting⟩, by simp [step, hs'], hd', hm'.trans hm, by simp [deadlocked], ?_⟩
      simp [toDo]
  | cons p scanning =>
    obtain ⟨a, n⟩ := p
    cases n with
    | zero =>
      obtain ⟨s', hs', hd', hm'⟩ := Server.exists_step hd (h.holdsUp (List.mem_append_left _ List.mem_cons_self))
      refine ⟨.leave 0, ⟨s', scanning, waiting⟩, by simp [step, hs'], hd', hm'.trans hm, ?_, ?_⟩
      · simpa [deadlocked] using hl
      · simp [toDo]
    | succ n =>
      have hw : waiting = [] := by simpa [deadlocked] using hl
      subst hw
      refine ⟨.look 0, ⟨s, (a, n) :: scanning, []⟩, by simpa [step] using hd, hd, hm, by simp [deadlocked], ?_⟩
      simp [toDo]

/-- **Where nobody is held up for good, all leave their operations.** -/
theorem settles (h : l.Fits) (hd : l.server.dead = false) (hm : l.server.main.inSession = false)
    (hl : l.deadlocked = false) :
    ∃ s, Trans.Reach step Intact l (quiet s) ∧ s.dead = false ∧ s.main.inSession = false := by
  have hstep : ∀ l : LockedServer,
      (l.Fits ∧ l.server.dead = false ∧ l.server.main.inSession = false ∧ l.deadlocked = false) →
      (l.pending = [] ∧ l.server.dead = false ∧ l.server.main.inSession = false) ∨
        ∃ lab l', Intact l lab ∧ l.step lab = some l' ∧
          (l'.Fits ∧ l'.server.dead = false ∧ l'.server.main.inSession = false ∧ l'.deadlocked = false) ∧
          l'.toDo < l.toDo := by
    rintro l ⟨h, hd, hm, hl⟩
    by_cases hpend : l.pending = []
    · exact Or.inl ⟨hpend, hd, hm⟩
    · obtain ⟨lab, l', hs, hd', hm', hl', hlt⟩ := settle_step h hd hm hl hpend
      exact Or.inr ⟨lab, l', intact_of_calm hm, hs, ⟨fits_step h hs, hd', hm', hl'⟩, hlt⟩
  obtain ⟨l', hr, hpend, hd', hm'⟩ := Trans.Reach.eventually toDo hstep ⟨h, hd, hm, hl⟩
  obtain ⟨s, scanning, waiting⟩ := l'
  obtain ⟨hscan, hwait⟩ := List.append_eq_nil_iff.mp hpend
  rw [List.map_eq_nil_iff] at hscan
  change scanning = [] at hscan
  change waiting = [] at hwait
  subst hscan hwait
  exact ⟨s, hr, hd', hm'⟩

/-! ### Coming to rest -/

/-- Nothing is under way, and nobody is inside an operation. -/
structure AtRest (l : LockedServer) : Prop where
  server : l.server.AtRest
  outside : l.pending = []

/-- **When the server can come to rest.** From a state that it reaches, if the
main thread is not inside `on_restart_lua_end`, it can go on until all sessions
have returned, the worker waits for a task and every device is `ONLINE_IDLE` or
`OFFLINE`, unless a thread waits to hold the account mutex while another that
holds it has still to lock it again: then it never can. -/
theorem comes_to_rest (hr : Trans.Reach step Intact (quiet (.boot rows ips)) l) (hd : l.server.dead = false)
    (hm : l.server.main.inSession = false) :
    (∃ l', Trans.Reach step Intact l l' ∧ l'.AtRest) ↔ l.deadlocked = false := by
  constructor
  · rintro ⟨l', hr', hrest⟩
    by_contra hl
    have hl' : l'.deadlocked = true :=
      hr'.invariant (I := fun l => l.deadlocked = true) (by simpa using hl) fun _ _ _ h _ hs => deadlocked_step h hs
    obtain ⟨-, hwait⟩ := List.append_eq_nil_iff.mp hrest.outside
    simp [deadlocked, hwait] at hl'
  · intro hl
    obtain ⟨s, hs, hds, hms⟩ := settles (fits_of_reach hr) hd hm hl
    obtain ⟨s', hs', hrest⟩ := Server.can_rest (reach_server (hr.trans hs)) hds hms
    have hpath : Trans.Reach step Intact (quiet s) (quiet s') :=
      lift_reach (hs'.mono fun _ _ hcalm => intact_of_calm hcalm)
    exact ⟨quiet s', hs.trans hpath, hrest, rfl⟩

end Run

/-! ### Two phones, three accounts -/

def threeRows : List (Str × AccountPro) := [(Str.of "a", default), (Str.of "b", default), (Str.of "c", default)]

/-- A task for two votes: one session has its reply to record, the other is at its draw. -/
def meetRun : List Act :=
  Server.connects [Str.of "p", Str.of "q"] ++ [.voteAdmit 2 (Str.of "u"), .voteSpawn] ++
    Server.moves 0 [.go, .go, .go, .ok, .go, .go, .go, .go, .go, .ok, .reply (.verdict .success)] ++
    Server.moves 1 [.go, .go, .go, .ok]

def meet : Server :=
  (Trans.run (Trans.guarded Server.step fun s _ => s.intact = true) (.boot threeRows []) meetRun).get
    (by decide +kernel)

theorem meet_reached : Trans.Reach step Intact (quiet (.boot threeRows [])) (quiet meet) :=
  lift_reach (Trans.Reach.of_guarded (Option.some_get _).symm)

/-- The writer comes when the draw has looked at its account. -/
def drawSeen : LockedServer :=
  (Trans.run (Trans.guarded step Intact) (quiet meet) [.enter (.thread 1 .go), .look 0, .ask (.thread 0 .go)]).get
    (by decide +kernel)

/-- The writer comes before that. -/
def drawHeld : LockedServer :=
  (Trans.run (Trans.guarded step Intact) (quiet meet) [.enter (.thread 1 .go), .ask (.thread 0 .go)]).get
    (by decide +kernel)

theorem comes_to_rest_meeting : (∃ l', Trans.Reach step Intact drawSeen l' ∧ l'.AtRest) ∧
    ¬ ∃ l', Trans.Reach step Intact drawHeld l' ∧ l'.AtRest := by
  have hseen : Trans.Reach step Intact (quiet meet) drawSeen := Trans.Reach.of_guarded (Option.some_get _).symm
  have hheld : Trans.Reach step Intact (quiet meet) drawHeld := Trans.Reach.of_guarded (Option.some_get _).symm
  refine ⟨(comes_to_rest (meet_reached.trans hseen) (by decide +kernel) (by decide +kernel)).mpr (by decide +kernel),
    fun h => ?_⟩
  have hfree := (comes_to_rest (meet_reached.trans hheld) (by decide +kernel) (by decide +kernel)).mp h
  exact absurd hfree (by decide +kernel)

end LockedServer

/-! ### The main thread inside `start` -/

namespace Server

/-- The main thread is in the wait loop of task `k`, as thread `i`. Every other
thread that is unfinished is there too, among them the own thread `j` of a
session, for which `join_all` waits before it comes to the one of the session
that the main thread runs. -/
structure Hung (i j k : ℕ) (s : Server) : Prop where
  main : s.main = .running i
  worker : s.worker = .joining k
  inside : ∃ t, s.threads[i]? = some t ∧ t.kind.task = some k ∧ t.pc.isWaiting = true ∧ j ≤ t.ses ∧
    ∃ own, s.threads[t.ses]? = some own ∧ own.kind = t.kind
  joins : ∃ u, s.threads[j]? = some u ∧ u.ses = j ∧ u.kind.task = some k ∧ u.pc.isWaiting = true
  others : ∀ t ∈ s.threads, t.pc = .done ∨ t.kind.task = some k ∧ t.pc.isWaiting = true
  needWait : (s.vote k).needWaitVote s.devices = true
  needVote : (s.vote k).needVote = true

section Hung

variable {i j k : ℕ} {s s' : Server} {a : Act}

theorem ne_done_of_isWaiting {pc : Pc} (h : pc.isWaiting = true) : pc ≠ .done := by
  rintro rfl
  cases h

theorem Hung.not_joined (h : Hung i j k s) : s.joined k = false := by
  obtain ⟨u, hu, hses, hk, hw⟩ := h.joins
  refine List.all_eq_false.mpr ⟨(u, j), List.mem_zipIdx_iff_getElem?.mpr hu, ?_⟩
  simp [hk, hses, ne_done_of_isWaiting hw]

/-- The session that the main thread runs is there. -/
theorem Hung.intact (h : Hung i j k s) : s.intact = true := by
  obtain ⟨t, ht, hk, -, hjt, own, hown, hkind⟩ := h.inside
  obtain ⟨u, hu, hses, hku, hw⟩ := h.joins
  have hdaily : u.kind ≠ .daily := by
    intro hd
    rw [hd] at hku
    cases hku
  have hmem : (u, j) ∈ (s.threads.take (t.ses + 1)).zipIdx := by
    refine List.mem_zipIdx_iff_getElem?.mpr ?_
    rw [List.getElem?_take_of_lt (Nat.lt_succ_of_le hjt)]
    exact hu
  have hhas : s.hasSession t.ses = true := by
    refine List.any_eq_true.mpr ⟨_, hmem, ?_⟩
    simp [hses, ne_done_of_isWaiting hw, hdaily, hown, hkind, hk, hku]
  simp [Server.intact, h.main, ht, hhas]

/-- The loop: asleep, and then waiting again. -/
theorem Hung.waits_on (h : Hung i j k s) {m : ℕ} {inp : Input} {t : Thread} {pc : Pc} {b : Bool} {s₁ : Server}
    (ht : s.threads[m]? = some t) (hc : SessionCase s t t.pc inp pc b s₁) :
    s₁ = s ∧ t.kind.task = some k ∧ pc.isWaiting = true := by
  obtain ⟨hk, hw⟩ := (h.others t (List.mem_of_getElem? ht)).resolve_left hc.ne_done
  generalize t.pc = pc₀ at hc hw
  cases hc
  case letOn hkt hno _ =>
    obtain rfl : k = _ := Option.some.inj (hk.symm.trans hkt)
    rw [h.needWait] at hno
    cases hno
  case quit hkt hno =>
    obtain rfl : k = _ := Option.some.inj (hk.symm.trans hkt)
    rw [h.needVote] at hno
    cases hno
  case hold => exact ⟨rfl, hk, rfl⟩
  case sleep => exact ⟨rfl, hk, rfl⟩
  all_goals cases hw

/-- The thread that moves is still that session's, and still in the loop. -/
theorem Hung.thread (h : Hung i j k s) {m : ℕ} {inp : Input} {t : Thread} {pc : Pc} {b : Bool} {s₁ : Server}
    (ht : s.threads[m]? = some t) (hc : SessionCase s t t.pc inp pc b s₁) :
    Hung i j k { s₁ with threads := s.threads.set m { t with pc := pc, sock := b } } := by
  obtain ⟨hs₁, hk, hw⟩ := h.waits_on ht hc
  rw [hs₁]
  have hlike : ∀ (n : ℕ) (u : Thread), s.threads[n]? = some u → ∃ u' : Thread,
      (s.threads.set m { t with pc := pc, sock := b })[n]? = some u' ∧
        u'.ses = u.ses ∧ u'.kind = u.kind ∧ (u.pc.isWaiting = true → u'.pc.isWaiting = true) := by
    intro n u hu
    by_cases hmn : m = n
    · subst hmn
      obtain rfl : t = u := Option.some.inj (ht.symm.trans hu)
      exact ⟨_, List.getElem?_set_self (List.getElem?_eq_some_iff.mp ht).1, rfl, rfl, fun _ => hw⟩
    · exact ⟨u, (List.getElem?_set_ne hmn).trans hu, rfl, rfl, id⟩
  obtain ⟨v, hv, hkv, hwv, hjv, own, hown, hkind⟩ := h.inside
  obtain ⟨v', hv', hses', hkv', hwv'⟩ := hlike i v hv
  obtain ⟨own', hown', -, hko', -⟩ := hlike v.ses own hown
  obtain ⟨u, hu, hsesu, hku, hwu⟩ := h.joins
  obtain ⟨u', hu', hses'', hku', hwu'⟩ := hlike j u hu
  refine ⟨h.main, h.worker, ⟨v', hv', hkv' ▸ hkv, hwv' hwv, hses' ▸ hjv, own', ?_, ?_⟩,
    ⟨u', hu', hses''.trans hsesu, hku' ▸ hku, hwu' hwu⟩, ?_, h.needWait, h.needVote⟩
  · rw [hses']
    exact hown'
  · rw [hko', hkind, hkv']
  · exact Counting.forall_mem_set h.others (Or.inr ⟨hk, hw⟩)

theorem hung_step (h : Hung i j k s) (hs : s.step a = some s') : Hung i j k s' := by
  have hidle : s.main ≠ .idle := by rw [h.main]; simp
  have hwork : s.worker ≠ .idle := by rw [h.worker]; simp
  cases (step_cases hs).2
  case thread ht hc => exact h.thread ht hc
  case returned i' hm hdone =>
    rw [h.main] at hm
    cases hm
    obtain ⟨t, ht, -, hw, -⟩ := h.inside
    rw [ht, Option.map_some, Option.some.injEq] at hdone
    exact absurd hdone (ne_done_of_isWaiting hw)
  case voteRefuse hw => exact absurd hw hwork
  case voteAdmit hw => exact absurd hw hwork
  case voteSpawn hw =>
    rw [h.worker] at hw
    cases hw
  case voteJoin k' hw hj =>
    obtain rfl : k = k' := WorkerPc.joining.inj (h.worker.symm.trans hw)
    rw [h.not_joined] at hj
    cases hj
  case restartReply hm _ _ => exact absurd hm hidle
  case acceptAgain hm _ => exact absurd hm hidle
  case acceptNew hm _ => exact absurd hm hidle
  case disconnect hm _ => exact absurd hm hidle
  case resetTask hm => exact absurd hm hidle
  case dailyTask hm => exact absurd hm hidle
  case restart hm _ => rw [h.main] at hm; cases hm
  all_goals
    rename_i hm
    rw [h.main] at hm
    cases hm

end Hung
end Server

namespace LockedServer

/-- **The main thread can hang for good.** Where the main thread is inside
`start` for a session of a vote task that waits, and the sessions that the task
is still joining wait too, it stays there in every run, and so does the worker:
no phone is accepted, no timer's handler runs and no further task is done. The
session it runs is not destroyed. -/
theorem hung_forever {i j k : ℕ} {l l' : LockedServer} (h : l.server.Hung i j k)
    (hr : Trans.Reach step (fun _ _ => True) l l') :
    l'.server.main = .running i ∧ l'.server.worker = .joining k ∧ l'.server.intact = true ∧ ¬ l'.AtRest := by
  have hh : l'.server.Hung i j k :=
    (reach_server hr).invariant (I := Server.Hung i j k) h fun _ _ _ h _ hs => Server.hung_step h hs
  refine ⟨hh.main, hh.worker, hh.intact, fun hrest => ?_⟩
  have hmain := hrest.server.main
  rw [hh.main] at hmain
  cases hmain

/-- A task for one vote. The phone of the second session restarts, and the
session is entered again on the main thread: its first write fails, and the
second draw waits for the device it runs on. The first session waits for it too. -/
def hangRun : List Act :=
  Server.connects [Str.of "p", Str.of "q"] ++ [.voteAdmit 1 (Str.of "u"), .voteSpawn] ++
    Server.moves 1 [.go, .go, .go, .err] ++ [.restartReply 1, .main] ++ Server.moves 1 [.cancelled, .go] ++
    Server.moves 2 [.go, .go, .go, .ok, .go, .go, .go, .go, .go, .err, .go, .go, .go, .go] ++
    Server.moves 0 [.go, .go, .go, .ok, .go, .go, .go, .go]

def mainWaits : Server :=
  (Trans.run (Trans.guarded Server.step fun s _ => s.intact = true) (.boot threeRows []) hangRun).get
    (by decide +kernel)

theorem mainWaits_hung : mainWaits.Hung 2 0 0 where
  main := by decide +kernel
  worker := by decide +kernel
  inside := ⟨⟨1, Str.of "p", .vote 0 (Str.of "u"), true, .waiting (Str.of "b")⟩, by decide +kernel, rfl, rfl,
    by decide, ⟨1, Str.of "p", .vote 0 (Str.of "u"), false, .done⟩, by decide +kernel, rfl⟩
  joins := ⟨⟨0, Str.of "q", .vote 0 (Str.of "u"), true, .waiting (Str.of "c")⟩, by decide +kernel, rfl, rfl, rfl⟩
  others := by decide +kernel
  needWait := by decide +kernel
  needVote := by decide +kernel

theorem hung_forever_reached : ∃ l, Trans.Reach step Intact (quiet (.boot threeRows [])) l ∧
    ∀ l', Trans.Reach step (fun _ _ => True) l l' →
      l'.server.main = .running 2 ∧ l'.server.worker = .joining 0 ∧ l'.server.intact = true ∧ ¬ l'.AtRest :=
  ⟨quiet mainWaits, lift_reach (Trans.Reach.of_guarded (Option.some_get _).symm),
    fun _ hr => hung_forever mainWaits_hung hr⟩

end LockedServer
end ScheduleCenter
