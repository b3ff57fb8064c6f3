/-
# What a step of the server can do

`SessionCase` lists what one step of a session thread can do, each case with
its guard, and `StepCase` what one step of the server can do
(`sessionStep_cases`, `step_cases`); the invariants of the later files are
proved by cases on them and do not unfold the step functions. A step of a
session thread changes no other thread (`step_thread`) and no other device's
status (`SessionCase.getStatus_ne`).

Key definitions: `Server.SessionCase`, `Server.StepCase`, `Server.connects`, `Server.moves`.
Key theorems: `Server.sessionStep_cases`, `Server.step_cases`, `Server.step_thread`,
`SessionCase.threads_eq`, `SessionCase.getStatus_ne`.
-/
import ScheduleCenter.Server
import ScheduleCenter.Base.Trans

namespace ScheduleCenter

/-! ### The device map -/

namespace DeviceMgr

@[simp]
theorem getStatus_setStatus_self (d : DeviceMgr) (ip : Str) (status : DeviceStatus) :
    (d.setStatus ip status).getStatus ip = status := by
  unfold setStatus getStatus
  split
  · simp_all
  · simp

theorem getStatus_setStatus_ne (d : DeviceMgr) {ip ip' : Str} (status : DeviceStatus) (h : ip' ≠ ip) :
    (d.setStatus ip status).getStatus ip' = d.getStatus ip' := by
  unfold setStatus getStatus
  split
  · rfl
  · rw [AList.lookup_insert_ne h]

theorem getStatus_setStatus (d : DeviceMgr) (ip ip' : Str) (status : DeviceStatus) :
    (d.setStatus ip status).getStatus ip' = if ip' = ip then status else d.getStatus ip' := by
  split
  · subst_vars; simp
  · exact getStatus_setStatus_ne d status ‹_›

/-- An ip with a status other than the default of a missing record is counted
under it: distinct ips with the same status are no more than its count. -/
theorem length_le_getStatusCount (d : DeviceMgr) {status : DeviceStatus} (hs : status ≠ .offline)
    {ips : List Str} (hn : ips.Nodup) (h : ∀ ip ∈ ips, d.getStatus ip = status) :
    ips.length ≤ d.getStatusCount status := by
  have hsub : ips ⊆ (d.entries.filter fun e => e.2 = status).map fun e => e.1 := by
    intro ip hip
    have hst := h ip hip
    unfold getStatus at hst
    cases hl : d.lookup ip with
    | none => rw [hl] at hst; exact absurd hst.symm hs
    | some st =>
      rw [hl] at hst
      have hmem : (⟨ip, st⟩ : Sigma fun _ : Str => DeviceStatus) ∈ d.entries := AList.mem_lookup_iff.mp hl
      exact List.mem_map.mpr ⟨_, List.mem_filter.mpr ⟨hmem, by simpa using hst⟩, rfl⟩
  calc ips.length ≤ ((d.entries.filter fun e => e.2 = status).map fun e => e.1).length :=
        (hn.subperm hsub).length_le
    _ = d.getStatusCount status := by rw [List.length_map, getStatusCount, List.countP_eq_length_filter]

/-- If a status is counted, some ip has it. -/
theorem exists_of_getStatusCount_pos (d : DeviceMgr) {status : DeviceStatus}
    (h : 0 < d.getStatusCount status) : ∃ ip, d.getStatus ip = status := by
  obtain ⟨⟨ip, st⟩, he, hst⟩ := List.countP_pos_iff.mp h
  refine ⟨ip, ?_⟩
  have hl : d.lookup ip = some st := AList.mem_lookup_iff.mpr he
  simpa [getStatus, hl] using hst

/-- If a status is not counted, no ip has it. -/
theorem getStatus_ne_of_getStatusCount (d : DeviceMgr) {status : DeviceStatus} (hs : status ≠ .offline)
    (h : d.getStatusCount status = 0) (ip : Str) : d.getStatus ip ≠ status := by
  intro hip
  have hle := d.length_le_getStatusCount hs (List.nodup_singleton ip) (by simpa using hip)
  rw [h] at hle
  simp at hle

end DeviceMgr

namespace Server

/-! ### A session step, case by case -/

/-- What a step of a session thread can do: from a place and an input to a
place, the state of the socket and a server. -/
inductive SessionCase (s : Server) (t : Thread) : Pc → Input → Pc → Bool → Server → Prop
  | found (h : t.ip ∈ s.conns) : SessionCase s t .init .go .begin t.sock s
  | notFound (h : t.ip ∉ s.conns) : SessionCase s t .init .go .done t.sock s
  | begin : SessionCase s t .begin .go .bind t.sock (s.setStatus t.ip .taskBegin)
  | bind : SessionCase s t .bind .go .connect t.sock
      (s.withSlots (if t.ses ∈ s.slots then s.slots else t.ses :: s.slots))
  | connected : SessionCase s t .connect .ok .draw true s
  | refused : SessionCase s t .connect .err (.restartWait false) t.sock s
  | wakeInLoop {inp : Input} (slots : List ℕ)
      (h : inp = .expired ∧ slots = s.slots.erase t.ses ∨ inp = .cancelled ∧ slots = s.slots) :
      SessionCase s t (.restartWait true) inp .draw t.sock (s.withSlots slots)
  | wake {inp : Input} (slots : List ℕ)
      (h : inp = .expired ∧ slots = s.slots.erase t.ses ∨ inp = .cancelled ∧ slots = s.slots) :
      SessionCase s t (.restartWait false) inp .close t.sock (s.withSlots slots)
  | empty (h : (s.accounts.pick t.kind).1 = none) :
      SessionCase s t .draw .go .close t.sock (s.withAccounts (s.accounts.pick t.kind).2)
  | pick {n : Node} (h : (s.accounts.pick t.kind).1 = some n) :
      SessionCase s t .draw .go (.picked n) t.sock (s.withAccounts (s.accounts.pick t.kind).2)
  | deref (n : Node) : SessionCase s t (.picked n) .go (.taken n n.acc) t.sock s
  | eraseVote (n : Node) (acc : Str) (hk : t.kind ≠ .daily) :
      SessionCase s t (.taken n acc) .go (.check acc) t.sock (s.withAccounts (s.accounts.eraseIdle n))
  | eraseDaily (n : Node) (acc : Str) (hk : t.kind = .daily) :
      SessionCase s t (.taken n acc) .go (.mark acc) t.sock (s.withAccounts (s.accounts.eraseIdle n))
  | letOn {pc : Pc} {acc : Str} {k : ℕ} (hpc : pc = .check acc ∨ pc = .asleep acc)
      (hk : t.kind.task = some k) (h : (s.vote k).needWaitVote s.devices = false) :
      SessionCase s t pc .go (.mark acc) t.sock s
  | hold {pc : Pc} {acc : Str} {k : ℕ} (hpc : pc = .check acc ∨ pc = .asleep acc)
      (hk : t.kind.task = some k) (h : (s.vote k).needWaitVote s.devices = true) :
      SessionCase s t pc .go (.waiting acc) t.sock s
  | sleep {acc : Str} {k : ℕ} (hk : t.kind.task = some k) (h : (s.vote k).needVote = true) :
      SessionCase s t (.waiting acc) .go (.asleep acc) t.sock s
  | quit {acc : Str} {k : ℕ} (hk : t.kind.task = some k) (h : (s.vote k).needVote = false) :
      SessionCase s t (.waiting acc) .go .close t.sock s
  | mark (acc : Str) : SessionCase s t (.mark acc) .go (.write acc) t.sock (s.setStatus t.ip t.kind.busy)
  | write (acc : Str) (h : t.sock = true) : SessionCase s t (.write acc) .ok (.sent acc) t.sock s
  | writeErr (acc : Str) : SessionCase s t (.write acc) .err .draw t.sock s
  | reply (acc : Str) (v : Verdict) :
      SessionCase s t (.sent acc) (.reply (.verdict v)) (.record acc v) t.sock s
  | badJson (acc : Str) (h : t.kind ≠ .daily) :
      SessionCase s t (.sent acc) (.reply .badJson) (.readEnd false) t.sock s
  | die (acc : Str) {r : Reply} (h : r = .throws ∨ r = .badJson ∧ t.kind = .daily) :
      SessionCase s t (.sent acc) (.reply r) .done t.sock { s with dead := true }
  | readError (acc : Str) : SessionCase s t (.sent acc) .readError (.readEnd false) t.sock s
  | timeout (acc : Str) : SessionCase s t (.sent acc) .expired (.readEnd true) false s
  | recordVote (acc : Str) (hk : t.kind ≠ .daily) : SessionCase s t (.record acc .success) .go (.count acc) t.sock
      (s.withAccounts (s.accounts.recordReply t.kind acc .success))
  | record (acc : Str) (v : Verdict) (hv : v = .success → t.kind = .daily) :
      SessionCase s t (.record acc v) .go (.putBack acc) t.sock (s.withAccounts (s.accounts.recordReply t.kind acc v))
  | count {acc : Str} {k : ℕ} (hk : t.kind.task = some k) :
      SessionCase s t (.count acc) .go (.putBack acc) t.sock (s.addSucCount k 1)
  | putBack (acc : Str) : SessionCase s t (.putBack acc) .go (.readEnd false) t.sock
      (s.withAccounts (s.accounts.setIdleAccount acc))
  | readEnd : SessionCase s t (.readEnd false) .go .draw t.sock (s.setStatus t.ip t.kind.busyEnd)
  | readEndTimedOut :
      SessionCase s t (.readEnd true) .go (.restartWait true) t.sock (s.setStatus t.ip t.kind.busyEnd)
  | lateTimeout : SessionCase s t (.readEnd false) .expired (.restartWait true) false
      (s.setStatus t.ip t.kind.busyEnd)
  | close : SessionCase s t .close .go .done false (s.setStatus t.ip .onlineIdle)

section Cases

variable {s s' : Server} {t : Thread} {pc pc' : Pc} {inp : Input} {b : Bool}

private theorem letOn_or_hold {acc : Str} {k : ℕ} (hpc : pc = .check acc ∨ pc = .asleep acc)
    (hk : t.kind.task = some k)
    (h : (if (s.vote k).needWaitVote s.devices then Pc.waiting acc else .mark acc) = pc') :
    SessionCase s t pc .go pc' t.sock s := by
  subst h
  cases hw : (s.vote k).needWaitVote s.devices
  · exact .letOn hpc hk hw
  · exact .hold hpc hk hw

theorem sessionStep_cases (h : s.sessionStep t pc inp = some (pc', b, s')) :
    SessionCase s t pc inp pc' b s' := by
  unfold sessionStep at h
  split at h
  all_goals try simp only [Option.some.injEq, Prod.mk.injEq, Option.map_eq_some_iff, reduceCtorEq] at h
  case h_1 => -- init
    obtain ⟨rfl, rfl, rfl⟩ := h
    split
    · exact .found ‹_›
    · exact .notFound ‹_›
  case h_6 => -- the restart timer expires
    obtain ⟨rfl, rfl, rfl⟩ := h
    rename_i inLoop
    cases inLoop
    · exact .wake _ (.inl ⟨rfl, rfl⟩)
    · exact .wakeInLoop _ (.inl ⟨rfl, rfl⟩)
  case h_7 => -- the restart timer is cancelled
    obtain ⟨rfl, rfl, rfl⟩ := h
    rename_i inLoop
    cases inLoop
    · exact .wake s.slots (.inr ⟨rfl, rfl⟩)
    · exact .wakeInLoop s.slots (.inr ⟨rfl, rfl⟩)
  case h_8 => -- draw
    obtain ⟨rfl, rfl, rfl⟩ := h
    cases hp : (s.accounts.pick t.kind).1 with
    | none => exact .empty hp
    | some n => exact .pick hp
  case h_10 => -- taken
    obtain ⟨rfl, rfl, rfl⟩ := h
    split
    · exact .eraseDaily _ _ ‹_›
    · exact .eraseVote _ _ ‹_›
  case h_11 => -- check
    obtain ⟨k, hk, hpc, rfl, rfl⟩ := h
    exact letOn_or_hold (.inl rfl) hk hpc
  case h_12 => -- asleep
    obtain ⟨k, hk, hpc, rfl, rfl⟩ := h
    exact letOn_or_hold (.inr rfl) hk hpc
  case h_13 => -- waiting
    obtain ⟨k, hk, rfl, rfl, rfl⟩ := h
    cases hw : (s.vote k).needVote
    · exact .quit hk hw
    · exact .sleep hk hw
  case h_15 => -- write
    split at h
    · cases h; exact .write _ ‹_›
    · cases h
  case h_18 => -- a reply that is not JSON
    by_cases hd : t.kind = .daily
    · rw [if_pos hd] at h
      cases h; exact .die _ (.inr ⟨rfl, hd⟩)
    · rw [if_neg hd] at h
      cases h; exact .badJson _ hd
  case h_19 => obtain ⟨rfl, rfl, rfl⟩ := h; exact .die _ (.inl rfl)
  case h_22 => -- record
    obtain ⟨rfl, rfl, rfl⟩ := h
    rename_i acc v
    cases v with
    | success =>
      by_cases hd : t.kind = .daily
      · rw [afterRecord, if_pos hd]; exact .record _ _ fun _ => hd
      · rw [afterRecord, if_neg hd]; exact .recordVote _ hd
    | fatal => exact .record _ _ (by simp)
    | other => exact .record _ _ (by simp)
  case h_23 => -- count
    obtain ⟨k, hk, rfl, rfl, rfl⟩ := h
    exact .count hk
  case h_25 => -- readEnd
    obtain ⟨rfl, rfl, rfl⟩ := h
    rename_i timedOut
    cases timedOut
    · exact .readEnd
    · exact .readEndTimedOut
  all_goals
    obtain ⟨rfl, rfl, rfl⟩ := h
    constructor

/-- A session step leaves the threads to `step`. -/
theorem SessionCase.threads_eq (h : SessionCase s t pc inp pc' b s') : s'.threads = s.threads := by
  cases h <;> rfl

/-- A session step leaves the pool and the main thread alone. -/
theorem SessionCase.pool_eq (h : SessionCase s t pc inp pc' b s') : s'.conns = s.conns ∧ s'.main = s.main := by
  cases h <;> exact ⟨rfl, rfl⟩

/-- A thread that has returned takes no step. -/
theorem SessionCase.ne_done (h : SessionCase s t pc inp pc' b s') : pc ≠ .done := by
  cases h
  case letOn hpc => rcases hpc with rfl | rfl <;> simp
  case hold hpc => rcases hpc with rfl | rfl <;> simp
  all_goals simp

/-- A session step writes no other device's status. -/
theorem SessionCase.getStatus_ne (h : SessionCase s t pc inp pc' b s') {ip : Str} (hip : ip ≠ t.ip) :
    s'.devices.getStatus ip = s.devices.getStatus ip := by
  cases h
  case begin | mark | readEnd | readEndTimedOut | lateTimeout | close =>
    exact DeviceMgr.getStatus_setStatus_ne _ _ hip
  all_goals rfl

end Cases

/-! ### A step of the server, case by case -/

/-- What a step can do. -/
inductive StepCase (s : Server) : Act → Server → Prop
  | thread {i : ℕ} {inp : Input} {t : Thread} {pc : Pc} {b : Bool} {s₁ : Server}
      (ht : s.threads[i]? = some t) (h : SessionCase s t t.pc inp pc b s₁) :
      StepCase s (.thread i inp) { s₁ with threads := s.threads.set i { t with pc := pc, sock := b } }
  | stopErase {ip : Str} {again : Bool} (hm : s.main = .stopErase ip again) :
      StepCase s .main { s with conns := s.conns.erase ip, main := if again then .startIdle ip else .idle }
  | startIdle {ip : Str} (hm : s.main = .startIdle ip) :
      StepCase s .main { s.setStatus ip .onlineIdle with main := .startInsert ip }
  | startInsert {ip : Str} (hm : s.main = .startInsert ip) :
      StepCase s .main { s with conns := ip :: s.conns, main := .idle }
  | restart {ses : ℕ} {t : Thread} (hm : s.main = .restart ses) (ht : s.findSession ses = some t) :
      StepCase s .main { s with
        threads := s.threads ++ [{ t with sock := false, pc := .init }], main := .running s.threads.length }
  | returned {i : ℕ} (hm : s.main = .running i) (ht : (s.threads[i]?).map (·.pc) = some .done) :
      StepCase s .main { s with main := .idle }
  | resetDone (hm : s.main = .resetting []) : StepCase s .main { s with main := .idle }
  | reset {acc : Str} {todo : List Str} (hm : s.main = .resetting (acc :: todo)) :
      StepCase s .main { s.withAccounts (s.accounts.setEverydayTask acc dailytaskNotFinished) with
        main := .resetting todo }
  | acceptAgain {ip : Str} (hm : s.main = .idle) (hip : ip ∈ s.conns) :
      StepCase s (.accept ip) { s.setStatus ip .offline with main := .stopErase ip true }
  | acceptNew {ip : Str} (hm : s.main = .idle) (hip : ip ∉ s.conns) :
      StepCase s (.accept ip) { s with main := .startIdle ip }
  | disconnect {ip : Str} (hm : s.main = .idle) (hip : ip ∈ s.conns) :
      StepCase s (.disconnect ip) { s.setStatus ip .offline with main := .stopErase ip false }
  | restartReply {ses : ℕ} {t : Thread} (hm : s.main = .idle) (hs : ses ∈ s.slots)
      (ht : s.findSession ses = some t) :
      StepCase s (.restartReply ses) { s.setStatus t.ip .onlineIdle with main := .restart ses }
  | resetTask (hm : s.main = .idle) :
      StepCase s .resetTask { s with main := .resetting s.accounts.accountsPro.keys }
  | dailyTask (hm : s.main = .idle) : StepCase s .dailyTask (s.spawn .daily s.devices.idleIps)
  | voteRefuse {target : Int} {url : Str} (hw : s.worker = .idle) : StepCase s (.voteAdmit target url) s
  | voteAdmit {target : Int} {url : Str} (hw : s.worker = .idle) :
      StepCase s (.voteAdmit target url) { s with worker := .admitted target url }
  | voteSpawn {target : Int} {url : Str} (hw : s.worker = .admitted target url) :
      StepCase s .voteSpawn { s.spawn (.vote s.votes.length url) s.devices.idleIps with
        votes := s.votes ++ [⟨0, target⟩], worker := .joining s.votes.length }
  | voteJoin {k : ℕ} (hw : s.worker = .joining k) (hj : s.joined k = true) :
      StepCase s .voteJoin { s with
        votes := s.votes.set k { s.vote k with successCount := 0 }, worker := .idle }

theorem mainStep_cases {s s' : Server} (h : s.mainStep s.main = some s') : StepCase s .main s' := by
  cases hm : s.main <;> rw [hm] at h
  case idle => cases h
  case stopErase ip again => cases h; exact .stopErase hm
  case startIdle ip => cases h; exact .startIdle hm
  case startInsert ip => cases h; exact .startInsert hm
  case restart ses =>
    simp only [mainStep, Option.map_eq_some_iff] at h
    obtain ⟨t, ht, rfl⟩ := h
    exact .restart hm ht
  case running i =>
    simp only [mainStep] at h
    split at h
    · cases h; exact .returned hm ‹_›
    · cases h
  case resetting todo =>
    cases todo with
    | nil => cases h; exact .resetDone hm
    | cons acc todo => cases h; exact .reset hm

theorem step_cases {s s' : Server} {a : Act} (h : s.step a = some s') : s.dead = false ∧ StepCase s a s' := by
  unfold step at h
  split at h
  · cases h
  rename_i hd
  refine ⟨by simpa using hd, ?_⟩
  cases a with
  | thread i inp =>
    simp only [Option.bind_eq_bind, Option.bind_eq_some_iff, Option.pure_def, Option.some.injEq] at h
    obtain ⟨t, ht, ⟨pc, b, s₁⟩, hs, rfl⟩ := h
    have hc := sessionStep_cases hs
    rw [hc.threads_eq]
    exact .thread ht hc
  | main => exact mainStep_cases h
  | accept ip =>
    simp only at h
    split at h
    · split at h
      · cases h; exact .acceptAgain ‹_› ‹_›
      · cases h; exact .acceptNew ‹_› ‹_›
    · cases h
  | disconnect ip =>
    simp only at h
    split at h
    · rename_i hg; cases h; exact .disconnect hg.1 hg.2
    · cases h
  | restartReply ses =>
    simp only at h
    split at h
    · rename_i hg
      simp only [Option.map_eq_some_iff] at h
      obtain ⟨t, ht, rfl⟩ := h
      exact .restartReply hg.1 hg.2 ht
    · cases h
  | resetTask =>
    simp only at h
    split at h
    · cases h; exact .resetTask ‹_›
    · cases h
  | dailyTask =>
    simp only at h
    split at h
    · cases h; exact .dailyTask ‹_›
    · cases h
  | voteAdmit target url =>
    simp only at h
    split at h
    · rename_i hw
      cases h
      split
      · exact .voteRefuse hw
      · exact .voteAdmit hw
    · cases h
  | voteSpawn =>
    simp only at h
    split at h
    · cases h; exact .voteSpawn ‹_›
    · cases h
  | voteJoin =>
    simp only at h
    split at h
    · split at h
      · cases h; exact .voteJoin ‹_› ‹_›
      · cases h
    · cases h

/-- A step of thread `i`: what that thread can do, with its place updated. -/
theorem step_thread {s s' : Server} {i : ℕ} {inp : Input} (h : s.step (.thread i inp) = some s') :
    ∃ t pc b s₁, s.threads[i]? = some t ∧ SessionCase s t t.pc inp pc b s₁ ∧
      s' = { s₁ with threads := s.threads.set i { t with pc := pc, sock := b } } := by
  cases (step_cases h).2 with
  | thread ht hc => exact ⟨_, _, _, _, ht, hc, rfl⟩

/-- The threads a task starts have not run yet. -/
theorem init_of_mem_mapIdx {ips : List Str} {kind : Kind} {n : ℕ} {u : Thread}
    (hu : u ∈ ips.mapIdx fun j ip => (⟨n + j, ip, kind, false, .init⟩ : Thread)) : u.pc = .init := by
  obtain ⟨j, hj, rfl⟩ := List.mem_mapIdx.mp hu
  rfl

/-! ### Sequences of labels -/

/-- Phones connect one after another. -/
def connects (ips : List Str) : List Act := ips.flatMap fun ip => [.accept ip, .main, .main]

/-- Thread `i` takes a step for each input. -/
def moves (i : ℕ) (inps : List Input) : List Act := inps.map (.thread i)

end Server
end ScheduleCenter
