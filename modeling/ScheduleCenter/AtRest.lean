/-
# Coming to rest

A device is marked `TASK_BEGIN`, `WX_VOTING`, `WX_VOTE_END`, `DAILY_TASK` or
`DAILY_TASK_END` by a session, and marked `ONLINE_IDLE` by the session's last
step. So whatever the sessions, the phones and the restart callback write over
one another, a device with one of these statuses has a session in it that gives
this status and has not returned (`busy_in_charge`): no device stays busy.

And whatever has happened, the sessions can be brought to their ends and the
worker to its next task (`can_rest`), unless the main thread itself is inside
`on_restart_lua_end`: a phone that connects again takes its device out of
`WX_VOTING`, and so a session out of the wait loop, and it is the main thread
that accepts it. Here a draw is one step, so this is about a server whose
account mutex holds nobody up; `LockedServer` adds the mutex.

Key definitions: `DeviceStatus.isBusy`, `Kind.gives`, `Server.InCharge`, `MainPc.inSession`, `Server.AtRest`.
Key theorems: `Server.inCharge_step`, `Server.busy_in_charge`, `Server.At.ends`, `Server.can_rest`.
-/
import ScheduleCenter.Busy
import ScheduleCenter.Connected
import ScheduleCenter.Reported
import ScheduleCenter.WaitLoop

namespace ScheduleCenter

/-- A status that only a session gives. -/
def DeviceStatus.isBusy : DeviceStatus → Bool
  | .onlineIdle | .offline => false
  | _ => true

/-- The statuses a session gives its device before its last step. -/
def Kind.gives (kind : Kind) (status : DeviceStatus) : Bool :=
  status = .taskBegin || status = kind.busy || status = kind.busyEnd

namespace DeviceMgr

/-- Another status for a device adds nothing to the count of this one. -/
theorem getStatusCount_setStatus_le (d : DeviceMgr) (ip : Str) {status st : DeviceStatus} (hs : status ≠ st) :
    (d.setStatus ip status).getStatusCount st ≤ d.getStatusCount st := by
  unfold setStatus
  split
  · exact le_refl _
  · unfold getStatusCount
    rw [AList.entries_insert, List.countP_cons_of_neg (by simpa using hs)]
    exact (List.kerase_sublist ip d.entries).countP_le

/-- Another status for a device that is counted takes it out. -/
theorem getStatusCount_setStatus_lt (d : DeviceMgr) {ip : Str} {status st : DeviceStatus}
    (hip : d.getStatus ip = st) (hoff : st ≠ .offline) (hs : status ≠ st) :
    (d.setStatus ip status).getStatusCount st < d.getStatusCount st := by
  have hl : d.lookup ip = some st := by
    unfold getStatus at hip
    cases hl : d.lookup ip with
    | none =>
      rw [hl] at hip
      exact absurd hip.symm hoff
    | some st' =>
      rw [hl] at hip
      exact congrArg some hip
  have hmem : ip ∈ d.entries.keys := AList.lookup_isSome.mp (by rw [hl]; rfl)
  obtain ⟨st', l₁, l₂, -, he, hk⟩ := List.exists_of_kerase hmem
  have hst' : st' = st := by
    have hin : (⟨ip, st'⟩ : Sigma fun _ : Str => DeviceStatus) ∈ d.entries := by simp [he]
    exact Option.some.inj ((AList.mem_lookup_iff.mpr hin).symm.trans hl)
  subst hst'
  unfold setStatus getStatusCount
  rw [if_neg (by rw [hl]; exact fun h => hs (Option.some.inj h).symm), AList.entries_insert,
    List.countP_cons_of_neg (by simpa using hs), hk, he]
  simp only [List.countP_append, List.countP_cons, decide_true, if_true]
  omega

end DeviceMgr

/-- Where only a session of a vote task is. -/
def Pc.forVotes : Pc → Bool
  | .check _ | .waiting _ | .asleep _ | .count _ => true
  | _ => false

/-- Inside `on_restart_lua_end` of a session. -/
def MainPc.inSession : MainPc → Bool
  | .restart _ | .running _ => true
  | _ => false

/-- The steps that a handler of the pool, or the reset, has left. -/
def MainPc.left : MainPc → ℕ
  | .stopErase _ again => if again then 3 else 1
  | .startIdle _ => 2
  | .startInsert _ => 1
  | .resetting todo => todo.length + 1
  | .idle | .restart _ | .running _ => 0

namespace Server

/-- A session is inside `start` for `ip`, one that gives the status `ip` has. -/
def InCharge (s : Server) (ip : Str) : Prop :=
  ∃ t ∈ s.threads, t.ip = ip ∧ t.pc.isInside = true ∧ t.kind.gives (s.devices.getStatus ip) = true

/-- Every busy device has a session in charge. -/
def Charged (s : Server) : Prop := ∀ ip, (s.devices.getStatus ip).isBusy = true → s.InCharge ip

/-! ### Who is in charge -/

section Step

variable {s s' s₁ : Server} {i : ℕ} {inp : Input} {t : Thread} {pc : Pc} {b : Bool}

/-- A session step leaves the status of its device, gives it one of its own and
goes on, or gives it `ONLINE_IDLE`. -/
theorem SessionCase.gives (hc : SessionCase s t t.pc inp pc b s₁) :
    s₁.devices = s.devices ∨
      pc.isInside = true ∧ t.kind.gives (s₁.devices.getStatus t.ip) = true ∨
      s₁.devices.getStatus t.ip = .onlineIdle := by
  generalize t.pc = pc₀ at hc
  cases hc
  case begin => exact Or.inr (Or.inl ⟨rfl, by simp [Kind.gives]⟩)
  case mark => exact Or.inr (Or.inl ⟨rfl, by simp [Kind.gives]⟩)
  case readEnd => exact Or.inr (Or.inl ⟨rfl, by simp [Kind.gives]⟩)
  case readEndTimedOut => exact Or.inr (Or.inl ⟨rfl, by simp [Kind.gives]⟩)
  case lateTimeout => exact Or.inr (Or.inl ⟨rfl, by simp [Kind.gives]⟩)
  case close => exact Or.inr (Or.inr (by simp))
  all_goals exact Or.inl rfl

/-- A session that is inside stays inside until it marks its device
`ONLINE_IDLE`, or the process ends. -/
theorem SessionCase.stays (hc : SessionCase s t t.pc inp pc b s₁) (hin : t.pc.isInside = true) :
    pc.isInside = true ∨ s₁.dead = true ∨ s₁.devices.getStatus t.ip = .onlineIdle := by
  generalize t.pc = pc₀ at hc hin
  cases hc
  case found => cases hin
  case notFound => cases hin
  case begin => cases hin
  case die => exact Or.inr (Or.inl rfl)
  case close => exact Or.inr (Or.inr (by simp))
  all_goals exact Or.inl rfl

theorem inCharge_thread (h : s.Charged) (ht : s.threads[i]? = some t) (hc : SessionCase s t t.pc inp pc b s₁)
    (hd : s₁.dead = false) :
    Charged { s₁ with threads := s.threads.set i { t with pc := pc, sock := b } } := by
  have hi : i < s.threads.length := (List.getElem?_eq_some_iff.mp ht).1
  have hself : { t with pc := pc, sock := b } ∈ s.threads.set i { t with pc := pc, sock := b } :=
    List.mem_set hi _
  intro ip hbusy
  change (s₁.devices.getStatus ip).isBusy = true at hbusy
  -- the one who was in charge is another thread, or the one that moves
  have hold : s₁.devices.getStatus ip = s.devices.getStatus ip →
      InCharge { s₁ with threads := s.threads.set i { t with pc := pc, sock := b } } ip := by
    intro hst
    obtain ⟨u, hu, hip, hin, hg⟩ := h ip (by rwa [hst] at hbusy)
    obtain ⟨j, hj⟩ := List.mem_iff_getElem?.mp hu
    by_cases hji : j = i
    · subst hji
      obtain rfl : t = u := Option.some.inj (ht.symm.trans hj)
      subst hip
      rcases hc.stays hin with hin' | hdead | hidle
      · exact ⟨_, hself, rfl, hin', by rw [← hst] at hg; exact hg⟩
      · rw [hd] at hdead
        cases hdead
      · rw [hidle] at hbusy
        cases hbusy
    · refine ⟨u, ?_, hip, hin, by rw [← hst] at hg; exact hg⟩
      exact List.mem_of_getElem? ((List.getElem?_set_ne (Ne.symm hji)).trans hj)
  by_cases hip : ip = t.ip
  · subst hip
    rcases hc.gives with hdev | ⟨hin, hg⟩ | hidle
    · exact hold (by rw [hdev])
    · exact ⟨_, hself, rfl, hin, hg⟩
    · rw [hidle] at hbusy
      cases hbusy
  · exact hold (hc.getStatus_ne hip)

/-- The other steps give no busy status, and no session returns. -/
theorem Charged.of_main (h : s.Charged) {l : List Thread} (hs : s'.threads = s.threads ++ l)
    (hst : ∀ ip, (s'.devices.getStatus ip).isBusy = true → s'.devices.getStatus ip = s.devices.getStatus ip) :
    s'.Charged := by
  intro ip hbusy
  have heq := hst ip hbusy
  obtain ⟨u, hu, hip, hin, hg⟩ := h ip (by rwa [heq] at hbusy)
  exact ⟨u, by rw [hs]; exact List.mem_append_left _ hu, hip, hin, by rw [heq]; exact hg⟩

theorem inCharge_step {a : Act} (h : s.Charged) (hs : s.step a = some s') (hd : s'.dead = false) : s'.Charged := by
  -- `OFFLINE` and `ONLINE_IDLE` are no busy statuses
  have hset : ∀ {ip ip' : Str} {status : DeviceStatus}, status.isBusy = false →
      ((s.devices.setStatus ip status).getStatus ip').isBusy = true →
      (s.devices.setStatus ip status).getStatus ip' = s.devices.getStatus ip' := by
    intro ip ip' status hfree hbusy
    rw [DeviceMgr.getStatus_setStatus] at hbusy ⊢
    split at hbusy
    · rw [hfree] at hbusy
      cases hbusy
    · rw [if_neg ‹_›]
  cases (step_cases hs).2
  case thread ht hc => exact inCharge_thread h ht hc hd
  case startIdle => exact h.of_main (l := []) (by simp) fun _ => hset rfl
  case restartReply => exact h.of_main (l := []) (by simp) fun _ => hset rfl
  case acceptAgain => exact h.of_main (l := []) (by simp) fun _ => hset rfl
  case disconnect => exact h.of_main (l := []) (by simp) fun _ => hset rfl
  case restart => exact h.of_main rfl fun _ _ => rfl
  case dailyTask => exact h.of_main rfl fun _ _ => rfl
  case voteSpawn => exact h.of_main rfl fun _ _ => rfl
  all_goals exact h.of_main (l := []) (by simp) fun _ _ => rfl

end Step

theorem charged_of_reach {rows : List (Str × AccountPro)} {ips : List Str} {s : Server}
    (hr : Trans.Reach step (fun _ _ => True) (boot rows ips) s) : s.dead = false → s.Charged := by
  refine hr.invariant (I := fun s => s.dead = false → s.Charged) (fun _ ip hbusy => ?_)
    fun s a s' h _ hs hd => inCharge_step (h (step_cases hs).1) hs hd
  rw [getStatus_boot] at hbusy
  cases hbusy

/-- **No device stays busy.** In every run in which no exception has ended the
process, a device whose status is that of a session has such a session, past
`TASK_BEGIN` and not returned; so when all sessions have returned every device
is `ONLINE_IDLE` or `OFFLINE`. -/
theorem busy_in_charge {rows : List (Str × AccountPro)} {ips : List Str} {s : Server}
    (hr : Trans.Reach step (fun _ _ => True) (boot rows ips) s) (hd : s.dead = false) :
    s.Charged ∧ ((∀ t ∈ s.threads, t.pc = .done) → ∀ ip, (s.devices.getStatus ip).isBusy = false) := by
  have hch := charged_of_reach hr hd
  refine ⟨hch, fun hdone ip => ?_⟩
  by_contra hbusy
  obtain ⟨t, ht, -, hin, -⟩ := hch ip (by simpa using hbusy)
  rw [hdone t ht] at hin
  cases hin

/-- A vote for one success, with two accounts and one phone, which does not
answer the connect. -/
def unanswered : Server :=
  (Trans.run step (boot [(Str.of "a", default), (Str.of "b", default)] [])
    (connects [Str.of "p"] ++ [.voteAdmit 1 (Str.of "u"), .voteSpawn] ++ moves 0 [.go, .go, .go, .err])).get
    (by decide +kernel)

theorem unanswered_reached :
    Trans.Reach step (fun _ _ => True) (boot [(Str.of "a", default), (Str.of "b", default)] []) unanswered :=
  Trans.Reach.of_run (Option.some_get _).symm

theorem busy_in_charge_unanswered : unanswered.InCharge (Str.of "p") :=
  (busy_in_charge unanswered_reached (by decide +kernel)).1 _ (by decide +kernel)

/-! ### One thread comes to its end -/

/-- The main thread runs no session's `start`: what the steps of a run are to keep to. -/
def Calm (s : Server) (_ : Act) : Prop := s.main.inSession = false

instance (s : Server) (a : Act) : Decidable (Calm s a) := inferInstanceAs (Decidable (_ = _))

/-- Reached from `s₀` by steps of thread `i`, now `t`, and of the pool. -/
structure At (s₀ : Server) (i : ℕ) (t : Thread) (s : Server) : Prop where
  index : i < s₀.threads.length
  calm : s₀.main.inSession = false
  reach : Trans.Reach step Calm s₀ s
  alive : s.dead = false
  main : s.main = s₀.main
  worker : s.worker = s₀.worker
  threads : s.threads = s₀.threads.set i t

/-- Thread `i` can return, while the others stay where they are. -/
def Ends (s₀ : Server) (i : ℕ) : Prop := ∃ s t, At s₀ i t s ∧ t.pc = .done

namespace At

variable {s₀ s s₁ : Server} {i ses : ℕ} {ip acc : Str} {kind : Kind} {sock b : Bool} {t : Thread} {pc : Pc}

theorem getElem? (h : At s₀ i t s) : s.threads[i]? = some t := by
  rw [h.threads]
  exact List.getElem?_set_self h.index

/-- Thread `i` makes a step. -/
theorem move (h : At s₀ i t s) (inp : Input) (hs : s.sessionStep t t.pc inp = some (pc, b, s₁))
    (hd : s₁.dead = false) :
    ∃ s', At s₀ i { t with pc := pc, sock := b } s' ∧ s'.accounts = s₁.accounts ∧ s'.devices = s₁.devices ∧
      s'.votes = s₁.votes := by
  have hc := sessionStep_cases hs
  refine ⟨{ s₁ with threads := s₁.threads.set i { t with pc := pc, sock := b } },
    ⟨h.index, h.calm, ?_, hd, hc.pool_eq.2.trans h.main, hc.worker_eq.trans h.worker, ?_⟩, rfl, rfl, rfl⟩
  · refine h.reach.tail (a := .thread i inp) ((congrArg MainPc.inSession h.main).trans h.calm) ?_
    unfold step
    rw [if_neg (by simp [h.alive])]
    simp [h.getElem?, hs]
  · show s₁.threads.set i _ = _
    rw [hc.threads_eq, h.threads, List.set_set]

/-- It goes on at `pc'`, and its socket and the tables stay as they are. -/
theorem go (h : At s₀ i ⟨ses, ip, kind, sock, pc⟩ s) (pc' : Pc)
    (hs : s.sessionStep ⟨ses, ip, kind, sock, pc⟩ pc .go = some (pc', sock, s)) :
    ∃ s', At s₀ i ⟨ses, ip, kind, sock, pc'⟩ s' ∧ s'.accounts = s.accounts ∧ s'.devices = s.devices ∧
      s'.votes = s.votes :=
  h.move .go hs h.alive

theorem ends_of_close (h : At s₀ i ⟨ses, ip, kind, sock, .close⟩ s) : Ends s₀ i := by
  obtain ⟨s', h', -⟩ := h.move .go rfl h.alive
  exact ⟨s', _, h', rfl⟩

/-- The phone does not answer, and the restart timer runs out. -/
theorem ends_of_connect (h : At s₀ i ⟨ses, ip, kind, sock, .connect⟩ s) : Ends s₀ i := by
  obtain ⟨s₁, h₁, -⟩ := h.move .err rfl h.alive
  obtain ⟨s₂, h₂, -⟩ := h₁.move .expired rfl h₁.alive
  exact h₂.ends_of_close

theorem ends_of_bind (h : At s₀ i ⟨ses, ip, kind, sock, .bind⟩ s) : Ends s₀ i := by
  obtain ⟨s₁, h₁, -⟩ := h.move .go rfl h.alive
  exact h₁.ends_of_connect

theorem ends_of_begin (h : At s₀ i ⟨ses, ip, kind, sock, .begin⟩ s) : Ends s₀ i := by
  obtain ⟨s₁, h₁, -⟩ := h.move .go rfl h.alive
  exact h₁.ends_of_bind

theorem ends_of_init (h : At s₀ i ⟨ses, ip, kind, sock, .init⟩ s) : Ends s₀ i := by
  obtain ⟨s₁, h₁, -⟩ := h.move .go rfl h.alive
  by_cases hip : ip ∈ s.conns
  · simp only [hip, if_true] at h₁
    exact h₁.ends_of_begin
  · simp only [hip, if_false] at h₁
    exact ⟨s₁, _, h₁, rfl⟩

/-- The write fails, and the session draws again. -/
theorem draws_of_mark (h : At s₀ i ⟨ses, ip, kind, sock, .mark acc⟩ s) :
    ∃ s', At s₀ i ⟨ses, ip, kind, sock, .draw⟩ s' ∧ s'.accounts = s.accounts := by
  obtain ⟨s₁, h₁, hacc₁, -⟩ := h.move .go rfl h.alive
  obtain ⟨s₂, h₂, hacc₂, -⟩ := h₁.move .err rfl h₁.alive
  exact ⟨s₂, h₂, hacc₂.trans hacc₁⟩

/-- The draw: nothing is found, or a node of the list. -/
theorem draw (h : At s₀ i ⟨ses, ip, kind, sock, .draw⟩ s) :
    ∃ s', At s₀ i ⟨ses, ip, kind, sock, (s.accounts.pick kind).1.elim .close .picked⟩ s' ∧
      s'.accounts.idle = s.accounts.idle := by
  obtain ⟨s', h', hacc, -⟩ := h.move .go rfl h.alive
  refine ⟨s', h', ?_⟩
  rw [hacc]
  exact (s.accounts.pick_idle kind).1

/-- Thread `i` can return, or can go on to mark its device for `acc`. -/
def Passes (s₀ : Server) (i ses : ℕ) (ip : Str) (kind : Kind) (acc : Str) (m : AccountMgr) : Prop :=
  Ends s₀ i ∨ ∃ s sock, At s₀ i ⟨ses, ip, kind, sock, .mark acc⟩ s ∧ s.accounts = m

-- from here on the main thread is between its handlers
variable (hm : s₀.main = .idle)

include hm

/-- The phone of a device in `WX_VOTING` connects again: the pool marks the device. -/
theorem reconnect (h : At s₀ i t s) {ip' : Str} (hv : s.devices.getStatus ip' = .wxVoting) :
    ∃ s', At s₀ i t s' ∧ s'.accounts = s.accounts ∧ s'.votes = s.votes ∧
      s'.devices.getStatusCount .wxVoting < s.devices.getStatusCount .wxVoting := by
  by_cases hip : ip' ∈ s.conns
  · refine ⟨{ s with
        devices := (s.devices.setStatus ip' .offline).setStatus ip' .onlineIdle
        conns := ip' :: s.conns.erase ip'
        main := .idle }, ⟨h.index, h.calm, h.reach.trans ?_, h.alive, hm.symm, h.worker, h.threads⟩, rfl, rfl, ?_⟩
    · refine Trans.Reach.of_guarded
        (show Trans.run (Trans.guarded step Calm) s [.accept ip', .main, .main, .main] = some _ from ?_)
      simp [Trans.run, Trans.guarded, Calm, MainPc.inSession, step, h.alive, h.main.trans hm, hip, mainStep, setStatus]
    · calc _ ≤ (s.devices.setStatus ip' .offline).getStatusCount .wxVoting :=
            DeviceMgr.getStatusCount_setStatus_le _ _ (by simp)
        _ < _ := DeviceMgr.getStatusCount_setStatus_lt _ hv (by simp) (by simp)
  · refine ⟨{ s with
        devices := s.devices.setStatus ip' .onlineIdle
        conns := ip' :: s.conns
        main := .idle }, ⟨h.index, h.calm, h.reach.trans ?_, h.alive, hm.symm, h.worker, h.threads⟩, rfl, rfl, ?_⟩
    · refine Trans.Reach.of_guarded
        (show Trans.run (Trans.guarded step Calm) s [.accept ip', .main, .main] = some _ from ?_)
      simp [Trans.run, Trans.guarded, Calm, MainPc.inSession, step, h.alive, h.main.trans hm, hip, mainStep, setStatus]
    · exact DeviceMgr.getStatusCount_setStatus_lt _ hv (by simp) (by simp)

theorem passes_of_waiting {k : ℕ} (hk : kind.task = some k) (h : At s₀ i ⟨ses, ip, kind, sock, .waiting acc⟩ s) :
    Passes s₀ i ses ip kind acc s.accounts := by
  cases hv : (s.vote k).needVote with
  | false =>
    obtain ⟨s₁, h₁, -⟩ := h.go .close (by simp [sessionStep, hk, hv])
    exact Or.inl h₁.ends_of_close
  | true =>
    obtain ⟨s₁, h₁, hacc₁, hdev₁, hvot₁⟩ := h.go (.asleep acc) (by simp [sessionStep, hk, hv])
    have hvote₁ : s₁.vote k = s.vote k := by simp [vote, hvot₁]
    cases hw : (s₁.vote k).needWaitVote s₁.devices with
    | false =>
      obtain ⟨s₂, h₂, hacc₂, -⟩ := h₁.go (.mark acc) (by simp [sessionStep, hk, hw])
      exact Or.inr ⟨s₂, sock, h₂, hacc₂.trans hacc₁⟩
    | true =>
      -- short of the target by the devices in `WX_VOTING`: one of them connects again
      have hsum : (s₁.vote k).successCount + s₁.devices.getStatusCount .wxVoting = (s₁.vote k).targetCount := by
        simpa [WxVote.needWaitVote] using hw
      have hlt : (s₁.vote k).successCount < (s₁.vote k).targetCount := by
        rw [hvote₁]
        simpa [WxVote.needVote] using hv
      obtain ⟨ip', hip'⟩ := DeviceMgr.exists_of_getStatusCount_pos s₁.devices
        (show 0 < s₁.devices.getStatusCount .wxVoting by omega)
      obtain ⟨s₂, h₂, hacc₂, hvot₂, hcount⟩ := h₁.reconnect hm hip'
      have hvote₂ : s₂.vote k = s₁.vote k := by simp [vote, hvot₂]
      have hon : (s₂.vote k).needWaitVote s₂.devices = false := by
        rw [hvote₂, WxVote.needWaitVote, beq_eq_false_iff_ne]
        omega
      obtain ⟨s₃, h₃, hacc₃, -⟩ := h₂.go (.mark acc) (by simp [sessionStep, hk, hon])
      exact Or.inr ⟨s₃, sock, h₃, hacc₃.trans (hacc₂.trans hacc₁)⟩

theorem passes_of_check {k : ℕ} (hk : kind.task = some k) (hpc : pc = .check acc ∨ pc = .asleep acc)
    (h : At s₀ i ⟨ses, ip, kind, sock, pc⟩ s) : Passes s₀ i ses ip kind acc s.accounts := by
  cases hw : (s.vote k).needWaitVote s.devices with
  | false =>
    obtain ⟨s₁, h₁, hacc₁, -⟩ := h.go (.mark acc)
      (by rcases hpc with rfl | rfl <;> simp [sessionStep, hk, hw])
    exact Or.inr ⟨s₁, sock, h₁, hacc₁⟩
  | true =>
    obtain ⟨s₁, h₁, hacc₁, -⟩ := h.go (.waiting acc)
      (by rcases hpc with rfl | rfl <;> simp [sessionStep, hk, hw])
    rw [← hacc₁]
    exact passes_of_waiting hm hk h₁

/-- An account is drawn for nothing: the session erases it and draws again. -/
theorem draws_of_taken {n : Node} (h : At s₀ i ⟨ses, ip, kind, sock, .taken n acc⟩ s) :
    Ends s₀ i ∨ ∃ s' sock', At s₀ i ⟨ses, ip, kind, sock', .draw⟩ s' ∧
      s'.accounts.idle = (s.accounts.eraseIdle n).idle := by
  cases kind with
  | daily =>
    obtain ⟨s₁, h₁, hacc₁, -⟩ := h.move .go rfl h.alive
    obtain ⟨s₂, h₂, hacc₂⟩ := h₁.draws_of_mark
    exact Or.inr ⟨s₂, sock, h₂, by rw [hacc₂, hacc₁]; rfl⟩
  | vote k url =>
    obtain ⟨s₁, h₁, hacc₁, -⟩ := h.move .go rfl h.alive
    rcases passes_of_check hm (k := k) rfl (Or.inl rfl) h₁ with hend | ⟨s₂, sock₂, h₂, hacc₂⟩
    · exact Or.inl hend
    · obtain ⟨s₃, h₃, hacc₃⟩ := h₂.draws_of_mark
      exact Or.inr ⟨s₃, sock₂, h₃, by rw [hacc₃, hacc₂, hacc₁]; rfl⟩

/-- A session at its draw can return: the induction is on the accounts that are left. -/
theorem ends_of_draw {n : ℕ} (hn : s.accounts.idle.length ≤ n) (h : At s₀ i ⟨ses, ip, kind, sock, .draw⟩ s) :
    Ends s₀ i := by
  induction n generalizing s sock with
  | zero =>
    obtain ⟨s₁, h₁, -⟩ := h.draw
    have hnone : (s.accounts.pick kind).1 = none := by
      by_contra hne
      obtain ⟨n, hn⟩ := Option.ne_none_iff_exists'.mp hne
      have hpos := List.length_pos_of_mem (AccountMgr.mem_of_pick hn)
      omega
    rw [hnone] at h₁
    exact h₁.ends_of_close
  | succ m ih =>
    obtain ⟨s₁, h₁, hidle₁⟩ := h.draw
    cases hp : (s.accounts.pick kind).1 with
    | none =>
      rw [hp] at h₁
      exact h₁.ends_of_close
    | some n =>
      rw [hp] at h₁
      obtain ⟨s₂, h₂, hacc₂, -⟩ := h₁.go (.taken n n.acc) rfl
      rcases h₂.draws_of_taken hm with hend | ⟨s₃, sock₃, h₃, hidle₃⟩
      · exact hend
      · refine ih ?_ h₃
        have hlt : (s.accounts.eraseIdle n).idle.length < s.accounts.idle.length :=
          List.length_filter_lt_length_iff_exists.mpr ⟨n, AccountMgr.mem_of_pick hp, by simp⟩
        have heq : s₃.accounts.idle = (s.accounts.eraseIdle n).idle := by
          rw [hidle₃, AccountMgr.eraseIdle, AccountMgr.eraseIdle, hacc₂, hidle₁]
        rw [heq]
        omega

theorem ends_of_taken {n : Node} (h : At s₀ i ⟨ses, ip, kind, sock, .taken n acc⟩ s) : Ends s₀ i := by
  rcases h.draws_of_taken hm with hend | ⟨s₁, sock₁, h₁, -⟩
  · exact hend
  · exact h₁.ends_of_draw hm (le_refl _)

theorem ends_of_mark (h : At s₀ i ⟨ses, ip, kind, sock, .mark acc⟩ s) : Ends s₀ i := by
  obtain ⟨s₁, h₁, -⟩ := h.draws_of_mark
  exact h₁.ends_of_draw hm (le_refl _)

theorem ends_of_passes {m : AccountMgr} (h : Passes s₀ i ses ip kind acc m) : Ends s₀ i := by
  rcases h with hend | ⟨s₁, sock₁, h₁, -⟩
  · exact hend
  · exact h₁.ends_of_mark hm

theorem ends_of_readEnd {timedOut : Bool} (h : At s₀ i ⟨ses, ip, kind, sock, .readEnd timedOut⟩ s) : Ends s₀ i := by
  obtain ⟨s₁, h₁, -⟩ := h.move .go rfl h.alive
  cases timedOut with
  | false => exact h₁.ends_of_draw hm (le_refl _)
  | true =>
    obtain ⟨s₂, h₂, -⟩ := h₁.move .cancelled rfl h₁.alive
    exact h₂.ends_of_draw hm (le_refl _)

theorem ends_of_putBack (h : At s₀ i ⟨ses, ip, kind, sock, .putBack acc⟩ s) : Ends s₀ i := by
  obtain ⟨s₁, h₁, -⟩ := h.move .go rfl h.alive
  exact h₁.ends_of_readEnd hm

theorem ends_of_count {k : ℕ} (hk : kind.task = some k) (h : At s₀ i ⟨ses, ip, kind, sock, .count acc⟩ s) :
    Ends s₀ i := by
  have hs : s.sessionStep ⟨ses, ip, kind, sock, .count acc⟩ (.count acc) .go =
      some (.putBack acc, sock, s.addSucCount k 1) := by simp [sessionStep, hk]
  obtain ⟨s₁, h₁, -⟩ := h.move .go hs h.alive
  exact h₁.ends_of_putBack hm

theorem ends_of_record {v : Verdict} (h : At s₀ i ⟨ses, ip, kind, sock, .record acc v⟩ s) : Ends s₀ i := by
  obtain ⟨s₁, h₁, -⟩ := h.move .go rfl h.alive
  cases v with
  | success =>
    cases kind with
    | vote k url => exact h₁.ends_of_count hm (k := k) rfl
    | daily => exact h₁.ends_of_putBack hm
  | fatal => exact h₁.ends_of_putBack hm
  | other => exact h₁.ends_of_putBack hm

/-- **Wherever a thread is, it can return.** -/
theorem ends (hv : t.kind = .daily → t.pc.forVotes = false) (h : At s₀ i t s) : Ends s₀ i := by
  obtain ⟨ses, ip, kind, sock, pc⟩ := t
  have hk : pc.forVotes = true → ∃ k, kind.task = some k := by
    intro hpc
    cases kind with
    | vote k url => exact ⟨k, rfl⟩
    | daily =>
      rw [hv rfl] at hpc
      cases hpc
  cases pc with
  | init => exact h.ends_of_init
  | begin => exact h.ends_of_begin
  | bind => exact h.ends_of_bind
  | connect => exact h.ends_of_connect
  | restartWait inLoop =>
    obtain ⟨s₁, h₁, -⟩ := h.move .cancelled rfl h.alive
    cases inLoop with
    | false => exact h₁.ends_of_close
    | true => exact h₁.ends_of_draw hm (le_refl _)
  | draw => exact h.ends_of_draw hm (le_refl _)
  | picked n =>
    obtain ⟨s₁, h₁, -⟩ := h.move .go rfl h.alive
    exact h₁.ends_of_taken hm
  | taken n acc => exact h.ends_of_taken hm
  | check acc =>
    obtain ⟨k, hk⟩ := hk rfl
    exact ends_of_passes hm (passes_of_check hm hk (Or.inl rfl) h)
  | waiting acc =>
    obtain ⟨k, hk⟩ := hk rfl
    exact ends_of_passes hm (passes_of_waiting hm hk h)
  | asleep acc =>
    obtain ⟨k, hk⟩ := hk rfl
    exact ends_of_passes hm (passes_of_check hm hk (Or.inr rfl) h)
  | mark acc => exact h.ends_of_mark hm
  | write acc =>
    obtain ⟨s₁, h₁, -⟩ := h.move .err rfl h.alive
    exact h₁.ends_of_draw hm (le_refl _)
  | sent acc =>
    obtain ⟨s₁, h₁, -⟩ := h.move .readError rfl h.alive
    exact h₁.ends_of_readEnd hm
  | record acc v => exact h.ends_of_record hm
  | count acc =>
    obtain ⟨k, hk⟩ := hk rfl
    exact h.ends_of_count hm hk
  | putBack acc => exact h.ends_of_putBack hm
  | readEnd timedOut => exact h.ends_of_readEnd hm
  | close => exact h.ends_of_close
  | done => exact ⟨s, _, h, rfl⟩

end At

/-! ### All of them -/

/-- A daily session is never where only a session of a vote task can be. -/
def Sound (s : Server) : Prop := ∀ t ∈ s.threads, t.kind = .daily → t.pc.forVotes = false

theorem SessionCase.forVotes {s s₁ : Server} {t : Thread} {pc₀ pc : Pc} {inp : Input} {b : Bool}
    (hc : SessionCase s t pc₀ inp pc b s₁) (hk : t.kind = .daily) : pc.forVotes = false := by
  cases hc
  case eraseVote hne => exact absurd hk hne
  case hold hkt _ _ => rw [hk] at hkt; cases hkt
  case sleep hkt _ => rw [hk] at hkt; cases hkt
  case recordVote hne => exact absurd hk hne
  all_goals rfl

theorem Sound.of_main {s s' : Server} (h : s.Sound) {l : List Thread} (hl : ∀ u ∈ l, u.pc = .init)
    (hs : s'.threads = s.threads ++ l) : s'.Sound := by
  intro t ht hk
  rw [hs, List.mem_append] at ht
  rcases ht with ht | ht
  · exact h t ht hk
  · rw [hl t ht]
    rfl

theorem sound_step {s s' : Server} {a : Act} (h : s.Sound) (hs : s.step a = some s') : s'.Sound := by
  cases (step_cases hs).2
  case thread ht hc => exact Counting.forall_mem_set h fun hk => hc.forVotes hk
  case dailyTask => exact h.of_main (fun u hu => init_of_mem_mapIdx hu) rfl
  case voteSpawn => exact h.of_main (fun u hu => init_of_mem_mapIdx hu) rfl
  case restart => exact h.of_main (by simp) rfl
  all_goals exact h.of_main (l := []) (by simp) (by simp)

theorem sound_of_reach {rows : List (Str × AccountPro)} {ips : List Str} {s : Server}
    (hr : Trans.Reach step (fun _ _ => True) (boot rows ips) s) : s.Sound :=
  hr.invariant (I := Sound) (fun _ ht => absurd ht List.not_mem_nil) fun _ _ _ h _ hs => sound_step h hs

/-- Nothing is under way, and every device is `ONLINE_IDLE` or `OFFLINE`. -/
structure AtRest (s : Server) : Prop where
  alive : s.dead = false
  main : s.main = .idle
  worker : s.worker = .idle
  returned : ∀ t ∈ s.threads, t.pc = .done
  free : ∀ ip, (s.devices.getStatus ip).isBusy = false

section Rest

variable {rows : List (Str × AccountPro)} {ips : List Str} {s : Server}

/-- A run that keeps to `Calm` is a run. -/
theorem reach_calm {s₀ s' : Server} (hr : Trans.Reach step (fun _ _ => True) s₀ s) (hs : Trans.Reach step Calm s s') :
    Trans.Reach step (fun _ _ => True) s₀ s' :=
  hr.trans (hs.mono fun _ _ _ => trivial)

/-- The threads return one after the other, in the order of their creation. -/
theorem threads_end (hr : Trans.Reach step (fun _ _ => True) (boot rows ips) s) (hd : s.dead = false)
    (hm : s.main = .idle) {n : ℕ} (hn : n ≤ s.threads.length) :
    ∃ s', Trans.Reach step Calm s s' ∧ s'.dead = false ∧ s'.main = .idle ∧ s'.worker = s.worker ∧
      s'.threads.length = s.threads.length ∧
      ∀ j < n, ∀ t, s'.threads[j]? = some t → t.pc = .done := by
  induction n with
  | zero => exact ⟨s, .refl, hd, hm, rfl, rfl, fun j hj => absurd hj (Nat.not_lt_zero j)⟩
  | succ n ih =>
    obtain ⟨s₁, hr₁, hd₁, hm₁, hw₁, hl₁, hdone⟩ := ih (by omega)
    have hlt : n < s₁.threads.length := by omega
    have hat : At s₁ n s₁.threads[n] s₁ :=
      ⟨hlt, by rw [hm₁]; rfl, .refl, hd₁, rfl, rfl, (List.set_getElem_self hlt).symm⟩
    have hv := sound_of_reach (reach_calm hr hr₁) s₁.threads[n] (List.getElem_mem hlt)
    obtain ⟨s₂, t₂, h₂, hpc⟩ := hat.ends hm₁ hv
    refine ⟨s₂, hr₁.trans h₂.reach, h₂.alive, h₂.main.trans hm₁, h₂.worker.trans hw₁, ?_, fun j hj t ht => ?_⟩
    · rw [h₂.threads, List.length_set, hl₁]
    · rw [h₂.threads] at ht
      rcases Counting.getElem?_set_cases ht with ⟨-, rfl⟩ | ⟨hjn, ht⟩
      · exact hpc
      · exact hdone j (by omega) t ht

theorem all_end (hr : Trans.Reach step (fun _ _ => True) (boot rows ips) s) (hd : s.dead = false)
    (hm : s.main = .idle) :
    ∃ s', Trans.Reach step Calm s s' ∧ s'.dead = false ∧ s'.main = .idle ∧ s'.worker = s.worker ∧
      ∀ t ∈ s'.threads, t.pc = .done := by
  obtain ⟨s', hr', hd', hm', hw', hl', hdone⟩ := threads_end hr hd hm (le_refl _)
  refine ⟨s', hr', hd', hm', hw', fun t ht => ?_⟩
  obtain ⟨j, hj⟩ := List.mem_iff_getElem?.mp ht
  exact hdone j (by rw [← hl']; exact (List.getElem?_eq_some_iff.mp hj).1) t hj

/-- A handler of the pool, or the reset, makes its next step. -/
theorem main_moves (hd : s.dead = false) (hleft : 0 < s.main.left) :
    ∃ s', s.step .main = some s' ∧ s'.dead = false ∧ s'.main.inSession = false ∧ s'.main.left < s.main.left ∧
      (s'.main.left = 0 → s'.main = .idle) := by
  unfold step
  rw [if_neg (by simp [hd])]
  cases hmain : s.main with
  | idle | restart _ | running _ => simp [hmain, MainPc.left] at hleft
  | startInsert ip => exact ⟨_, rfl, hd, rfl, by simp [MainPc.left], fun _ => rfl⟩
  | startIdle ip => exact ⟨_, rfl, hd, rfl, by simp [MainPc.left], by simp [MainPc.left]⟩
  | stopErase ip again =>
    refine ⟨_, rfl, hd, ?_, ?_, ?_⟩ <;> cases again <;> simp [MainPc.left, MainPc.inSession]
  | resetting todo =>
    cases todo with
    | nil => exact ⟨_, rfl, hd, rfl, by simp [MainPc.left], fun _ => rfl⟩
    | cons acc todo => exact ⟨_, rfl, hd, rfl, by simp [MainPc.left], by simp [MainPc.left]⟩

/-- The main thread comes back from its handler, unless it is inside a session's. -/
theorem main_ends (hd : s.dead = false) (hm : s.main.inSession = false) :
    ∃ s', Trans.Reach step Calm s s' ∧ s'.dead = false ∧ s'.main = .idle := by
  -- the pool's handlers and the reset have only so many steps left
  refine Trans.Reach.eventually (fun s => s.main.left) (F := fun s : Server => s.dead = false ∧ s.main = .idle)
    (I := fun s : Server => s.dead = false ∧ s.main.inSession = false ∧ (s.main.left = 0 → s.main = .idle))
    (fun s hs => ?_) ⟨hd, hm, fun hleft => ?_⟩
  · by_cases hleft : s.main.left = 0
    · exact Or.inl ⟨hs.1, hs.2.2 hleft⟩
    · obtain ⟨s', hstep, hd', hm', hlt, h0'⟩ := main_moves hs.1 (Nat.pos_of_ne_zero hleft)
      exact Or.inr ⟨.main, s', hs.2.1, hstep, ⟨hd', hm', h0'⟩, hlt⟩
  · cases hmain : s.main with
    | idle => rfl
    | restart _ | running _ => simp [hmain, MainPc.inSession] at hm
    | startIdle _ | startInsert _ | resetting _ => simp [hmain, MainPc.left] at hleft
    | stopErase _ again => cases again <;> simp [hmain, MainPc.left] at hleft

theorem joined_of_done {k : ℕ} (h : ∀ t ∈ s.threads, t.pc = .done) : s.joined k = true := by
  unfold joined
  refine List.all_eq_true.mpr fun p hp => ?_
  rw [h p.1 (List.fst_mem_of_mem_zipIdx hp)]
  simp

/-- When the sessions have returned the worker has its task joined. -/
theorem worker_ends (hr : Trans.Reach step (fun _ _ => True) (boot rows ips) s) (hd : s.dead = false)
    (hm : s.main = .idle) :
    ∃ s', Trans.Reach step Calm s s' ∧ s'.dead = false ∧ s'.main = .idle ∧ s'.worker = .idle ∧
      ∀ t ∈ s'.threads, t.pc = .done := by
  -- once no task is admitted, the sessions return and the worker joins
  have hjoins : ∀ s : Server, Trans.Reach step (fun _ _ => True) (boot rows ips) s → s.dead = false →
      s.main = .idle → (∀ target url, s.worker ≠ .admitted target url) →
      ∃ s', Trans.Reach step Calm s s' ∧ s'.dead = false ∧ s'.main = .idle ∧ s'.worker = .idle ∧
        ∀ t ∈ s'.threads, t.pc = .done := by
    intro s hr hd hm hw
    obtain ⟨s₁, hr₁, hd₁, hm₁, hw₁, hdone⟩ := all_end hr hd hm
    cases hwork : s.worker with
    | idle => exact ⟨s₁, hr₁, hd₁, hm₁, hw₁.trans hwork, hdone⟩
    | admitted target url => exact absurd hwork (hw target url)
    | joining k =>
      rw [hwork] at hw₁
      refine ⟨{ s₁ with votes := s₁.votes.set k { s₁.vote k with successCount := 0 }, worker := .idle },
        hr₁.tail (a := .voteJoin) (by rw [Calm, hm₁]; rfl) ?_, hd₁, hm₁, rfl, hdone⟩
      simp [step, hd₁, hw₁, joined_of_done hdone]
  cases hwork : s.worker with
  | idle => exact hjoins s hr hd hm (by simp [hwork])
  | joining k => exact hjoins s hr hd hm (by simp [hwork])
  | admitted target url =>
    obtain ⟨s₁, hs₁, hd₁, hm₁, hw₁⟩ : ∃ s₁, s.step .voteSpawn = some s₁ ∧ s₁.dead = false ∧ s₁.main = .idle ∧
        s₁.worker = .joining s.votes.length := by
      refine ⟨{ s.spawn (.vote s.votes.length url) s.devices.idleIps with
        votes := s.votes ++ [⟨0, target⟩], worker := .joining s.votes.length }, ?_, hd, hm, rfl⟩
      simp [step, hd, hwork]
    obtain ⟨s₂, hr₂, h₂⟩ := hjoins s₁ (hr.tail trivial hs₁) hd₁ hm₁ (by simp [hw₁])
    have hcalm : Calm s .voteSpawn := by rw [Calm, hm]; rfl
    exact ⟨s₂, (Trans.Reach.single hcalm hs₁).trans hr₂, h₂⟩

/-- From every state that the server can reach, if the main thread is not inside
`on_restart_lua_end`, it can go on until all sessions have returned, the worker
waits for a task and every device is `ONLINE_IDLE` or `OFFLINE`. -/
theorem can_rest (hr : Trans.Reach step (fun _ _ => True) (boot rows ips) s) (hd : s.dead = false)
    (hm : s.main.inSession = false) : ∃ s', Trans.Reach step Calm s s' ∧ s'.AtRest := by
  obtain ⟨s₁, hr₁, hd₁, hm₁⟩ := main_ends hd hm
  obtain ⟨s₂, hr₂, hd₂, hm₂, hw₂, hdone⟩ := worker_ends (reach_calm hr hr₁) hd₁ hm₁
  have hreach := hr₁.trans hr₂
  exact ⟨s₂, hreach, hd₂, hm₂, hw₂, hdone, (busy_in_charge (reach_calm hr hreach) hd₂).2 hdone⟩

end Rest

end Server
end ScheduleCenter
