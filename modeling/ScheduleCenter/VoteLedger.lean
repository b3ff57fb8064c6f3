/-
# Every vote is counted once

A vote is noted three times: in the account's `voted_url`, in the `success_count` of its
task, and in the result the scheduler gets, and each is a step of its own among those of
any other sessions and tasks. Over a run they add up (`votes_accounted`): the votes in
the table are those that were loaded, those that have been reported, those in
the counters and those of sessions that are about to count, less the votes that were
recorded where the url was already. In no task is a vote lost or counted twice,
whatever fails and whenever sessions are started again; where no draw takes a node that
another one has chosen and the accounts have different names, none is recorded
where the url was already. A counter of a finished task is not read any more:
what stands there is the votes of sessions that were started again after the result.
In the code these sessions and their task are destroyed by then, and such a
session counts in memory that is no longer the counter's.

Key definitions: `AccountMgr.votedCount`, `Server.repeats`, `Server.reports`, `Server.counted`,
`Server.toCount`, `Server.uncredited`.
Key theorems: `SessionCase.uncredited`, `Server.uncredited_step`, `Server.votes_accounted`.
-/
import ScheduleCenter.Reported
import ScheduleCenter.SessionLookups

namespace ScheduleCenter

/-! ### The votes in the table -/

namespace AccountMgr

/-- The pairs of an account and a url it has voted for. -/
def votedCount (m : AccountMgr) : ℕ := (m.accountsPro.entries.map fun e => e.2.votedUrl.card).sum

variable {m : AccountMgr} {acc : Str}

@[simp]
theorem votedCount_setIdleAccount (m : AccountMgr) (acc : Str) : (m.setIdleAccount acc).votedCount = m.votedCount := rfl

@[simp]
theorem votedCount_eraseIdle (m : AccountMgr) (n : Node) : (m.eraseIdle n).votedCount = m.votedCount := rfl

theorem votedCount_update {p : AccountPro} (hp : m.accountsPro.lookup acc = some p) (f : AccountPro → AccountPro) :
    (m.update acc f).votedCount + p.votedUrl.card = m.votedCount + (f p).votedUrl.card := by
  unfold update
  rw [hp]
  exact Counting.sum_entries_insert_add (fun e : Sigma fun _ : Str => AccountPro => e.2.votedUrl.card) hp (f p)

/-- A setter that leaves `voted_url` alone. -/
theorem votedCount_update_same {f : AccountPro → AccountPro} (hf : ∀ p, (f p).votedUrl = p.votedUrl) :
    (m.update acc f).votedCount = m.votedCount := by
  rcases hlookup : m.accountsPro.lookup acc with _ | p
  · unfold update
    rw [hlookup]
  · have hsum := votedCount_update hlookup f
    rw [hf p] at hsum
    omega

/-- A vote adds a pair where the account does not have the url. -/
theorem votedCount_setVoteStatus (m : AccountMgr) (acc url : Str) :
    (m.setVoteStatus acc url).votedCount =
      m.votedCount + if (m.accountsPro.lookup acc).any fun p => url ∉ p.votedUrl then 1 else 0 := by
  unfold setVoteStatus
  rcases hlookup : m.accountsPro.lookup acc with _ | p
  · unfold update
    rw [hlookup]
    rfl
  · have hsum := votedCount_update hlookup fun p => { p with votedUrl := insert url p.votedUrl }
    by_cases hurl : url ∈ p.votedUrl
    · have hcard : (insert url p.votedUrl).card = p.votedUrl.card := by rw [Finset.insert_eq_of_mem hurl]
      simp [hurl] at hsum ⊢
      omega
    · have hcard : (insert url p.votedUrl).card = p.votedUrl.card + 1 := Finset.card_insert_of_notMem hurl
      simp [hurl] at hsum ⊢
      omega

end AccountMgr

/-- The account and the url of the vote that the thread is about to record. -/
def Thread.recording (t : Thread) : Option (Str × Str) :=
  match t.pc with
  | .record acc .success =>
    match t.kind with
    | .vote _ url => some (acc, url)
    | .daily => none
  | _ => none

namespace Server

/-- The step records a vote where the url is already. -/
def repeats (s : Server) : Act → ℤ
  | .thread i _ => if ((s.threads[i]?).bind Thread.recording).any fun v => !s.isNew v then 1 else 0
  | _ => 0

/-- The success count of the result that the step forms. -/
def reports (s : Server) : Act → ℤ
  | .voteJoin =>
    match s.worker with
    | .joining k => (s.vote k).successCount
    | _ => 0
  | _ => 0

/-- What stands in the counters of the tasks. -/
def counted (s : Server) : ℤ := (s.votes.map (·.successCount)).sum

/-- The sessions that have recorded a vote and not counted it. -/
def toCount (s : Server) : ℕ := s.threads.countP (·.pc.isCount)

/-- The votes in the table that are in no counter and about to be in none. -/
def uncredited (s : Server) : ℤ := s.accounts.votedCount - s.counted - s.toCount

section Step

variable {s s' s₁ : Server} {t : Thread} {pc : Pc} {inp : Input} {b : Bool} {a : Act} {names : List Str}

theorem recording_eq_some {v : Str × Str} :
    t.recording = some v ↔ t.pc = .record v.1 .success ∧ ∃ k, t.kind = .vote k v.2 := by
  unfold Thread.recording
  constructor
  · intro h
    split at h
    · rename_i acc hpc
      split at h
      · rename_i k url hkind
        obtain rfl := Option.some.inj h
        exact ⟨hpc, k, hkind⟩
      · cases h
    · cases h
  · rintro ⟨hpc, k, hkind⟩
    simp [hpc, hkind]

theorem recording_of_pc (h : ∀ acc, t.pc ≠ .record acc .success) : t.recording = none := by
  unfold Thread.recording
  split
  · exact absurd ‹_› (h _)
  · rfl

/-- A counter that is set. -/
theorem sum_successCount_set {votes : List WxVote} {k : ℕ} {v : WxVote} (hk : k < votes.length) :
    ((votes.set k v).map (·.successCount)).sum + (votes.getD k default).successCount =
      (votes.map (·.successCount)).sum + v.successCount := by
  have hget : votes[k]? = some (votes.getD k default) := by simp [hk]
  exact Counting.sum_map_set_add (·.successCount) v hget

/-- The counter of a task whose result is formed. -/
theorem sum_successCount_join (s : Server) (k : ℕ) :
    ((s.votes.set k { s.vote k with successCount := 0 }).map (·.successCount)).sum + (s.vote k).successCount =
      s.counted := by
  by_cases hk : k < s.votes.length
  · exact (sum_successCount_set hk).trans (add_zero _)
  · have hle : s.votes.length ≤ k := Nat.le_of_not_lt hk
    have hdefault : s.vote k = default := by simp [vote, hle]
    rw [List.set_eq_of_length_le hle, hdefault]
    exact add_zero _

/-- **One step of a session**: what it records it is about to count, and counts. -/
theorem SessionCase.uncredited (hc : SessionCase s t t.pc inp pc b s₁)
    (hk : ∀ k, inTask k t → k < s.votes.length) (hm : AccountMgr.Within names s.accounts) :
    (s₁.accounts.votedCount : ℤ) - s₁.counted - (pc.isCount.toNat : ℤ) +
        (if t.recording.any fun v => !s.isNew v then 1 else 0) =
      s.accounts.votedCount - s.counted - (t.pc.isCount.toNat : ℤ) := by
  generalize hpc : t.pc = pc₀ at hc
  have hnone : (∀ acc, pc₀ ≠ .record acc .success) → t.recording = none := fun h =>
    recording_of_pc (by rw [hpc]; exact h)
  cases hc
  case recordVote acc hd =>
    rcases hkind : t.kind with ⟨k, url⟩ | _
    · have hrec : t.recording = some (acc, url) := by simp [Thread.recording, hpc, hkind]
      have hsum := s.accounts.votedCount_setVoteStatus acc url
      have hnew : s.isNew (acc, url) = (s.accounts.accountsPro.lookup acc).any fun p => url ∉ p.votedUrl := rfl
      rw [← hnew] at hsum
      rw [hrec]
      show ((s.accounts.setVoteStatus acc url).votedCount : ℤ) - s.counted - 1 + _ = _
      rw [hsum]
      rcases hbool : s.isNew (acc, url)
      · simp [hbool, Pc.isCount]
      · simp [hbool, Pc.isCount]
        omega
    · exact absurd hkind hd
  case record acc v hv =>
    have hrec : t.recording = none := by
      unfold Thread.recording
      rw [hpc]
      rcases v with _ | _ | _
      · simp [hv rfl]
      · rfl
      · rfl
    have hsame : (s.accounts.recordReply t.kind acc v).votedCount = s.accounts.votedCount := by
      rcases v with _ | _ | _
      · rw [hv rfl]
        exact AccountMgr.votedCount_update_same fun p => rfl
      · exact AccountMgr.votedCount_update_same fun p => rfl
      · rfl
    rw [hrec, withAccounts_accounts, hsame]
    simp [Pc.isCount, counted]
  case count acc k hkind =>
    rw [hnone (by simp)]
    have hsum := sum_successCount_set (v := (s.vote k).addSucCount 1) (hk k (by simp [inTask, hkind]))
    have hone : ((s.vote k).addSucCount 1).successCount = (s.votes.getD k default).successCount + 1 := rfl
    rw [hone] at hsum
    have hcounted : (s.addSucCount k 1).counted = s.counted + 1 := by
      unfold counted
      rw [addSucCount_votes]
      omega
    rw [hcounted]
    simp [Pc.isCount]
    omega
  case empty hn =>
    rw [hnone (by simp), withAccounts_accounts, hm.pick_snd]
    simp [Pc.isCount, counted]
  case pick n hn =>
    rw [hnone (by simp), withAccounts_accounts, hm.pick_snd]
    simp [Pc.isCount, counted]
  case letOn hpcs | hold hpcs =>
    rw [hnone (by rcases hpcs with rfl | rfl <;> simp)]
    rcases hpcs with rfl | rfl <;> simp [Pc.isCount]
  all_goals
    rw [hnone (by simp)]
    simp [Pc.isCount, counted]

/-- Threads that have not taken a step count nothing. -/
theorem uncredited_append {l : List Thread} (hl : ∀ u ∈ l, u.pc = .init) (hthreads : s'.threads = s.threads ++ l)
    (haccounts : s'.accounts = s.accounts) (hcounted : s'.counted = s.counted) : s'.uncredited = s.uncredited := by
  have hnone : l.countP (·.pc.isCount) = 0 := List.countP_eq_zero.mpr fun u hu => by simp [hl u hu, Pc.isCount]
  unfold uncredited toCount
  rw [hthreads, List.countP_append, hnone, haccounts, hcounted]
  rfl

/-- **One step** credits what it records, and puts into no counter what it does not record. -/
theorem uncredited_step (hknown : TasksKnown s) (hd : Drawn names s) (hs : s.step a = some s') :
    s'.uncredited + s.repeats a = s.uncredited + s.reports a := by
  cases (step_cases hs).2
  case thread i inp t pc b s₁ ht hc =>
    have hstep := hc.uncredited (fun k hk => hknown t (List.mem_of_getElem? ht) k hk) hd.accounts
    have hcount : (s.threads.set i { t with pc := pc, sock := b }).countP (·.pc.isCount) + t.pc.isCount.toNat =
        s.threads.countP (·.pc.isCount) + pc.isCount.toNat := Counting.countP_set_add ht fun _ _ _ _ => rfl
    have hrepeats : s.repeats (.thread i inp) = if t.recording.any fun v => !s.isNew v then 1 else 0 := by
      simp [repeats, ht]
    have hreports : s.reports (.thread i inp) = 0 := rfl
    rw [hrepeats, hreports]
    show (s₁.accounts.votedCount : ℤ) - s₁.counted -
      ((s.threads.set i { t with pc := pc, sock := b }).countP (·.pc.isCount) : ℕ) + _ = _
    unfold uncredited toCount
    omega
  case restart ses t hm ht =>
    have hinit : ∀ u ∈ [{ t with sock := false, pc := .init }], u.pc = .init := by simp
    exact congrArg (· + (0 : ℤ)) (uncredited_append hinit rfl rfl rfl)
  case dailyTask =>
    exact congrArg (· + (0 : ℤ)) (uncredited_append (fun u hu => init_of_mem_mapIdx hu) rfl rfl rfl)
  case voteSpawn target url hw =>
    have hzero : ((s.votes ++ [(⟨0, target⟩ : WxVote)]).map (·.successCount)).sum = s.counted := by simp [counted]
    exact congrArg (· + (0 : ℤ)) (uncredited_append (fun u hu => init_of_mem_mapIdx hu) rfl rfl hzero)
  case voteJoin k hw _ =>
    have hreports : s.reports .voteJoin = (s.vote k).successCount := by simp [reports, hw]
    have hset := sum_successCount_join s k
    rw [hreports]
    show (s.accounts.votedCount : ℤ) - ((s.votes.set k _).map (·.successCount)).sum - (s.toCount : ℤ) + 0 = _
    unfold uncredited
    omega
  case reset acc todo hm =>
    have hsame : (s.accounts.setEverydayTask acc dailytaskNotFinished).votedCount = s.accounts.votedCount :=
      AccountMgr.votedCount_update_same fun p => rfl
    show ((s.accounts.setEverydayTask acc dailytaskNotFinished).votedCount : ℤ) - s.counted - s.toCount + 0 = _
    rw [hsame]
    rfl
  all_goals rfl

/-- A session that may work on its account records nothing twice. -/
theorem repeats_eq_zero (h : ∀ t ∈ s.threads, s.Ready t) (a : Act) : s.repeats a = 0 := by
  unfold repeats
  split
  · rename_i i inp
    rw [if_neg]
    intro hany
    obtain ⟨v, hv, hnot⟩ := (Option.any_eq_true _ _).mp hany
    obtain ⟨t, ht, hrec⟩ := Option.bind_eq_some_iff.mp hv
    obtain ⟨hpc, k, hkind⟩ := recording_eq_some.mp hrec
    obtain ⟨p, hp, hwork⟩ := h t (List.mem_of_getElem? ht) v.1 (by rw [hpc]; rfl)
    rw [hkind] at hwork
    rw [isNew_iff.mpr ⟨p, hp, hwork.1⟩] at hnot
    cases hnot
  · rfl

end Step

/-! ### Every run -/

variable {rows : List (Str × AccountPro)} {ips : List Str} {as : List Act} {s : Server}

/-- **Every vote is accounted for.** In every run of the server, with any sessions, tasks
and failures: the votes in the table, and those recorded where the url was already, are
the votes that were loaded, those reported in results, those in the counters (also of
tasks that are over, whose counters are destroyed) and those of sessions that are about
to count. If the accounts have different names and no
draw chooses a node that another one has chosen and not yet erased, none is recorded
where the url was already. -/
theorem votes_accounted (hr : Trans.run step (boot rows ips) as = some s) :
    (s.accounts.votedCount : ℤ) + Trans.total step repeats (boot rows ips) as =
        (AccountMgr.loadData rows).votedCount + Trans.total step reports (boot rows ips) as + s.counted + s.toCount ∧
      ((rows.map (·.1)).Nodup → Trans.Along step (fun s a => s.drawsApart a = true) (boot rows ips) as →
        Trans.total step repeats (boot rows ips) as = 0) := by
  refine ⟨?_, fun hrows hdraws => ?_⟩
  · have hboot : (boot rows ips).uncredited = (AccountMgr.loadData rows).votedCount := by
      simp [uncredited, boot, counted, toCount]
    have hkeep : ∀ (s : Server) a s', TasksKnown s ∧ Drawn (rows.map (·.1)) s → step s a = some s' →
        TasksKnown s' ∧ Drawn (rows.map (·.1)) s' :=
      fun s a s' h hs => ⟨tasksKnown_step (step_cases hs).2 h.1, drawn_step h.2 hs⟩
    have hcredit : ∀ (s : Server) a s', TasksKnown s ∧ Drawn (rows.map (·.1)) s → step s a = some s' →
        s'.uncredited + s.repeats a = s.uncredited + s.reports a :=
      fun s a s' h hs => uncredited_step h.1 h.2 hs
    have hstart : TasksKnown (boot rows ips) ∧ Drawn (rows.map (·.1)) (boot rows ips) :=
      ⟨fun t ht => absurd ht List.not_mem_nil, drawn_of_reach .refl⟩
    have hbalance := Trans.run_balance uncredited reports repeats hkeep hcredit hstart hr
    rw [hboot] at hbalance
    unfold uncredited at hbalance
    omega
  · exact Trans.total_eq_zero_of_along
      (I := Trans.Reach step (fun s a => s.drawsApart a = true) (boot rows ips))
      (fun s a s' h ha hs => ⟨h.tail ha hs, repeats_eq_zero (ready_of_reach hrows h) a⟩) .refl hdraws hr

/-- The session votes, and its result is formed. -/
def reportedRun : List Act := votedRun ++ [.voteJoin]

def votedReported : Server := (Trans.run step (boot oneRow []) reportedRun).get (by decide)

theorem votes_accounted_one : Trans.total step reports (boot oneRow []) reportedRun = 1 := by
  have hrun : Trans.run step (boot oneRow []) reportedRun = some votedReported := (Option.some_get _).symm
  obtain ⟨hbalance, hrepeats⟩ := votes_accounted hrun
  have hvoted : votedReported.accounts.votedCount = 1 := by decide
  have hloaded : (AccountMgr.loadData oneRow).votedCount = 0 := by decide
  have hcounted : votedReported.counted = 0 := by decide
  have hcount : votedReported.toCount = 0 := by decide
  rw [hrepeats (by decide) (by decide), hvoted, hloaded, hcounted, hcount] at hbalance
  omega

end Server
end ScheduleCenter
