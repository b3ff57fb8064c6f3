/-
# The vote target

`need_wait_vote` lets a session go on if `success_count` and the number of
devices in `WX_VOTING` do not add up to the target. The check, the status the
session then sets, and the count of its success are three sections under two
locks, so the sum a session reads is not the number of votes given or under
way: a session let on but not yet in `WX_VOTING` is missing from it (`letOn`),
one whose vote is already settled but whose device is still in `WX_VOTING`
is counted too often (`settled`), and so is a device in `WX_VOTING` for somebody
else (`foreignVoting`). The comparison is `==`, so a sum that is off by one in
either direction lets one session too many go on (`target_exceeded`).

Where a session passes the check, and nobody is in between in this way, the sum
is the number of votes given or under way. As long as that is within the target,
a sum that is not equal to it is below it, and there is room for one more vote.
So in every run in which the sessions pass the check one at a time, success
count and outstanding votes stay within the target (`target_kept`).

Key definitions: `Server.outstanding`, `Server.undisturbed`, `Server.passesAlone`.
Key theorems: `Server.committed_add_settled`, `Server.committed_eq`, `Server.targetInv_step`,
`Server.target_kept`, `Server.target_exceeded`.
-/
import ScheduleCenter.VoteTask

namespace ScheduleCenter

namespace Pc

/-- Next `need_wait_vote()`. -/
def isCheck : Pc → Bool
  | .check _ | .asleep _ => true
  | _ => false

def isMark : Pc → Bool
  | .mark _ => true
  | _ => false

def isWrite : Pc → Bool
  | .write _ => true
  | _ => false

def isSent : Pc → Bool
  | .sent _ => true
  | _ => false

/-- The vote is counted or has failed. -/
def isSettled : Pc → Bool
  | .record _ v => v ≠ .success
  | .putBack _ | .readEnd _ => true
  | _ => false

/-- Between `set_status(WX_VOTING)` and `set_status(WX_VOTE_END)`, if no write fails. -/
def isMarked : Pc → Bool
  | .write _ | .sent _ | .record _ _ | .count _ | .putBack _ | .readEnd _ => true
  | _ => false

theorem isSettled_of_isMark {pc : Pc} (h : pc.isMark = true) : pc.isSettled = false := by
  cases pc <;> simp [isMark, isSettled] at h ⊢

end Pc

namespace Server

/-- The votes sent by sessions of the task and not yet answered. -/
def outstanding (k : ℕ) (s : Server) : ℕ := s.threads.countP fun t => inTask k t && t.pc.isSent

/-- The sessions let on that have not set `WX_VOTING` yet. -/
def letOn (k : ℕ) (s : Server) : ℕ :=
  s.threads.countP fun t => inTask k t && t.pc.isMark && !s.voting t

/-- The sessions whose vote is settled and whose device is still in `WX_VOTING`. -/
def settled (k : ℕ) (s : Server) : ℕ :=
  s.threads.countP fun t => inTask k t && t.pc.isSettled && s.voting t

/-- A device in `WX_VOTING` that no session of the task runs on. -/
def foreignVoting (k : ℕ) (s : Server) : Bool :=
  s.devices.entries.any fun e => e.2 = .wxVoting && s.threads.all fun t => !(inTask k t && t.ip = e.1)

/-- Nobody is between the check and `WX_VOTING`, or between a settled vote and
`WX_VOTE_END`; nobody else votes; and the target is not negative. -/
def undisturbed (k : ℕ) (s : Server) : Bool :=
  s.letOn k = 0 && s.settled k = 0 && !s.foreignVoting k && 0 ≤ (s.vote k).targetCount

/-- If the step lets a session go on, it does so undisturbed. -/
def passesAlone (k : ℕ) (s : Server) : Act → Bool
  | .thread i _ => (s.threads[i]?).all fun t =>
      !t.pc.isCheck || (s.vote k).needWaitVote s.devices || s.undisturbed k
  | _ => true

/-- The step sends a vote command. -/
def sendsVote (k : ℕ) (s : Server) : Act → Bool
  | .thread i .ok => (s.threads[i]?).any fun t => inTask k t && t.pc.isWrite
  | _ => false

/-! ### The invariant -/

/-- The thread is let on, or its device is in `WX_VOTING` for a vote that is
not settled. -/
def isCommitted (k : ℕ) (s : Server) (t : Thread) : Bool :=
  inTask k t && (t.pc.isMark || s.voting t && !t.pc.isSettled)

def committed (k : ℕ) (s : Server) : ℕ := s.threads.countP (s.isCommitted k)

structure TargetInv (k : ℕ) (target : Int) (s : Server) : Prop where
  ips : DistinctIps k s.threads
  vote : ∃ c, s.votes[k]? = some ⟨c, target⟩ ∧ 0 ≤ c ∧ c + s.committed k ≤ max 0 target
  marked : ∀ t ∈ s.threads, inTask k t → t.pc.isMarked → s.voting t

theorem Started.targetInv {k : ℕ} {target : Int} {s : Server} (h : Started k target s) :
    TargetInv k target s := by
  have h0 : s.committed k = 0 := by
    refine List.countP_eq_zero.mpr fun t ht => ?_
    by_cases hin : inTask k t = true
    · simp [isCommitted, voting, h.idle t ht hin, h.init t ht hin, Pc.isMark]
    · simp [isCommitted, hin]
  exact ⟨h.ips, ⟨0, h.vote, le_rfl, by simp [h0]⟩, fun t ht hin hm => by simp [h.init t ht hin, Pc.isMarked] at hm⟩

theorem vote_eq {k : ℕ} {s : Server} {v : WxVote} (h : s.votes[k]? = some v) : s.vote k = v := by
  simp [vote, h]

/-- Committed sessions are those let on and those in `WX_VOTING`, less the settled ones. -/
theorem committed_add_settled (k : ℕ) (s : Server) :
    s.committed k + s.settled k = s.letOn k + s.threads.countP fun t => inTask k t && s.voting t := by
  refine Counting.countP_add_congr fun t _ => ?_
  have hms := t.pc.isSettled_of_isMark
  unfold isCommitted
  revert hms
  cases inTask k t <;> cases t.pc.isMark <;> cases t.pc.isSettled <;> cases s.voting t <;> simp

/-- Devices in `WX_VOTING` are those of sessions of the task, if nobody else votes. -/
theorem getStatusCount_le {k : ℕ} {s : Server} (h : s.foreignVoting k = false) :
    s.devices.getStatusCount .wxVoting ≤ s.threads.countP fun t => inTask k t && s.voting t := by
  have hsub : ((s.devices.entries.filter fun e => e.2 = DeviceStatus.wxVoting).map fun e => e.1) ⊆
      (s.threads.filter fun t => inTask k t && s.voting t).map (·.ip) := by
    intro ip hip
    obtain ⟨⟨ip', status⟩, he, rfl⟩ := List.mem_map.mp hip
    obtain ⟨he, hstatus⟩ := List.mem_filter.mp he
    obtain rfl : status = .wxVoting := by simpa using hstatus
    have hlookup : s.devices.lookup ip' = some .wxVoting := AList.mem_lookup_iff.mpr he
    simp only [foreignVoting, List.any_eq_false] at h
    have hown := h _ he
    simp only [decide_true, Bool.true_and, List.all_eq_true, not_forall, Bool.not_eq_true, Bool.not_eq_false',
      Bool.and_eq_true, decide_eq_true_eq] at hown
    obtain ⟨t, ht, hin, rfl⟩ := hown
    exact List.mem_map.mpr ⟨t, List.mem_filter.mpr ⟨ht, by simp [hin, voting, DeviceMgr.getStatus, hlookup]⟩, rfl⟩
  have hnodup : ((s.devices.entries.filter fun e => e.2 = DeviceStatus.wxVoting).map fun e => e.1).Nodup :=
    List.Nodup.sublist (List.filter_sublist.map _) s.devices.keys_nodup
  have hle := (hnodup.subperm hsub).length_le
  rwa [List.length_map, List.length_map, ← List.countP_eq_length_filter, ← List.countP_eq_length_filter] at hle

theorem le_getStatusCount {k : ℕ} {s : Server} (h : DistinctIps k s.threads) :
    (s.threads.countP fun t => inTask k t && s.voting t) ≤ s.devices.getStatusCount .wxVoting := by
  rw [List.countP_eq_length_filter, ← List.length_map (f := fun t : Thread => t.ip)]
  refine DeviceMgr.length_le_getStatusCount _ (by decide) (h.nodup _ fun t ht => by simp_all) fun ip hip => ?_
  obtain ⟨t, ht, rfl⟩ := List.mem_map.mp hip
  have := (List.mem_filter.mp ht).2
  simp_all [voting]

/-- Undisturbed, `need_wait_vote` counts the committed sessions. -/
theorem committed_eq {k : ℕ} {s : Server} (h : DistinctIps k s.threads) (hu : s.undisturbed k = true) :
    s.committed k = s.devices.getStatusCount .wxVoting := by
  simp only [undisturbed, Bool.and_eq_true, decide_eq_true_eq, Bool.not_eq_true'] at hu
  obtain ⟨⟨⟨hletOn, hsettled⟩, hforeign⟩, -⟩ := hu
  have hsum := committed_add_settled k s
  have hge := le_getStatusCount h
  have hle := getStatusCount_le hforeign
  omega

section Step

variable {k : ℕ} {target c : Int} {s s' s₁ : Server} {i : ℕ} {inp : Input} {t : Thread} {pc : Pc} {b : Bool}

theorem busy_of_inTask (ht : inTask k t) : t.kind.busy = .wxVoting ∧ t.kind.busyEnd = .wxVoteEnd := by
  cases hk : t.kind <;> simp [inTask, hk, Kind.task, Kind.busy, Kind.busyEnd] at ht ⊢

theorem task_eq_of_inTask {k' : ℕ} (ht : inTask k t) (hk : t.kind.task = some k') : k' = k := by
  simpa [inTask, hk] using ht

/-- The moving thread: past `set_status(WX_VOTING)` its device has the status. -/
theorem isMarked_step (ht : inTask k t) (hc : SessionCase s t t.pc inp pc b s₁)
    (hm : t.pc.isMarked → s.voting t) : pc.isMarked → s₁.voting t := by
  generalize hpc : t.pc = pc₀ at hc hm
  cases hc <;> simp_all [Pc.isMarked, voting, busy_of_inTask ht]

/-- The moving thread: what a step adds to the successes it takes from the
committed sessions, unless it lets the session on. -/
theorem isCommitted_step (ht : inTask k t) (hc : SessionCase s t t.pc inp pc b s₁)
    (hm : t.pc.isMarked → s.voting t) (hv : s.votes[k]? = some ⟨c, target⟩) :
    ∃ c', s₁.votes[k]? = some ⟨c', target⟩ ∧ c ≤ c' ∧
      (c' + (s₁.isCommitted k { t with pc := pc, sock := b }).toNat ≤ c + (s.isCommitted k t).toNat ∨
        t.pc.isCheck ∧ (s.vote k).needWaitVote s.devices = false ∧ c' = c) := by
  have hin : inTask k { t with pc := pc, sock := b } = true := ht
  generalize hpc : t.pc = pc₀ at hc hm
  cases hc
  case count acc k' hk =>
    obtain rfl := task_eq_of_inTask ht hk
    have hlt : k' < s.votes.length := (List.getElem?_eq_some_iff.mp hv).1
    have hvot : s.voting t = true := hm rfl
    refine ⟨c + 1, by simp [vote_eq hv, WxVote.addSucCount, hlt], by omega, Or.inl ?_⟩
    simp [isCommitted, ht, hin, hpc, hvot, Pc.isMark, Pc.isSettled]
  case letOn acc k' hk hw hchk =>
    obtain rfl := task_eq_of_inTask ht hk
    refine ⟨c, hv, le_rfl, Or.inr ⟨?_, hw, rfl⟩⟩
    rcases hchk with rfl | rfl <;> rfl
  case eraseDaily hk => simp [inTask, hk, Kind.task] at ht
  case hold hchk =>
    refine ⟨c, hv, le_rfl, Or.inl ?_⟩
    rcases hchk with rfl | rfl <;> simp_all [isCommitted, voting, Pc.isMark, Pc.isSettled]
  case reply v =>
    refine ⟨c, hv, le_rfl, Or.inl ?_⟩
    have : ((decide (v = .success)).toNat : Int) ≤ 1 := by exact_mod_cast Bool.toNat_le _
    simp_all [isCommitted, voting, Pc.isMark, Pc.isSettled, Pc.isMarked]
  all_goals
    refine ⟨c, hv, le_rfl, Or.inl ?_⟩
    simp_all [isCommitted, voting, Pc.isMark, Pc.isSettled, Pc.isMarked, busy_of_inTask ht]

end Step

theorem isCommitted_congr {k : ℕ} {s s' : Server} {t : Thread}
    (h : s'.devices.getStatus t.ip = s.devices.getStatus t.ip) : s'.isCommitted k t = s.isCommitted k t := by
  simp [isCommitted, voting, h]

theorem targetInv_step {k : ℕ} {target : Int} {s s' : Server} {a : Act} (hI : TargetInv k target s)
    (ha : s.ofTask k a = true) (hb : s.passesAlone k a = true) (h : s.step a = some s') :
    TargetInv k target s' := by
  obtain ⟨i, inp, t, pc, b, s₁, rfl, ht, hin, hc, rfl⟩ := step_ofTask ha h
  obtain ⟨c, hv, h0, hbound⟩ := hI.vote
  have hmem := List.mem_of_getElem? ht
  have hother : ∀ j u, j ≠ i → s.threads[j]? = some u → inTask k u →
      s₁.devices.getStatus u.ip = s.devices.getStatus u.ip := fun j u hj hu huk =>
    hc.getStatus_ne (hI.ips.ne ht hu hj hin huk)
  obtain ⟨c', hv', hcc, hw⟩ := isCommitted_step hin hc (hI.marked t hmem hin) hv
  have hmk := isMarked_step hin hc (hI.marked t hmem hin)
  set t' : Thread := { t with pc := pc, sock := b } with ht'
  set s' : Server := { s₁ with threads := s.threads.set i t' } with hs'
  have hcount : s'.committed k + (s.isCommitted k t).toNat = s.committed k + (s₁.isCommitted k t').toNat := by
    refine Counting.countP_set_add ht fun j u hj hu => ?_
    by_cases huk : inTask k u = true
    · exact isCommitted_congr (hother j u hj hu huk)
    · simp [isCommitted, huk]
  refine ⟨hI.ips.set ht rfl rfl, ⟨c', hv', by omega, ?_⟩, fun u hu huk hm => ?_⟩
  · rcases hw with hw | ⟨hchk, hwait, rfl⟩
    · omega
    · -- let on: what is committed is what the guard has found different from the target
      have hu : s.undisturbed k = true := by
        simpa [passesAlone, ht, hchk, hwait] using hb
      have hcommitted := committed_eq hI.ips hu
      have htarget : 0 ≤ target := by
        simp only [undisturbed, vote_eq hv, Bool.and_eq_true, decide_eq_true_eq] at hu
        exact hu.2
      have hne : c' + s.devices.getStatusCount .wxVoting ≠ target := by
        simpa [WxVote.needWaitVote, vote_eq hv] using hwait
      have hone := Bool.toNat_le (s₁.isCommitted k t')
      omega
  · obtain ⟨j, hj⟩ := List.mem_iff_getElem?.mp hu
    rcases Counting.getElem?_set_cases hj with ⟨rfl, rfl⟩ | ⟨hji, hj⟩
    · exact hmk hm
    · have := hI.marked u (List.mem_of_getElem? hj) huk hm
      simpa [voting, s', hother j u hji hj huk] using this

/-! ### The bound -/

/-- The step is one of a session of the task, and if it is let on, undisturbed. -/
def VoteOk (k : ℕ) (s : Server) (a : Act) : Prop := s.ofTask k a = true ∧ s.passesAlone k a = true

instance (k : ℕ) (s : Server) (a : Act) : Decidable (VoteOk k s a) := by unfold VoteOk; infer_instance

theorem TargetInv.bound {k : ℕ} {target : Int} {s : Server} (h : TargetInv k target s) :
    0 ≤ (s.vote k).successCount ∧ (s.vote k).successCount + s.outstanding k ≤ max 0 target := by
  obtain ⟨c, hv, h0, hb⟩ := h.vote
  have hle : s.outstanding k ≤ s.committed k := by
    refine List.countP_mono_left fun t ht hs => ?_
    simp only [Bool.and_eq_true] at hs
    have hvot : t.pc.isMarked = true → s.voting t = true := h.marked t ht hs.1
    cases hpc : t.pc <;> simp_all [isCommitted, Pc.isSent, Pc.isMark, Pc.isMarked, Pc.isSettled]
  rw [vote_eq hv]
  exact ⟨h0, by simp only; omega⟩

/-- A step that sends a vote leaves the success count and an outstanding vote. -/
theorem sendsVote_step {k : ℕ} {s s' : Server} {a : Act} (hs : s.sendsVote k a = true) (h : s.step a = some s') :
    s'.vote k = s.vote k ∧ 0 < s'.outstanding k := by
  cases a <;> simp only [sendsVote, Bool.false_eq_true] at hs
  rename_i i inp
  cases inp <;> simp only [Bool.false_eq_true] at hs
  obtain ⟨t, pc, b, s₁, ht, hc, rfl⟩ := step_thread h
  simp only [ht, Option.any_some, Bool.and_eq_true] at hs
  generalize hpc : t.pc = pc₀ at hc hs
  cases hc <;> simp only [Pc.isWrite, Bool.false_eq_true, and_false] at hs
  rename_i acc hsock
  refine ⟨rfl, List.countP_pos_iff.mpr ⟨{ t with pc := .sent acc, sock := t.sock }, ?_, ?_⟩⟩
  · exact List.mem_set (List.getElem?_eq_some_iff.mp ht).1 _
  · simpa [inTask, Pc.isSent] using hs.1

/-- **The vote target.** In every run of the sessions of one vote task in
which each session let on passes the check undisturbed, success count and
outstanding votes stay within the target, and no vote is sent once it is
reached. -/
theorem target_kept {k : ℕ} {target : Int} {s₀ s : Server} (h₀ : Started k target s₀)
    (hr : Trans.Reach step (VoteOk k) s₀ s) :
    (s.vote k).successCount + s.outstanding k ≤ max 0 target ∧
      ∀ a s', VoteOk k s a → s.step a = some s' → s.sendsVote k a = true →
        (s.vote k).successCount < target := by
  have hI : TargetInv k target s := hr.invariant h₀.targetInv fun _ _ _ hI ha h => targetInv_step hI ha.1 ha.2 h
  refine ⟨hI.bound.2, fun a s' ha h hs => ?_⟩
  have hb := (targetInv_step hI ha.1 ha.2 h).bound
  obtain ⟨hv, ho⟩ := sendsVote_step hs h
  rw [hv] at hb
  omega

/-! ### Two sessions, one vote to give -/

/-- Two phones, two accounts, and a task with target one. -/
def raceStart : Server :=
  (Trans.run step (boot [(Str.of "a", default), (Str.of "b", default)] [])
    (connects [Str.of "p", Str.of "q"] ++ [.voteAdmit 1 (Str.of "u"), .voteSpawn])).get (by decide)

/-- Both sessions pass `need_wait_vote` before either sets `WX_VOTING`. -/
def raceEnd : Server :=
  (Trans.run (Trans.guarded step fun s a => s.ofTask 0 a = true) raceStart
    (moves 0 [.go, .go, .go, .ok, .go, .go, .go, .go] ++
      moves 1 [.go, .go, .go, .ok, .go, .go, .go, .go, .go, .ok] ++ moves 0 [.go, .ok])).get (by decide)

/-- The second session waits while the first one's vote is out, and stops when it
is counted. -/
def raceInTurn : Server :=
  (Trans.run (Trans.guarded step (VoteOk 0)) raceStart
    (moves 0 [.go, .go, .go, .ok, .go, .go, .go, .go, .go, .ok] ++
      moves 1 [.go, .go, .go, .ok, .go, .go, .go, .go, .go] ++
      moves 0 [.reply (.verdict .success), .go, .go, .go, .go] ++ moves 1 [.go, .go])).get (by decide +kernel)

theorem raceStart_started : Started 0 1 raceStart where
  vote := by decide
  init := by decide
  idle := by decide
  ips := by unfold DistinctIps; decide

theorem target_kept_inTurn :
    (raceInTurn.vote 0).successCount + raceInTurn.outstanding 0 ≤ max 0 1 ∧
      ∀ a s', VoteOk 0 raceInTurn a → raceInTurn.step a = some s' → raceInTurn.sendsVote 0 a = true →
        (raceInTurn.vote 0).successCount < 1 :=
  target_kept raceStart_started (Trans.Reach.of_guarded (Option.some_get _).symm)

/-- Without the condition the bound fails. -/
theorem target_exceeded :
    ¬ ∀ (rows : List (Str × AccountPro)) (ips : List Str) (k : ℕ) (target : Int) (s₀ s : Server),
      Trans.Reach step (fun _ _ => True) (boot rows ips) s₀ → Started k target s₀ →
      Trans.Reach step (fun s a => s.ofTask k a = true) s₀ s →
      (s.vote k).successCount + s.outstanding k ≤ max 0 target := fun h =>
  have h₁ : Trans.run step _ _ = some raceStart := (Option.some_get _).symm
  have h₂ : Trans.run (Trans.guarded step _) raceStart _ = some raceEnd := (Option.some_get _).symm
  absurd (h _ _ 0 1 _ _ (Trans.Reach.of_run h₁) raceStart_started (Trans.Reach.of_guarded h₂)) (by decide)

/-- A success that is counted while its device is still in `WX_VOTING` lets the
other session on, too. -/
example : (Trans.run step raceStart
    (moves 0 [.go, .go, .go, .ok, .go, .go, .go, .go, .go, .ok, .reply (.verdict .success), .go, .go] ++
      moves 1 [.go, .go, .go, .ok, .go, .go, .go, .go, .go, .ok])).map
        (fun s => ((s.vote 0).successCount, s.outstanding 0)) = some (1, 1) := by
  decide +kernel

/-- No sum is equal to a negative target. -/
example : (Trans.run step (boot [(Str.of "a", default)] [])
    (connects [Str.of "p"] ++ [.voteAdmit (-1) (Str.of "u"), .voteSpawn] ++
      moves 0 [.go, .go, .go, .ok, .go, .go, .go, .go, .go, .ok])).map
        (fun s => ((s.vote 0).successCount, s.outstanding 0)) = some (0, 1) := by
  decide +kernel

end Server
end ScheduleCenter
