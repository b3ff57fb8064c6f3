/-
# The wait loop of a vote task

`while (need_wait_vote())` waits for the devices in `WX_VOTING` to settle
their votes. A device gets that status before the command is written and
loses it in `handle_read`, so a session whose write fails keeps it, draws
again and then counts its own device: it waits for itself
(`waits_for_itself`).

If no session that waits is counted in the sum it waits on, somebody else is
there to be waited for: in every run of the sessions of one vote task in which
each `need_wait_vote` that holds a session back is asked by a session whose
own device is not in `WX_VOTING`, the task is never stuck in the loop
(`never_stuck`).

Key definitions: `Server.Stuck`, `Server.Answerable`, `Server.noSelfWait`.
Key theorems: `Server.waitInv_step`, `Server.WaitInv.not_stuck`, `Server.never_stuck`,
`Server.waits_for_itself`.
-/
import ScheduleCenter.VoteTarget

namespace ScheduleCenter

namespace Pc

/-- Inside `while (need_wait_vote())`. -/
def isWaiting : Pc → Bool
  | .waiting _ | .asleep _ => true
  | _ => false

/-- Inside `start`. -/
def isUnderWay (pc : Pc) : Bool := pc ≠ .init && pc ≠ .done

end Pc

namespace Server

/-- A vote command is sent and not yet answered. -/
def awaitsReply (t : Thread) : Bool := t.kind ≠ .daily && t.pc.isSent

/-- Every unfinished session of the task is in the wait loop, the loop goes on
for them, and no vote command is outstanding on any device. -/
structure Stuck (k : ℕ) (s : Server) : Prop where
  alive : s.dead = false
  waiting : ∀ t ∈ s.threads, inTask k t → t.pc ≠ .done → t.pc.isWaiting
  needWait : (s.vote k).needWaitVote s.devices
  needVote : (s.vote k).needVote
  silent : ∀ t ∈ s.threads, ¬ awaitsReply t

/-- At the start every device in `WX_VOTING` has a vote outstanding, of a
session that is not of the task. -/
def Answerable (k : ℕ) (s : Server) : Prop :=
  ∀ ip, s.devices.getStatus ip = .wxVoting → ∃ t ∈ s.threads, t.ip = ip ∧ ¬ inTask k t ∧ awaitsReply t

/-- `need_wait_vote` is about to hold the session back, `need_vote` holds, and
the session's own device is in `WX_VOTING`. -/
def waitsForOwn (k : ℕ) (s : Server) (t : Thread) : Bool :=
  t.pc.isCheck && (s.vote k).needWaitVote s.devices && (s.vote k).needVote && s.voting t

/-- The step does not make a session wait for its own device. -/
def noSelfWait (k : ℕ) (s : Server) : Act → Bool
  | .thread i _ => (s.threads[i]?).all fun t => !s.waitsForOwn k t
  | _ => true

/-! ### The invariant -/

/-- Somebody will still change the status of the thread's device. -/
def isAnswering (k : ℕ) (t : Thread) : Bool := if inTask k t then t.pc.isUnderWay else awaitsReply t

structure WaitInv (k : ℕ) (target : Int) (s : Server) : Prop where
  ips : DistinctIps k s.threads
  vote : ∃ c, s.votes[k]? = some ⟨c, target⟩
  answered : ∀ ip, s.devices.getStatus ip = .wxVoting → ∃ (i : ℕ) (t : Thread),
    s.threads[i]? = some t ∧ t.ip = ip ∧ isAnswering k t
  others : ∀ t ∈ s.threads, inTask k t → t.pc.isWaiting → (s.vote k).needVote → ¬ s.voting t

theorem Started.waitInv {k : ℕ} {target : Int} {s : Server} (h : Started k target s) (ha : Answerable k s) :
    WaitInv k target s := by
  refine ⟨h.ips, ⟨0, h.vote⟩, fun ip hip => ?_, fun t ht hin hw => ?_⟩
  · obtain ⟨t, ht, rfl, hin, hr⟩ := ha ip hip
    obtain ⟨i, hi⟩ := List.mem_iff_getElem?.mp ht
    exact ⟨i, t, hi, rfl, by simp [isAnswering, hin, hr]⟩
  · simp [h.init t ht hin, Pc.isWaiting] at hw

/-- A device counted in the sum belongs to somebody who is not in the loop. -/
theorem WaitInv.not_stuck {k : ℕ} {target : Int} {s : Server} (h : WaitInv k target s) : ¬ Stuck k s := by
  intro hs
  have hpos : 0 < s.devices.getStatusCount .wxVoting := by
    have hw := hs.needWait
    have hv := hs.needVote
    simp only [WxVote.needWaitVote, WxVote.needVote, beq_iff_eq, decide_eq_true_eq] at hw hv
    omega
  obtain ⟨ip, hip⟩ := DeviceMgr.exists_of_getStatusCount_pos _ hpos
  obtain ⟨i, t, ht, rfl, hans⟩ := h.answered ip hip
  have hmem := List.mem_of_getElem? ht
  by_cases hin : inTask k t = true
  · have hdone : t.pc ≠ .done := by
      intro hd
      simp [isAnswering, hin, Pc.isUnderWay, hd] at hans
    have hnot := h.others t hmem hin (hs.waiting t hmem hin hdone) hs.needVote
    exact hnot (by simp [voting, hip])
  · have hr : awaitsReply t = true := by simpa [isAnswering, hin] using hans
    exact hs.silent t hmem hr

section Step

variable {k : ℕ} {target c : Int} {s s₁ : Server} {inp : Input} {t : Thread} {pc : Pc} {b : Bool}

/-- The moving thread leaves `start` only with its device out of `WX_VOTING`,
or with the process, or without having entered. -/
theorem isUnderWay_step (hc : SessionCase s t t.pc inp pc b s₁) :
    pc.isUnderWay ∨ s₁.dead ∨ s₁.devices.getStatus t.ip ≠ .wxVoting ∨ t.pc = .init ∧ s₁.devices = s.devices := by
  generalize hpc : t.pc = pc₀ at hc
  cases hc <;> simp_all [Pc.isUnderWay]

/-- The moving thread: it is held back only if it does not wait for itself. -/
theorem isWaiting_step (ht : inTask k t) (hc : SessionCase s t t.pc inp pc b s₁)
    (hself : s.waitsForOwn k t = false)
    (hw : t.pc.isWaiting → (s.vote k).needVote → ¬ s.voting t) :
    pc.isWaiting → (s₁.vote k).needVote → ¬ s₁.voting t := by
  generalize hpc : t.pc = pc₀ at hc hw
  cases hc
  case hold acc k' hk hwait hchk =>
    obtain rfl := task_eq_of_inTask ht hk
    intro _ hv
    have hcheck : t.pc.isCheck = true := by
      rcases hchk with rfl | rfl <;> simp [hpc, Pc.isCheck]
    simpa [waitsForOwn, hcheck, hwait, hv] using hself
  all_goals simp_all [Pc.isWaiting]

/-- A step counts successes up. -/
theorem needVote_step (ht : inTask k t) (hc : SessionCase s t t.pc inp pc b s₁)
    (hv : s.votes[k]? = some ⟨c, target⟩) :
    ∃ c', s₁.votes[k]? = some ⟨c', target⟩ ∧ ((s₁.vote k).needVote → (s.vote k).needVote) := by
  generalize hpc : t.pc = pc₀ at hc
  cases hc
  case count acc k' hk =>
    obtain rfl := task_eq_of_inTask ht hk
    have hlt : k' < s.votes.length := (List.getElem?_eq_some_iff.mp hv).1
    have hv' : (s.addSucCount k' 1).votes[k']? = some ⟨c + 1, target⟩ := by
      simp [vote_eq hv, WxVote.addSucCount, hlt]
    refine ⟨c + 1, hv', ?_⟩
    rw [vote_eq hv', vote_eq hv]
    simp only [WxVote.needVote, decide_eq_true_eq]
    omega
  all_goals exact ⟨c, hv, id⟩

end Step

theorem waitInv_step {k : ℕ} {target : Int} {s s' : Server} {a : Act} (hI : WaitInv k target s)
    (ha : s.ofTask k a = true) (hn : s.noSelfWait k a = true) (h : s.step a = some s') (hd : s'.dead = false) :
    WaitInv k target s' := by
  obtain ⟨i, inp, t, pc, b, s₁, rfl, ht, hin, hc, rfl⟩ := step_ofTask ha h
  obtain ⟨c, hv⟩ := hI.vote
  obtain ⟨c', hv', hneed⟩ := needVote_step hin hc hv
  have hmem := List.mem_of_getElem? ht
  have hlt := (List.getElem?_eq_some_iff.mp ht).1
  have hself : s.waitsForOwn k t = false := by simpa [noSelfWait, ht] using hn
  have hwait := isWaiting_step hin hc hself (hI.others t hmem hin)
  refine ⟨hI.ips.set ht rfl rfl, ⟨c', hv'⟩, fun ip hip => ?_, fun u hu huk hw hv₁ => ?_⟩
  · -- who answers for a device in `WX_VOTING`: as before, or the moving thread for its own
    have hkeep : s.devices.getStatus ip = .wxVoting → (ip = t.ip → t.pc = .init) →
        ∃ (j : ℕ) (u : Thread), (s.threads.set i { t with pc := pc, sock := b })[j]? = some u ∧
          u.ip = ip ∧ isAnswering k u := by
      intro hip₀ hini
      obtain ⟨j, u, hu, rfl, hans⟩ := hI.answered ip hip₀
      have hji : j ≠ i := by
        rintro rfl
        rw [ht] at hu
        cases hu
        simp [isAnswering, hin, Pc.isUnderWay, hini rfl] at hans
      exact ⟨j, u, by rw [List.getElem?_set_ne (Ne.symm hji)]; exact hu, rfl, hans⟩
    by_cases hown : ip = t.ip
    · subst hown
      rcases isUnderWay_step hc with hpc | hdead | hst | ⟨hini, hdev⟩
      · have hin' : inTask k { t with pc := pc, sock := b } = true := hin
        exact ⟨i, { t with pc := pc, sock := b }, by simp [hlt], rfl, by simp [isAnswering, hin', hpc]⟩
      · simp [hdead] at hd
      · exact absurd hip hst
      · rw [show ({ s₁ with threads := _ } : Server).devices = s.devices from hdev] at hip
        exact hkeep hip fun _ => hini
    · exact hkeep (by rw [← hc.getStatus_ne hown]; exact hip) fun h => absurd h hown
  · obtain ⟨j, hj⟩ := List.mem_iff_getElem?.mp hu
    rcases Counting.getElem?_set_cases hj with ⟨rfl, rfl⟩ | ⟨hji, hj⟩
    · exact hwait hw hv₁
    · have hst := hc.getStatus_ne (hI.ips.ne ht hj hji hin huk)
      have := hI.others u (List.mem_of_getElem? hj) huk hw (hneed hv₁)
      simpa [voting, hst] using this

/-! ### The loop waits for somebody -/

/-- A session of the task that is held back does not wait for itself. -/
def WaitOk (k : ℕ) (s : Server) (a : Act) : Prop := s.ofTask k a = true ∧ s.noSelfWait k a = true

instance (k : ℕ) (s : Server) (a : Act) : Decidable (WaitOk k s a) := by unfold WaitOk; infer_instance

/-- **The wait loop.** In every run of the sessions of one vote task in which
no session that is held back has its own device in `WX_VOTING`, the task is
never stuck in the loop. -/
theorem never_stuck {k : ℕ} {target : Int} {s₀ s : Server} (h₀ : Started k target s₀) (ha : Answerable k s₀)
    (hr : Trans.Reach step (WaitOk k) s₀ s) : ¬ Stuck k s := by
  have hI : s.dead = false → WaitInv k target s :=
    hr.invariant (I := fun s => s.dead = false → WaitInv k target s) (fun _ => h₀.waitInv ha)
      fun s a s' hI hok h hd => waitInv_step (hI (step_cases h).1) hok.1 hok.2 h hd
  exact fun hs => (hI hs.alive).not_stuck hs

/-! ### One session, one failed write -/

/-- One phone, two accounts, and a task with target one. -/
def loneStart : Server :=
  (Trans.run step (boot [(Str.of "a", default), (Str.of "b", default)] [])
    (connects [Str.of "p"] ++ [.voteAdmit 1 (Str.of "u"), .voteSpawn])).get (by decide)

/-- The write of the first command fails; the session draws again and waits. -/
def loneEnd : Server :=
  (Trans.run (Trans.guarded step fun s a => s.ofTask 0 a = true) loneStart
    (moves 0 [.go, .go, .go, .ok, .go, .go, .go, .go, .go, .err, .go, .go, .go, .go])).get (by decide)

/-- Two phones: one session's vote is out, and the other is in the wait loop. -/
def raceHeld : Server :=
  (Trans.run (Trans.guarded step (WaitOk 0)) raceStart
    (moves 0 [.go, .go, .go, .ok, .go, .go, .go, .go, .go, .ok] ++
      moves 1 [.go, .go, .go, .ok, .go, .go, .go, .go, .go, .go])).get (by decide +kernel)

theorem loneStart_started : Started 0 1 loneStart where
  vote := by decide
  init := by decide
  idle := by decide
  ips := by unfold DistinctIps; decide

theorem loneStart_answerable : Answerable 0 loneStart := fun ip hip =>
  absurd hip (loneStart.devices.getStatus_ne_of_getStatusCount (by decide) (by decide) ip)

theorem raceStart_answerable : Answerable 0 raceStart := fun ip hip =>
  absurd hip (raceStart.devices.getStatus_ne_of_getStatusCount (by decide) (by decide) ip)

theorem never_stuck_heldBack : (∃ t ∈ raceHeld.threads, t.pc.isWaiting = true) ∧ ¬ Stuck 0 raceHeld :=
  ⟨by decide +kernel,
    never_stuck raceStart_started raceStart_answerable (Trans.Reach.of_guarded (Option.some_get _).symm)⟩

/-- Without the condition the task can be stuck, also when no device is in
`WX_VOTING` at its start. -/
theorem waits_for_itself :
    ¬ ∀ (rows : List (Str × AccountPro)) (ips : List Str) (k : ℕ) (target : Int) (s₀ s : Server),
      Trans.Reach step (fun _ _ => True) (boot rows ips) s₀ → Started k target s₀ → Answerable k s₀ →
      Trans.Reach step (fun s a => s.ofTask k a = true) s₀ s → ¬ Stuck k s := fun h =>
  have h₁ : Trans.run step _ _ = some loneStart := (Option.some_get _).symm
  have h₂ : Trans.run (Trans.guarded step _) loneStart _ = some loneEnd := (Option.some_get _).symm
  h _ _ 0 1 _ _ (Trans.Reach.of_run h₁) loneStart_started loneStart_answerable (Trans.Reach.of_guarded h₂)
    ⟨by decide, by decide, by decide, by decide, by decide⟩

end Server
end ScheduleCenter
