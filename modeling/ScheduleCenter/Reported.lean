/-
# The reported vote count

`wx_vote::do_task` joins the threads it has created and reports
`success_count`. A session that gets a successful reply adds the url to the
account's `voted_url` and then, in a section of its own, one to the count. The
two agree at the join if each of these replies adds the url to a record that
does not have it, and no re-entered `start()` of the task's sessions is running
then; no vote is recorded after the result if none is re-entered either
(`report_true`). A restart reply that re-enters `start` on the main thread lets
the created thread return: the join does not wait for the re-entry, and its
votes come after the result (`vote_after_report`).

Key definitions: `Thread.voteFor`, `Server.recordedVote`, `Server.gained`, `Server.ReportOk`,
`Server.ReportInv`.
Key theorems: `SessionCase.counts`, `Server.reportInv_step`, `Server.report_true`,
`Server.vote_after_report`.
-/
import ScheduleCenter.Repeat
import Mathlib.Data.Finset.Card

namespace ScheduleCenter

/-- The account and the url of the vote that the thread, a session of task
`k`, is about to record. -/
def Thread.voteFor (k : ℕ) (t : Thread) : Option (Str × Str) :=
  match t.pc with
  | .record acc .success =>
    match t.kind with
    | .vote k' url => if k' = k then some (acc, url) else none
    | .daily => none
  | _ => none

/-- Next `add_suc_count(1)`. -/
def Pc.isCount : Pc → Bool
  | .count _ => true
  | _ => false

namespace Server

/-- The vote that a session of task `k` records at this step. -/
def recordedVote (k : ℕ) (s : Server) : Act → List (Str × Str)
  | .thread i _ => ((s.threads[i]?).bind (Thread.voteFor k)).toList
  | _ => []

/-- The account is in the table and the url is not among its `voted_url`. -/
def isNew (s : Server) (v : Str × Str) : Bool :=
  (s.accounts.accountsPro.lookup v.1).any fun p => v.2 ∉ p.votedUrl

/-- The account whose `voted_url` gains the url of task `k` at this step,
through a session of the task. -/
def gained (k : ℕ) (s : Server) (a : Act) : List Str := ((s.recordedVote k a).filter s.isNew).map (·.1)

/-- No `start()` of a session of task `k` is running. -/
def allDone (k : ℕ) (s : Server) : Bool := s.threads.all fun t => !inTask k t || t.pc = .done

/-- No `start()` that `on_restart_lua_end` has re-entered for a session of task `k` is running. -/
def reentriesDone (k : ℕ) (s : Server) : Bool :=
  s.threads.zipIdx.all fun p => !inTask k p.1 || p.1.ses = p.2 || p.1.pc = .done

/-- A vote of task `k` is recorded where it is new; when `join_all` returns no
re-entered `start()` of its sessions is running; and none is re-entered after that. -/
def ReportOk (k : ℕ) (s : Server) (a : Act) : Bool :=
  (s.recordedVote k a).all s.isNew &&
  match a with
  | .voteJoin => s.worker ≠ .joining k || s.reentriesDone k
  | .main =>
    match s.main with
    | .restart ses => (s.findSession ses).all fun t => !inTask k t || s.worker = .joining k
    | _ => true
  | _ => true

/-- The sessions of task `k` that have recorded a vote and not counted it. -/
def uncounted (k : ℕ) (s : Server) : ℕ := s.threads.countP fun t => inTask k t && t.pc.isCount

/-- What is kept of task `k`, with the accounts that have gained its url so far. -/
structure ReportInv (k : ℕ) (s : Server) (g : List Str) : Prop where
  known : TasksKnown s
  fresh : s.votes.length ≤ k → g = []
  joining : ∀ k', s.worker = .joining k' → k' < s.votes.length
  kinds : ∀ t ∈ s.threads, ∀ u ∈ s.threads, inTask k t → inTask k u → t.kind = u.kind
  counted : s.worker = .joining k → (s.vote k).successCount + s.uncounted k = g.length
  finished : k < s.votes.length → s.worker ≠ .joining k → s.allDone k = true
  voted : ∀ t ∈ s.threads, ∀ url, t.kind = .vote k url → ∀ acc ∈ g,
    ∃ p, s.accounts.accountsPro.lookup acc = some p ∧ url ∈ p.votedUrl
  nodup : g.Nodup

section Step

variable {s s' s₁ : Server} {t : Thread} {pc : Pc} {inp : Input} {b : Bool} {i k : ℕ} {a : Act} {g : List Str}

theorem voteFor_eq_some {v : Str × Str} :
    t.voteFor k = some v ↔ t.pc = .record v.1 .success ∧ t.kind = .vote k v.2 := by
  unfold Thread.voteFor
  constructor
  · intro h
    split at h
    · rename_i acc hpc
      split at h
      · rename_i k' url hkind
        by_cases hk : k' = k
        · rw [if_pos hk, Option.some.injEq] at h
          subst h hk
          exact ⟨hpc, hkind⟩
        · rw [if_neg hk] at h
          cases h
      · cases h
    · cases h
  · rintro ⟨hpc, hkind⟩
    simp [hpc, hkind]

theorem inTask_of_voteFor {v : Str × Str} (h : t.voteFor k = some v) : inTask k t = true := by
  simp [inTask, (voteFor_eq_some.mp h).2, Kind.task]

/-- Of a session: what it counts, what it is about to count, and what it has
recorded at the step. -/
theorem SessionCase.counts (hc : SessionCase s t t.pc inp pc b s₁) (hk : k < s.votes.length) :
    (s₁.vote k).successCount + ((inTask k t && pc.isCount).toNat : ℤ) =
      (s.vote k).successCount + ((inTask k t && t.pc.isCount).toNat : ℤ) + (t.voteFor k).toList.length := by
  generalize hpc : t.pc = pc₀ at hc
  have hfor : (∀ acc, pc₀ ≠ .record acc .success) → t.voteFor k = none := by
    intro hne
    unfold Thread.voteFor
    rw [hpc]
    split
    · exact absurd rfl (hne _)
    · rfl
  cases hc
  case recordVote acc hd =>
    unfold Thread.voteFor inTask
    rw [hpc]
    rcases hkind : t.kind with ⟨k', url⟩ | _
    · by_cases hkk : k' = k <;> simp [hkk, Pc.isCount, Kind.task, withAccounts, vote]
    · exact absurd hkind hd
  case record acc v hv =>
    have hnone : t.voteFor k = none := by
      unfold Thread.voteFor
      rw [hpc]
      rcases v with _ | _ | _
      · simp [hv rfl]
      · rfl
      · rfl
    simp [hnone, Pc.isCount, withAccounts, vote]
  case count acc k' hk' =>
    rw [hfor (by simp)]
    by_cases hkk : k' = k
    · subst hkk
      simp [inTask, hk', Pc.isCount, addSucCount, vote, WxVote.addSucCount, hk]
    · simp [inTask, hk', hkk, Pc.isCount, addSucCount, vote]
  case letOn hpcs | hold hpcs =>
    rw [hfor (by rcases hpcs with rfl | rfl <;> simp)]
    rcases hpcs with rfl | rfl <;> simp [Pc.isCount]
  all_goals
    rw [hfor (by simp)]
    simp [Pc.isCount, vote]

theorem SessionCase.worker_eq (hc : SessionCase s t t.pc inp pc b s₁) : s₁.worker = s.worker := by
  generalize t.pc = pc₀ at hc
  cases hc <;> rfl

theorem isNew_iff {v : Str × Str} :
    s.isNew v = true ↔ ∃ p, s.accounts.accountsPro.lookup v.1 = some p ∧ v.2 ∉ p.votedUrl := by
  simp [isNew, Option.any_eq_true]

theorem recordedVote_thread (ht : s.threads[i]? = some t) :
    s.recordedVote k (.thread i inp) = (t.voteFor k).toList := by
  simp [recordedVote, ht]

theorem gained_thread (ht : s.threads[i]? = some t) (hok : ∀ v, t.voteFor k = some v → s.isNew v = true) :
    s.gained k (.thread i inp) = (t.voteFor k).toList.map (·.1) := by
  unfold gained
  rw [recordedVote_thread ht]
  rcases hv : t.voteFor k with _ | v
  · rfl
  · simp [hok v hv]

/-- The recorded vote is there afterwards. -/
theorem SessionCase.voted (hc : SessionCase s t t.pc inp pc b s₁) {v : Str × Str} (hv : t.voteFor k = some v)
    (hnew : s.isNew v = true) : ∃ p, s₁.accounts.accountsPro.lookup v.1 = some p ∧ v.2 ∈ p.votedUrl := by
  obtain ⟨hpc, hkind⟩ := voteFor_eq_some.mp hv
  obtain ⟨p, hp, -⟩ := isNew_iff.mp hnew
  have hlookup := s.accounts.lookup_recordReply t.kind v.1 v.1 .success
  rw [if_pos rfl, hp, Option.map_some, hkind] at hlookup
  rw [hpc] at hc
  cases hc
  case recordVote => exact ⟨_, by rw [hkind]; exact hlookup, by simp [Kind.recorded]⟩
  case record hd => exact absurd (hkind.symm.trans (hd rfl)) (by simp)
  case letOn hpcs | hold hpcs => rcases hpcs with h | h <;> cases h

/-- Each thread after the step of thread `i` is of the kind of one before it. -/
theorem kind_of_mem_set (ht : s.threads[i]? = some t) {u : Thread}
    (hu : u ∈ s.threads.set i { t with pc := pc, sock := b }) : ∃ v ∈ s.threads, v.kind = u.kind := by
  rcases List.mem_or_eq_of_mem_set hu with hu | rfl
  · exact ⟨u, hu, rfl⟩
  · exact ⟨t, List.mem_of_getElem? ht, rfl⟩

/-- What has been voted stays voted. -/
theorem voted_step (hs : s.step a = some s') {acc url : Str}
    (h : ∃ p, s.accounts.accountsPro.lookup acc = some p ∧ url ∈ p.votedUrl) :
    ∃ p, s'.accounts.accountsPro.lookup acc = some p ∧ url ∈ p.votedUrl := by
  have hr : Trans.Reach step (fun _ _ => True) s s' := .single trivial hs
  refine recorded_kept (P := fun p => url ∈ p.votedUrl) (fun kind v p hp => ?_) (fun _ _ _ _ p hp => hp) hr h
  rcases kind with ⟨k, url'⟩ | _ <;> rcases v with _ | _ | _ <;> simp [Kind.recorded, hp]

theorem allDone_iff : s.allDone k = true ↔ ∀ t ∈ s.threads, inTask k t = true → t.pc = .done := by
  simp only [allDone, List.all_eq_true, Bool.or_eq_true, Bool.not_eq_true', decide_eq_true_eq]
  exact forall₂_congr fun t _ => by cases inTask k t <;> simp

/-- `join_all` has waited for the others. -/
theorem allDone_of_joined (hj : s.joined k = true) (hr : s.reentriesDone k = true) : s.allDone k = true := by
  refine allDone_iff.mpr fun t ht hin => ?_
  obtain ⟨i, hi⟩ := List.mem_iff_getElem?.mp ht
  have hmem : (t, i) ∈ s.threads.zipIdx := List.mem_zipIdx_iff_getElem?.mpr hi
  have hcreated : t.ses = i → t.pc = .done := by
    have h := List.all_eq_true.mp hj _ hmem
    have htask : t.kind.task = some k := by simpa [inTask] using hin
    intro hses
    simpa [htask, hses] using h
  have hentered : t.ses ≠ i → t.pc = .done := by
    have h := List.all_eq_true.mp hr _ hmem
    intro hses
    simpa [hin, hses] using h
  by_cases hses : t.ses = i
  · exact hcreated hses
  · exact hentered hses

/-- What is to be recorded as new has not been gained. -/
theorem ReportInv.not_gained (h : ReportInv k s g) (ht : t ∈ s.threads) {v : Str × Str} (hv : t.voteFor k = some v)
    (hnew : s.isNew v = true) : v.1 ∉ g := by
  intro hacc
  obtain ⟨p, hp, hnot⟩ := isNew_iff.mp hnew
  obtain ⟨p', hp', hin⟩ := h.voted t ht v.2 (voteFor_eq_some.mp hv).2 v.1 hacc
  rw [hp, Option.some.injEq] at hp'
  exact hnot (hp' ▸ hin)

theorem ReportInv.thread (h : ReportInv k s g) (ht : s.threads[i]? = some t) (hc : SessionCase s t t.pc inp pc b s₁)
    (ha : s.ReportOk k (.thread i inp) = true)
    (hs : s.step (.thread i inp) = some { s₁ with threads := s.threads.set i { t with pc := pc, sock := b } }) :
    ReportInv k { s₁ with threads := s.threads.set i { t with pc := pc, sock := b } }
      (g ++ s.gained k (.thread i inp)) := by
  have hmem := List.mem_of_getElem? ht
  have hok : ∀ v, t.voteFor k = some v → s.isNew v = true := by
    intro v hv
    simpa [ReportOk, recordedVote_thread ht, hv] using ha
  have hlen : s₁.votes.length = s.votes.length := hc.votes_length
  rw [gained_thread ht hok]
  constructor
  case known => exact tasksKnown_step (step_cases hs).2 h.known
  case fresh =>
    intro hk
    have hk : s.votes.length ≤ k := hlen ▸ hk
    rcases hv : t.voteFor k with _ | v
    · simp [h.fresh hk]
    · have := h.known t hmem k (inTask_of_voteFor hv)
      omega
  case joining =>
    intro k' hw
    show k' < s₁.votes.length
    rw [hlen]
    exact h.joining k' (hc.worker_eq ▸ hw)
  case kinds =>
    intro u hu w hw hut hwt
    obtain ⟨u', hu', hku⟩ := kind_of_mem_set ht hu
    obtain ⟨w', hw', hkw⟩ := kind_of_mem_set ht hw
    unfold inTask at hut hwt
    rw [← hku] at hut
    rw [← hkw] at hwt
    rw [← hku, ← hkw]
    exact h.kinds u' hu' w' hw' hut hwt
  case counted =>
    intro hw
    have hw : s.worker = .joining k := hc.worker_eq ▸ hw
    have hcount := hc.counts (h.joining k hw)
    have hset : (s.threads.set i { t with pc := pc, sock := b }).countP (fun t => inTask k t && t.pc.isCount) +
        (inTask k t && t.pc.isCount).toNat = s.uncounted k + (inTask k t && pc.isCount).toNat :=
      Counting.countP_set_add ht fun _ _ _ _ => rfl
    have hold := h.counted hw
    rw [List.length_append, List.length_map]
    show (s₁.vote k).successCount + (((s.threads.set i _).countP _ : ℕ) : ℤ) = _
    push_cast
    omega
  case finished =>
    intro hk hw
    have hall := allDone_iff.mp (h.finished (hlen ▸ hk) fun hw' => hw (hc.worker_eq.trans hw'))
    exact allDone_iff.mpr (Counting.forall_mem_set hall fun hut => absurd (hall t hmem hut) hc.ne_done)
  case voted =>
    intro u hu url hkind acc hacc
    obtain ⟨u', hu', hku⟩ := kind_of_mem_set ht hu
    rcases List.mem_append.mp hacc with hacc | hacc
    · exact voted_step hs (h.voted u' hu' url (hku.trans hkind) acc hacc)
    · obtain ⟨v, hv, rfl⟩ := List.mem_map.mp hacc
      have hv : t.voteFor k = some v := Option.mem_toList.mp hv
      have hsame := h.kinds t hmem u' hu' (inTask_of_voteFor hv)
        (by simp [inTask, hku, hkind, Kind.task])
      rw [(voteFor_eq_some.mp hv).2, hku, hkind] at hsame
      obtain ⟨-, hurl⟩ := Kind.vote.inj hsame
      rw [← hurl]
      exact hc.voted hv (hok v hv)
  case nodup =>
    rcases hv : t.voteFor k with _ | v
    · simpa using h.nodup
    · refine List.nodup_append.mpr ⟨h.nodup, List.nodup_singleton _, fun acc hacc acc' hacc' heq => ?_⟩
      have hacc' : acc' = v.1 := by simpa using hacc'
      rw [heq, hacc'] at hacc
      exact h.not_gained hmem hv (hok v hv) hacc

/-- A step that leaves counters and worker alone, and at most adds threads
that have not taken a step: to task `k` only while it is joined, and of a kind
that is there. -/
theorem ReportInv.append (h : ReportInv k s g) (hs : s.step a = some s') {l : List Thread}
    (hl : s'.threads = s.threads ++ l) (hvotes : s'.votes = s.votes)
    (hworker : ∀ k', s'.worker = .joining k' ↔ s.worker = .joining k')
    (hnew : ∀ u ∈ l, u.pc = .init ∧
      (inTask k u = true → s.worker = .joining k ∧ ∃ v ∈ s.threads, v.kind = u.kind)) : ReportInv k s' g := by
  have hkind : ∀ u ∈ s'.threads, inTask k u = true → ∃ v ∈ s.threads, v.kind = u.kind := by
    intro u hu hut
    rw [hl] at hu
    rcases List.mem_append.mp hu with hu | hu
    · exact ⟨u, hu, rfl⟩
    · exact ((hnew u hu).2 hut).2
  constructor
  case known => exact tasksKnown_step (step_cases hs).2 h.known
  case fresh => exact fun hk => h.fresh (hvotes ▸ hk)
  case joining => exact fun k' hw => hvotes ▸ h.joining k' ((hworker k').mp hw)
  case kinds =>
    intro u hu w hw hut hwt
    obtain ⟨u', hu', hku⟩ := hkind u hu hut
    obtain ⟨w', hw', hkw⟩ := hkind w hw hwt
    rw [← hku, ← hkw]
    unfold inTask at hut hwt
    exact h.kinds u' hu' w' hw' (by unfold inTask; rwa [hku]) (by unfold inTask; rwa [hkw])
  case counted =>
    intro hw
    have hzero : l.countP (fun t => inTask k t && t.pc.isCount) = 0 :=
      List.countP_eq_zero.mpr fun u hu => by simp [(hnew u hu).1, Pc.isCount]
    unfold uncounted vote
    rw [hl, hvotes, List.countP_append, hzero]
    exact h.counted ((hworker k).mp hw)
  case finished =>
    intro hk hw
    have hw : s.worker ≠ .joining k := fun hw' => hw ((hworker k).mpr hw')
    refine allDone_iff.mpr fun u hu hut => ?_
    rw [hl] at hu
    rcases List.mem_append.mp hu with hu | hu
    · exact allDone_iff.mp (h.finished (hvotes ▸ hk) hw) u hu hut
    · exact absurd ((hnew u hu).2 hut).1 hw
  case voted =>
    intro u hu url hku acc hacc
    obtain ⟨v, hv, hkv⟩ := hkind u hu (by simp [inTask, hku, Kind.task])
    exact voted_step hs (h.voted v hv url (hkv.trans hku) acc hacc)
  case nodup => exact h.nodup

theorem gained_main (ha : ∀ i inp, a ≠ .thread i inp) : s.gained k a = [] := by
  unfold gained recordedVote
  split
  · exact absurd rfl (ha _ _)
  · rfl

theorem ReportInv.voteSpawn (h : ReportInv k s g) (hs : s.step .voteSpawn = some s') {target : Int} {url : Str}
    (hw : s.worker = .admitted target url)
    (heq : s' = { s.spawn (.vote s.votes.length url) s.devices.idleIps with
      votes := s.votes ++ [⟨0, target⟩], worker := .joining s.votes.length }) : ReportInv k s' g := by
  have hlen : s'.votes.length = s.votes.length + 1 := by rw [heq]; simp
  have hworker : s'.worker = .joining s.votes.length := by rw [heq]
  have hthreads : ∀ u ∈ s'.threads, u ∈ s.threads ∨ u.kind = .vote s.votes.length url ∧ u.pc = .init := by
    intro u hu
    rw [heq] at hu
    rcases mem_mapIdx_spawn hu with hu | ⟨hkind, hpc, -⟩
    · exact Or.inl hu
    · exact Or.inr ⟨hkind, hpc⟩
  -- a thread of task `k` is an old one, or `k` is the task that begins and nobody was in it
  have htask : ∀ u ∈ s'.threads, inTask k u = true →
      u ∈ s.threads ∧ k < s.votes.length ∨ k = s.votes.length ∧ u.kind = .vote k url ∧ u.pc = .init := by
    intro u hu hut
    rcases hthreads u hu with hu | ⟨hkind, hpc⟩
    · exact Or.inl ⟨hu, h.known u hu k hut⟩
    · have hk : s.votes.length = k := by simpa [inTask, hkind, Kind.task] using hut
      exact Or.inr ⟨hk.symm, hk ▸ hkind, hpc⟩
  constructor
  case known => exact tasksKnown_step (step_cases hs).2 h.known
  case fresh => exact fun hk => h.fresh (by omega)
  case joining =>
    intro k' hk'
    rw [hworker, WorkerPc.joining.injEq] at hk'
    omega
  case kinds =>
    intro u hu v hv hut hvt
    rcases htask u hu hut with ⟨hu, hk⟩ | ⟨hk, hku, -⟩ <;> rcases htask v hv hvt with ⟨hv, hk'⟩ | ⟨hk', hkv, -⟩
    · exact h.kinds u hu v hv hut hvt
    · omega
    · omega
    · rw [hku, hkv]
  case counted =>
    intro hk
    rw [hworker, WorkerPc.joining.injEq] at hk
    have hzero : s'.uncounted k = 0 := List.countP_eq_zero.mpr fun u hu hp => by
      rw [Bool.and_eq_true] at hp
      rcases htask u hu hp.1 with ⟨-, hlt⟩ | ⟨-, -, hpc⟩
      · omega
      · simp [hpc, Pc.isCount] at hp
    have hvote : s'.vote k = ⟨0, target⟩ := by
      unfold vote
      rw [heq, ← hk]
      simp
    rw [hzero, hvote, h.fresh (by omega)]
    rfl
  case finished =>
    intro hk hne
    have hk : k < s.votes.length := by
      rw [hworker] at hne
      have : s.votes.length ≠ k := fun he => hne (by rw [he])
      omega
    refine allDone_iff.mpr fun u hu hut => ?_
    rcases htask u hu hut with ⟨hu, -⟩ | ⟨hk', -, -⟩
    · exact allDone_iff.mp (h.finished hk (by simp [hw])) u hu hut
    · omega
  case voted =>
    intro u hu url' hku acc hacc
    rcases htask u hu (by simp [inTask, hku, Kind.task]) with ⟨hu, -⟩ | ⟨hk, -, -⟩
    · exact voted_step hs (h.voted u hu url' hku acc hacc)
    · rw [h.fresh (by omega)] at hacc
      cases hacc
  case nodup => exact h.nodup

theorem ReportInv.voteJoin (h : ReportInv k s g) (ha : s.ReportOk k .voteJoin = true)
    (hs : s.step .voteJoin = some s') {k' : ℕ} (hw : s.worker = .joining k') (hj : s.joined k' = true)
    (heq : s' = { s with votes := s.votes.set k' { s.vote k' with successCount := 0 }, worker := .idle }) :
    ReportInv k s' g := by
  have hlen : s'.votes.length = s.votes.length := by rw [heq]; simp
  have hthreads : s'.threads = s.threads := by rw [heq]
  have hworker : s'.worker = .idle := by rw [heq]
  constructor
  case known => exact tasksKnown_step (step_cases hs).2 h.known
  case fresh => exact fun hk => h.fresh (by omega)
  case joining => exact fun k' hk' => by rw [hworker] at hk'; cases hk'
  case kinds => rw [hthreads]; exact h.kinds
  case counted => exact fun hk => by rw [hworker] at hk; cases hk
  case finished =>
    intro hk _
    have hall : s.allDone k = true := by
      by_cases hkk : s.worker = .joining k
      · obtain rfl : k' = k := WorkerPc.joining.inj (hw.symm.trans hkk)
        exact allDone_of_joined hj (by simpa [ReportOk, recordedVote, hkk] using ha)
      · exact h.finished (by omega) hkk
    unfold allDone at hall ⊢
    rwa [hthreads]
  case voted =>
    rw [hthreads]
    exact fun u hu url hku acc hacc => voted_step hs (h.voted u hu url hku acc hacc)
  case nodup => exact h.nodup

theorem reportInv_step (h : ReportInv k s g) (ha : s.ReportOk k a = true) (hs : s.step a = some s') :
    ReportInv k s' (g ++ s.gained k a) := by
  have hcase := (step_cases hs).2
  cases hcase
  case thread i inp t pc b s₁ ht hc => exact h.thread ht hc ha hs
  all_goals rw [gained_main (by simp), List.append_nil]
  case restart ses t hm ht =>
    refine h.append hs rfl rfl (fun _ => Iff.rfl) fun u hu => ?_
    obtain rfl := List.mem_singleton.mp hu
    refine ⟨rfl, fun hut => ⟨?_, t, List.mem_of_find?_eq_some ht, rfl⟩⟩
    have hut : inTask k t = true := hut
    simpa [ReportOk, recordedVote, hm, ht, hut] using ha
  case dailyTask hm =>
    refine h.append hs rfl rfl (fun _ => Iff.rfl) fun u hu => ?_
    obtain ⟨j, hj, rfl⟩ := List.mem_mapIdx.mp hu
    exact ⟨rfl, fun hut => by simp [inTask, Kind.task] at hut⟩
  case voteAdmit target url hw =>
    exact h.append (l := []) hs (by simp) rfl (fun k' => by simp [hw]) (by simp)
  case voteSpawn target url hw => exact h.voteSpawn hs hw rfl
  case voteJoin k' hw hj => exact h.voteJoin ha hs hw hj rfl
  case voteRefuse => exact h
  all_goals exact h.append (l := []) hs (by simp) rfl (fun _ => Iff.rfl) (by simp)

end Step

theorem boot_reportInv (rows : List (Str × AccountPro)) (ips : List Str) (k : ℕ) :
    ReportInv k (boot rows ips) [] := by
  constructor <;> simp [boot, TasksKnown]

/-- Task `k` has had its result. -/
structure Over (k : ℕ) (s : Server) : Prop where
  begun : k < s.votes.length
  past : s.worker ≠ .joining k
  inv : ∃ g, ReportInv k s g

theorem Over.step {k : ℕ} {s s' : Server} {a : Act} (h : Over k s) (ha : s.ReportOk k a = true)
    (hs : s.step a = some s') : Over k s' ∧ s.recordedVote k a = [] := by
  obtain ⟨g, hinv⟩ := h.inv
  have hbegun := h.begun
  refine ⟨?_, ?_⟩
  · have hnext : k < s'.votes.length ∧ s'.worker ≠ .joining k := by
      have hcase := (step_cases hs).2
      cases hcase
      case thread hc =>
        refine ⟨?_, ?_⟩
        · rw [hc.votes_length]
          exact h.begun
        · rw [hc.worker_eq]
          exact h.past
      case voteSpawn target url hw =>
        refine ⟨?_, ?_⟩
        · show k < (s.votes ++ [(⟨0, target⟩ : WxVote)]).length
          rw [List.length_append]
          omega
        · intro hk
          rw [WorkerPc.joining.injEq] at hk
          omega
      case voteJoin => exact ⟨by simpa using h.begun, by simp⟩
      case voteAdmit => exact ⟨h.begun, by simp⟩
      all_goals exact ⟨h.begun, h.past⟩
    exact ⟨hnext.1, hnext.2, _, reportInv_step hinv ha hs⟩
  · by_cases hthread : ∃ i inp, a = .thread i inp
    · obtain ⟨i, inp, rfl⟩ := hthread
      obtain ⟨t, pc, b, s₁, ht, hc, -⟩ := step_thread hs
      rw [recordedVote_thread ht]
      rcases hv : t.voteFor k with _ | v
      · rfl
      · have hdone := allDone_iff.mp (hinv.finished h.begun h.past) t (List.mem_of_getElem? ht) (inTask_of_voteFor hv)
        exact absurd hdone hc.ne_done
    · unfold recordedVote
      split
      · exact absurd ⟨_, _, rfl⟩ hthread
      · rfl

/-- **The report is true.** In every run in which each vote of the task is
recorded where it is new, no re-entered `start()` of its sessions is running
when `join_all` returns, and none is re-entered afterwards: the count reported is
the number of accounts that have gained the url through the task's sessions,
and none of them records a vote after the result. -/
theorem report_true {rows : List (Str × AccountPro)} {ips : List Str} {as bs : List Act} {s s' s'' : Server} {k : ℕ}
    (hr : Trans.run step (boot rows ips) as = some s) (hw : s.worker = .joining k)
    (hj : s.step .voteJoin = some s') (hr' : Trans.run step s' bs = some s'')
    (ha : Trans.Along step (fun s a => s.ReportOk k a = true) (boot rows ips) (as ++ .voteJoin :: bs)) :
    (s.vote k).successCount = ((Trans.emits step (gained k) (boot rows ips) as).toFinset.card : ℤ) ∧
      Trans.Along step (fun s a => s.recordedVote k a = []) s' bs := by
  obtain ⟨has, hab⟩ := (Trans.along_append hr).mp ha
  obtain ⟨haj, hbs⟩ := (Trans.along_cons hj).mp hab
  have hinv := Trans.emits_invariant (I := ReportInv k) (fun _ _ _ _ h ha hs => reportInv_step h ha hs)
    (boot_reportInv rows ips k) has hr
  rw [List.nil_append] at hinv
  refine ⟨?_, ?_⟩
  · have hnone : s.uncounted k = 0 := by
      have hall : s.allDone k = true := by
        cases (step_cases hj).2 with
        | voteJoin hw' hjoin =>
          obtain rfl : _ = k := WorkerPc.joining.inj (hw'.symm.trans hw)
          exact allDone_of_joined hjoin (by simpa [ReportOk, recordedVote, hw] using haj)
      refine List.countP_eq_zero.mpr fun t ht hp => ?_
      rw [Bool.and_eq_true] at hp
      simp [allDone_iff.mp hall t ht hp.1, Pc.isCount] at hp
    have hcount := hinv.counted hw
    rw [hnone] at hcount
    rw [List.toFinset_card_of_nodup hinv.nodup, ← hcount]
    simp
  · have hover : Over k s' := by
      have hnext := reportInv_step hinv haj hj
      have hcase := (step_cases hj).2
      rcases hcase with _ | _
      refine ⟨?_, by simp, _, hnext⟩
      simpa using hinv.joining k hw
    exact Trans.along_of_invariant (fun _ _ _ h ha hs => h.step ha hs) hover hbs hr'

/-! ### One phone, one account -/

def oneRow : List (Str × AccountPro) := [(Str.of "a", default)]

/-- Phone p is idle, and a task for one vote starts its session. -/
def voteBegins : List Act := connects [Str.of "p"] ++ [.voteAdmit 1 (Str.of "u"), .voteSpawn]

/-- From the head of the loop until the reply is handled. -/
def oneVote : List Input := [.go, .go, .go, .go, .go, .ok, .reply (.verdict .success), .go, .go, .go, .go]

/-- The session votes and finds no further account. -/
def votedRun : List Act := voteBegins ++ moves 0 ([.go, .go, .go, .ok] ++ oneVote ++ [.go, .go])

def votedAll : Server := (Trans.run step (boot oneRow []) votedRun).get (by decide)

theorem report_true_voted :
    (votedAll.vote 0).successCount = ((Trans.emits step (gained 0) (boot oneRow []) votedRun).toFinset.card : ℤ) ∧
      Trans.Along step (fun s a => s.recordedVote 0 a = []) ((votedAll.step .voteJoin).get (by decide)) [] :=
  report_true (k := 0) (Option.some_get _).symm (by decide) (Option.some_get _).symm rfl
    (by decide)

/-- The session waits for the restart; the answer re-enters `start`, and the
created thread returns. -/
def reenteredRun : List Act :=
  voteBegins ++ moves 0 [.go, .go, .go, .err] ++ [.restartReply 0, .main] ++ moves 0 [.cancelled, .go]

def reentered : Server := (Trans.run step (boot oneRow []) reenteredRun).get (by decide)

def reported : Server := (reentered.step .voteJoin).get (by decide)

/-- The re-entry votes after the result, which says none did. -/
theorem vote_after_report :
    ¬ ∀ (rows : List (Str × AccountPro)) (ips : List Str) (as bs : List Act) (s s' s'' : Server) (k : ℕ),
      Trans.run step (boot rows ips) as = some s → s.worker = .joining k → s.step .voteJoin = some s' →
        Trans.run step s' bs = some s'' →
          (s.vote k).successCount = ((Trans.emits step (gained k) (boot rows ips) as).toFinset.card : ℤ) ∧
            Trans.Along step (fun s a => s.recordedVote k a = []) s' bs := by
  intro h
  have hgoesOn : (Trans.run step reported (moves 1 ([.go, .go, .go, .ok] ++ oneVote))).isSome := by decide +kernel
  have hjoining : reentered.worker = .joining 0 := by decide +kernel
  have hlate := (h oneRow [] reenteredRun (moves 1 ([.go, .go, .go, .ok] ++ oneVote)) reentered reported _ 0
    (Option.some_get _).symm hjoining (Option.some_get _).symm (Option.some_get hgoesOn).symm).2
  exact absurd hlate (by decide)

end Server
end ScheduleCenter
