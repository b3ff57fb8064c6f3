/-
# The sessions of one vote task

`wx_vote::do_task` starts a `wx_vote_session` for every device that is idle
in its copy of the status map. `Started k target s` is the state it leaves:
counter `k` at zero, its sessions not yet running, one per device, each device
idle (`voteSpawn_started`, for every server that a run from `boot` reaches).
The runs of the sessions alone are those whose steps are all steps of threads
of task `k` (`Server.ofTask`); such a step leaves the status of the other
sessions' devices alone (`step_ofTask`).

Key definitions: `Server.ofTask`, `Server.Started`, `Server.DistinctIps`.
Key theorems: `Server.step_ofTask`, `Server.voteSpawn_started`, `Server.started_of_reach`.
-/
import ScheduleCenter.Steps
import ScheduleCenter.Base.Counting

namespace ScheduleCenter
namespace Server

/-- The thread runs a session of vote task `k`. -/
def inTask (k : ℕ) (t : Thread) : Bool := t.kind.task = some k

/-- A step of a session of vote task `k`. -/
def ofTask (k : ℕ) (s : Server) : Act → Bool
  | .thread i _ => (s.threads[i]?).any (inTask k)
  | _ => false

/-- The device of the thread is in `WX_VOTING`. -/
def voting (s : Server) (t : Thread) : Bool := s.devices.getStatus t.ip = .wxVoting

/-- The sessions of task `k` are sessions of different devices. -/
def DistinctIps (k : ℕ) (l : List Thread) : Prop :=
  l.Pairwise fun t u => inTask k t = true → inTask k u = true → t.ip ≠ u.ip

/-- Vote task `k` as `do_task` starts it. -/
structure Started (k : ℕ) (target : Int) (s : Server) : Prop where
  vote : s.votes[k]? = some ⟨0, target⟩
  init : ∀ t ∈ s.threads, inTask k t → t.pc = .init
  idle : ∀ t ∈ s.threads, inTask k t → s.devices.getStatus t.ip = .onlineIdle
  ips : DistinctIps k s.threads

/-! ### A step of one of them -/

theorem DistinctIps.ne {k i j : ℕ} {l : List Thread} {t u : Thread} (h : DistinctIps k l)
    (hi : l[i]? = some t) (hj : l[j]? = some u) (hne : j ≠ i) (ht : inTask k t) (hu : inTask k u) :
    u.ip ≠ t.ip := by
  obtain ⟨hi', rfl⟩ := List.getElem?_eq_some_iff.mp hi
  obtain ⟨hj', rfl⟩ := List.getElem?_eq_some_iff.mp hj
  rcases Nat.lt_or_gt_of_ne hne with hlt | hlt
  · exact List.pairwise_iff_getElem.mp h j i hj' hi' hlt hu ht
  · exact (List.pairwise_iff_getElem.mp h i j hi' hj' hlt ht hu).symm

/-- A step changes neither the kind nor the ip of a thread. -/
theorem DistinctIps.set {k i : ℕ} {l : List Thread} {t t' : Thread} (h : DistinctIps k l)
    (hi : l[i]? = some t) (hkind : t'.kind = t.kind) (hip : t'.ip = t.ip) : DistinctIps k (l.set i t') := by
  obtain ⟨hlt, rfl⟩ := List.getElem?_eq_some_iff.mp hi
  have hmap : (l.set i t').map (fun t => (t.kind, t.ip)) = l.map fun t => (t.kind, t.ip) := by
    rw [List.map_set, hkind, hip, ← List.map_set (f := fun t : Thread => (t.kind, t.ip)), List.set_getElem_self]
  have hpair : ∀ l' : List Thread, DistinctIps k l' ↔
      (l'.map fun t => (t.kind, t.ip)).Pairwise fun a b =>
        a.1.task = some k → b.1.task = some k → a.2 ≠ b.2 := fun l' => by
    simp [DistinctIps, List.pairwise_map, inTask]
  rw [hpair, hmap, ← hpair]
  exact h

/-- The ips of the task's threads that satisfy `p` are distinct. -/
theorem DistinctIps.nodup {k : ℕ} {l : List Thread} (h : DistinctIps k l) (p : Thread → Bool)
    (hp : ∀ t, p t = true → inTask k t = true) : ((l.filter p).map (·.ip)).Nodup := by
  rw [List.Nodup, List.pairwise_map, List.pairwise_filter]
  exact h.imp fun {t u} hne ht hu => hne (hp t ht) (hp u hu)

/-- A step of a session of task `k`: one thread of the task moves, and the
devices of the others keep their status. -/
theorem step_ofTask {k : ℕ} {s s' : Server} {a : Act} (ha : s.ofTask k a = true)
    (h : s.step a = some s') : ∃ i inp t pc b s₁, a = .thread i inp ∧ s.threads[i]? = some t ∧
      inTask k t ∧ SessionCase s t t.pc inp pc b s₁ ∧
      s' = { s₁ with threads := s.threads.set i { t with pc := pc, sock := b } } := by
  cases a <;> simp only [ofTask, Bool.false_eq_true] at ha
  rename_i i inp
  obtain ⟨t, pc, b, s₁, ht, hc, rfl⟩ := step_thread h
  rw [ht] at ha
  exact ⟨i, inp, t, pc, b, s₁, rfl, ht, ha, hc, rfl⟩

/-! ### `do_task` starts them so -/

theorem mem_mapIdx_spawn {s : Server} {kind : Kind} {ips : List Str} {t : Thread}
    (h : t ∈ (s.spawn kind ips).threads) :
    t ∈ s.threads ∨ t.kind = kind ∧ t.pc = .init ∧ t.ip ∈ ips := by
  simp only [spawn, List.mem_append, List.mem_mapIdx] at h
  rcases h with h | ⟨j, hj, rfl⟩
  · exact Or.inl h
  · exact Or.inr ⟨rfl, rfl, List.getElem_mem hj⟩

theorem getStatus_of_mem_idleIps {d : DeviceMgr} {ip : Str} (h : ip ∈ d.idleIps) :
    d.getStatus ip = .onlineIdle := by
  obtain ⟨⟨ip', st⟩, he, rfl⟩ := List.mem_map.mp h
  obtain ⟨he, hst⟩ := List.mem_filter.mp he
  have hl : d.lookup ip' = some st := AList.mem_lookup_iff.mpr he
  simpa [DeviceMgr.getStatus, hl] using hst

theorem idleIps_nodup (d : DeviceMgr) : d.idleIps.Nodup :=
  List.Nodup.sublist (List.filter_sublist.map _) d.keys_nodup

/-- Every thread of a vote session has its counter. -/
def TasksKnown (s : Server) : Prop := ∀ t ∈ s.threads, ∀ k, inTask k t → k < s.votes.length

theorem voteSpawn_started {s s' : Server} (hk : TasksKnown s) {target : Int} {url : Str}
    (hw : s.worker = .admitted target url) (h : s.step .voteSpawn = some s') :
    Started s.votes.length target s' := by
  unfold step at h
  split at h
  · cases h
  simp only [hw, Option.some.injEq] at h
  subst h
  have hold : ∀ t ∈ s.threads, ¬ inTask s.votes.length t := fun t ht hin =>
    Nat.lt_irrefl _ (hk t ht _ hin)
  have hnew : ∀ t ∈ (s.spawn (.vote s.votes.length url) s.devices.idleIps).threads,
      inTask s.votes.length t → t.pc = .init ∧ t.ip ∈ s.devices.idleIps := fun t ht hin => by
    rcases mem_mapIdx_spawn ht with h | ⟨-, h2, h3⟩
    · exact absurd hin (hold t h)
    · exact ⟨h2, h3⟩
  refine ⟨by simp, fun t ht hin => (hnew t ht hin).1,
    fun t ht hin => getStatus_of_mem_idleIps (hnew t ht hin).2, ?_⟩
  refine List.pairwise_append.mpr ⟨?_, ?_, fun t ht u _ hin => absurd hin (hold t ht)⟩
  · exact List.pairwise_of_forall_mem_list fun t ht u _ hin => absurd hin (hold t ht)
  · refine List.pairwise_iff_getElem.mpr fun i j hi hj hij _ _ => ?_
    simp only [List.getElem_mapIdx]
    simp only [List.length_mapIdx] at hi hj
    exact List.pairwise_iff_getElem.mp (idleIps_nodup s.devices) i j hi hj hij

/-! ### Every thread's counter exists -/

theorem SessionCase.votes_length {s s' : Server} {t : Thread} {pc pc' : Pc} {inp : Input} {b : Bool}
    (h : SessionCase s t pc inp pc' b s') : s'.votes.length = s.votes.length := by
  cases h
  case count => simp
  all_goals rfl

theorem tasksKnown_step {s s' : Server} {a : Act} (h : StepCase s a s') (hk : TasksKnown s) :
    TasksKnown s' := by
  cases h
  case thread i inp t pc b s₁ ht hc =>
    have hknown := Counting.forall_mem_set (i := i) (y := { t with pc := pc, sock := b }) hk
      (hk t (List.mem_of_getElem? ht))
    intro u hu k hin
    show k < s₁.votes.length
    rw [hc.votes_length]
    exact hknown u hu k hin
  case restart ses t hm ht =>
    intro u hu k hin
    rcases List.mem_append.mp hu with hu | hu
    · exact hk u hu k hin
    · rw [List.mem_singleton.mp hu] at hin
      exact hk t (List.mem_of_find?_eq_some ht) k hin
  case dailyTask =>
    intro u hu k hin
    rcases mem_mapIdx_spawn hu with hu | ⟨hkind, -, -⟩
    · exact hk u hu k hin
    · simp [inTask, hkind, Kind.task] at hin
  case voteSpawn target url hw =>
    intro u hu k hin
    show k < (s.votes ++ [(⟨0, target⟩ : WxVote)]).length
    rw [List.length_append]
    rcases mem_mapIdx_spawn hu with hu | ⟨hkind, -, -⟩
    · have := hk u hu k hin
      omega
    · simp only [inTask, hkind, Kind.task, decide_eq_true_eq, Option.some.injEq] at hin
      simp [← hin]
  case voteJoin k' hw _ =>
    intro u hu k hin
    show k < (s.votes.set k' _).length
    rw [List.length_set]
    exact hk u hu k hin
  all_goals exact hk

/-- From `boot` on, whatever `do_task` starts is `Started`. -/
theorem started_of_reach {rows : List (Str × AccountPro)} {ips : List Str} {ok : Server → Act → Prop}
    {s s' : Server} (hr : Trans.Reach step ok (boot rows ips) s) {target : Int} {url : Str}
    (hw : s.worker = .admitted target url) (h : s.step .voteSpawn = some s') :
    Started s.votes.length target s' :=
  voteSpawn_started (hr.invariant (I := TasksKnown) (by simp [TasksKnown, boot])
    fun _ _ _ hk _ hs => tasksKnown_step (step_cases hs).2 hk) hw h

end Server
end ScheduleCenter
