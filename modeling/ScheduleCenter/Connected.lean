/-
# Device status and connections

`pho_conn_pool` sets a device `OFFLINE` when it drops its connection and
`ONLINE_IDLE` when it takes a new one. Sessions and the restart callback write
the status of their device too, and do not ask the pool: a session that goes
on after its phone has disconnected marks the device `TASK_BEGIN`, `WX_VOTING`
or `ONLINE_IDLE` again (`online_without_connection`).

Where each of these writes finds the connection in the pool, and not about to
be erased, a device whose status is not `OFFLINE` has a connection in the pool
whenever the pool is not in the middle of an operation (`online_connected`).
A write that does not find it there shows at once (`exposed_of_unheld`).

Key definitions: `Pc.writesStatus`, `Server.poolAtRest`, `Server.held`, `Server.HeldOk`.
Key theorems: `Server.heldInv_step`, `Server.online_connected`, `Server.exposed_of_unheld`,
`Server.online_without_connection`.
-/
import ScheduleCenter.Steps

namespace ScheduleCenter

/-- Next the thread writes the status of its device. -/
def Pc.writesStatus : Pc → Bool
  | .begin | .mark _ | .readEnd _ | .close => true
  | _ => false

/-- No operation of the pool is half done. -/
def MainPc.poolAtRest : MainPc → Bool
  | .stopErase _ _ | .startIdle _ | .startInsert _ => false
  | _ => true

/-- Of the connections of `ips` the pool has one of `ip`, or it will have one
when the operation it is in the middle of is done. -/
def MainPc.holds (ips : List Str) (ip : Str) : MainPc → Bool
  | .stopErase ip' again => if ip = ip' then again else ip ∈ ips
  | .startIdle ip' | .startInsert ip' => ip = ip' || ip ∈ ips
  | _ => ip ∈ ips

namespace Server

def held (s : Server) (ip : Str) : Bool := s.main.holds s.conns ip

/-- The sessions and the restart callback write the status of a device only
while the pool has its connection. -/
def HeldOk (s : Server) : Act → Bool
  | .thread i _ => (s.threads[i]?).all fun t => !t.pc.writesStatus || s.held t.ip
  | .restartReply ses => (s.findSession ses).all fun t => s.held t.ip
  | _ => true

/-- A device that is not `OFFLINE` has a connection, or will have one. -/
def HeldInv (s : Server) : Prop := ∀ ip, s.devices.getStatus ip ≠ .offline → s.held ip = true

/-- Some device is not `OFFLINE` and has no connection. -/
def Exposed (s : Server) : Prop := ∃ ip, s.devices.getStatus ip ≠ .offline ∧ ip ∉ s.conns

theorem held_of_rest {s : Server} (h : s.main.poolAtRest = true) (ip : Str) : s.held ip = decide (ip ∈ s.conns) := by
  unfold held MainPc.holds
  unfold MainPc.poolAtRest at h
  split at h <;> simp_all

/-! ### Steps of the sessions -/

section Session

variable {s s₁ : Server} {t : Thread} {pc pc' : Pc} {inp : Input} {b : Bool}

/-- A session step that is not at one of these places writes no status. -/
theorem SessionCase.devices_eq (h : SessionCase s t pc inp pc' b s₁) (hpc : pc.writesStatus = false) :
    s₁.devices = s.devices := by
  cases h
  case begin | mark | readEnd | readEndTimedOut | lateTimeout | close => cases hpc
  all_goals rfl

/-- What a session writes is not `OFFLINE`. -/
theorem SessionCase.online (h : SessionCase s t pc inp pc' b s₁) (hpc : pc.writesStatus = true) :
    s₁.devices.getStatus t.ip ≠ .offline := by
  have hkind : t.kind.busy ≠ .offline ∧ t.kind.busyEnd ≠ .offline := by
    rcases t.kind with ⟨k, url⟩ | _ <;> simp [Kind.busy, Kind.busyEnd]
  cases h
  case begin | mark | readEnd | readEndTimedOut | lateTimeout | close => simp [hkind]
  case letOn hpcs => rcases hpcs with rfl | rfl <;> simp [Pc.writesStatus] at hpc
  case hold hpcs => rcases hpcs with rfl | rfl <;> simp [Pc.writesStatus] at hpc
  all_goals simp [Pc.writesStatus] at hpc

theorem HeldInv.thread {i : ℕ} {l : List Thread} (h : HeldInv s) (ht : s.threads[i]? = some t)
    (hc : SessionCase s t t.pc inp pc b s₁) (ha : s.HeldOk (.thread i inp) = true) :
    HeldInv { s₁ with threads := l } := by
  intro ip hip
  obtain ⟨hconns, hmain⟩ := hc.pool_eq
  show s₁.main.holds s₁.conns ip = true
  rw [hconns, hmain]
  simp only [HeldOk, ht, Option.all_some, Bool.or_eq_true, Bool.not_eq_true'] at ha
  by_cases hself : ip = t.ip
  · rcases ha with hpc | hheld
    · apply h ip
      rwa [hc.devices_eq hpc] at hip
    · rw [hself]
      exact hheld
  · apply h ip
    rwa [hc.getStatus_ne hself] at hip

end Session

/-! ### Steps of the server -/

section Step

variable {s s' : Server} {a : Act}

/-- The main thread sets `ip₀` to a status; the others stay held. -/
theorem HeldInv.of_setStatus (h : HeldInv s) {ip₀ : Str} {status : DeviceStatus}
    (hdev : s'.devices = s.devices.setStatus ip₀ status) (hself : status ≠ .offline → s'.held ip₀ = true)
    (hne : ∀ ip, ip ≠ ip₀ → s.held ip = true → s'.held ip = true) : HeldInv s' := by
  intro ip hip
  rw [hdev, DeviceMgr.getStatus_setStatus] at hip
  split at hip
  · subst_vars
    exact hself hip
  · exact hne ip ‹_› (h ip hip)

/-- The statuses stay; what is held stays held. -/
theorem HeldInv.of_devices_eq (h : HeldInv s) (hdev : s'.devices = s.devices)
    (hheld : ∀ ip, s.held ip = true → s'.held ip = true) : HeldInv s' := fun ip hip =>
  hheld ip (h ip (by rwa [hdev] at hip))

theorem heldInv_step (h : HeldInv s) (ha : s.HeldOk a = true) (hs : s.step a = some s') : HeldInv s' := by
  cases (step_cases hs).2
  case thread i inp t pc b s₁ ht hc => exact h.thread ht hc ha
  case stopErase ip again hm =>
    refine h.of_devices_eq rfl fun ip' hold => ?_
    rw [held, hm] at hold
    show (if again then MainPc.startIdle ip else .idle).holds (s.conns.erase ip) ip' = true
    simp only [MainPc.holds] at hold
    by_cases hself : ip' = ip
    · rw [if_pos hself] at hold
      simp [hold, hself, MainPc.holds]
    · rw [if_neg hself, decide_eq_true_eq] at hold
      have hmem : ip' ∈ s.conns.erase ip := (List.mem_erase_of_ne hself).mpr hold
      by_cases hagain : again <;> simp [hagain, hmem, MainPc.holds]
  case startIdle ip hm =>
    refine h.of_setStatus rfl (fun _ => ?_) fun ip' _ hold => ?_
    · show (MainPc.startInsert ip).holds s.conns ip = true
      simp [MainPc.holds]
    · rw [held, hm] at hold
      exact hold
  case startInsert ip hm =>
    refine h.of_devices_eq rfl fun ip' hold => ?_
    rw [held, hm] at hold
    simpa [MainPc.holds, held] using hold
  case acceptAgain ip hm hip =>
    refine h.of_setStatus rfl (fun hne => absurd rfl hne) fun ip' hne hold => ?_
    rw [held, hm] at hold
    show (MainPc.stopErase ip true).holds s.conns ip' = true
    rwa [MainPc.holds, if_neg hne]
  case acceptNew ip hm hip =>
    refine h.of_devices_eq rfl fun ip' hold => ?_
    rw [held, hm] at hold
    show (MainPc.startIdle ip).holds s.conns ip' = true
    simp only [MainPc.holds] at hold ⊢
    rw [hold, Bool.or_true]
  case disconnect ip hm hip =>
    refine h.of_setStatus rfl (fun hne => absurd rfl hne) fun ip' hne hold => ?_
    rw [held, hm] at hold
    show (MainPc.stopErase ip false).holds s.conns ip' = true
    rwa [MainPc.holds, if_neg hne]
  case restartReply ses t hm hses ht =>
    simp only [HeldOk, ht, Option.all_some, held, hm] at ha
    refine h.of_setStatus rfl (fun _ => ha) fun ip' _ hold => ?_
    rw [held, hm] at hold
    exact hold
  case voteRefuse => exact h
  -- a handler that is not the pool's begins or goes on, or the worker moves
  case restart hm _ | returned hm _ | resetDone hm | reset hm | resetTask hm =>
    refine h.of_devices_eq rfl fun ip' hold => ?_
    rw [held, hm] at hold
    exact hold
  all_goals exact h.of_devices_eq rfl fun _ hold => hold

end Step

theorem getStatus_boot (rows : List (Str × AccountPro)) (ips : List Str) (ip : Str) :
    (boot rows ips).devices.getStatus ip = .offline := by
  have hfold : ∀ (ips : List Str) (d : DeviceMgr), d.getStatus ip = .offline →
      (ips.foldl (fun d ip => d.insert ip .offline) d).getStatus ip = .offline := by
    intro ips
    induction ips with
    | nil => exact fun d hd => hd
    | cons ip₀ ips ih =>
      intro d hd
      apply ih
      unfold DeviceMgr.getStatus at hd ⊢
      by_cases hip : ip = ip₀
      · rw [hip, AList.lookup_insert]
        rfl
      · rwa [AList.lookup_insert_ne hip]
  exact hfold ips ∅ rfl

/-- **Connected.** In every run in which the sessions and the restart callback
write the status of a device only while the pool has its connection, whenever
no operation of the pool is half done a device that is not `OFFLINE` has a
connection. -/
theorem online_connected {rows : List (Str × AccountPro)} {ips : List Str} {s : Server}
    (hr : Trans.Reach step (fun s a => s.HeldOk a = true) (boot rows ips) s) (hm : s.main.poolAtRest = true) :
    ∀ ip, s.devices.getStatus ip ≠ .offline → ip ∈ s.conns := by
  have hI : HeldInv s := hr.invariant (I := HeldInv) (fun ip hip => absurd (getStatus_boot rows ips ip) hip)
    fun _ _ _ h ha hs => heldInv_step h ha hs
  intro ip hip
  have hheld := hI ip hip
  rwa [held_of_rest hm, decide_eq_true_eq] at hheld

/-- **Exactly then.** Between operations of the pool, a step that writes the
status of a device without a connection leaves it exposed. -/
theorem exposed_of_unheld {s s' : Server} {a : Act} (hm : s.main.poolAtRest = true) (ha : s.HeldOk a = false)
    (hs : s.step a = some s') : s'.main.poolAtRest = true ∧ s'.Exposed := by
  cases (step_cases hs).2
  case thread i inp t pc b s₁ ht hc =>
    simp only [HeldOk, ht, Option.all_some, Bool.or_eq_false_iff, Bool.not_eq_false', held_of_rest hm,
      decide_eq_false_iff_not] at ha
    obtain ⟨hconns, hmain⟩ := hc.pool_eq
    refine ⟨?_, t.ip, hc.online ha.1, ?_⟩
    · show s₁.main.poolAtRest = true
      rwa [hmain]
    · show t.ip ∉ s₁.conns
      rw [hconns]
      exact ha.2
  case restartReply ses t hmain hses ht =>
    simp only [HeldOk, ht, Option.all_some, held_of_rest hm, decide_eq_false_iff_not] at ha
    refine ⟨rfl, t.ip, ?_, ha⟩
    show (s.devices.setStatus t.ip .onlineIdle).getStatus t.ip ≠ .offline
    simp
  all_goals cases ha

/-! ### A phone that leaves while its session begins -/

/-- Phone p connects, a daily task starts its session, and the session finds
the connection. -/
def begun : List Act := connects [Str.of "p"] ++ [.dailyTask] ++ moves 0 [.go]

def beginsHeld : Server :=
  (Trans.run (Trans.guarded step fun s a => s.HeldOk a = true) (boot [(Str.of "a", default)] [])
    (begun ++ moves 0 [.go])).get (by decide)

def beginsUnheld : Server :=
  (Trans.run step (boot [(Str.of "a", default)] [])
    (begun ++ [.disconnect (Str.of "p"), .main] ++ moves 0 [.go])).get (by decide)

theorem online_connected_begins : Str.of "p" ∈ beginsHeld.conns :=
  online_connected (Trans.Reach.of_guarded (Option.some_get _).symm) rfl (Str.of "p") (by decide)

/-- The phone disconnects before the session marks it `TASK_BEGIN`. -/
theorem online_without_connection :
    ¬ ∀ (rows : List (Str × AccountPro)) (ips : List Str) (s : Server),
      Trans.Reach step (fun _ _ => True) (boot rows ips) s → s.main.poolAtRest = true →
        ∀ ip, s.devices.getStatus ip ≠ .offline → ip ∈ s.conns := fun h =>
  absurd (h _ [] beginsUnheld (Trans.Reach.of_run (Option.some_get _).symm) rfl (Str.of "p") (by decide)) (by decide)

end Server
end ScheduleCenter
