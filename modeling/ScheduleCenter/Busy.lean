/-
# Who drives a device

`a_session::start` marks its device `TASK_BEGIN` when it begins and
`ONLINE_IDLE` when it returns, and a task starts sessions for the devices that
are `ONLINE_IDLE`. But a task reads the status before the new thread marks the
device, and the pool and the restart callback mark it `ONLINE_IDLE` without
asking who drives it; so two sessions can be inside `start` for one ip
(`driven_twice`).

Where each `TASK_BEGIN` finds the device `ONLINE_IDLE`, and neither the pool nor
a restart callback marks a device `ONLINE_IDLE` that is being driven, a device
that is being driven is never `ONLINE_IDLE` and nobody else comes in
(`driven_once`).

Key definitions: `Pc.isInside`, `Server.Driving`, `Server.OneDriver`, `Server.IdleOk`.
Key theorems: `Server.drivenInv_thread`, `Server.drivenInv_step`, `Server.driven_once`,
`Server.driven_twice`.
-/
import ScheduleCenter.VoteTask

namespace ScheduleCenter

/-- Inside `start`, past `set_status(TASK_BEGIN)`. -/
def Pc.isInside : Pc → Bool
  | .init | .begin | .done => false
  | _ => true

namespace Server

/-- Thread `i`, of session `ses`, is inside `start` for `ip`. -/
def Driving (s : Server) (i ses : ℕ) (ip : Str) : Prop :=
  ∃ t, s.threads[i]? = some t ∧ t.ses = ses ∧ t.ip = ip ∧ t.pc.isInside = true

/-- For no ip are two sessions, or two threads of one, inside `start`. -/
def OneDriver (s : Server) : Prop :=
  ∀ i j ses ses' ip, s.Driving i ses ip → s.Driving j ses' ip → i = j ∧ ses = ses'

/-- Nobody is inside `start` for `ip`. -/
def isFree (s : Server) (ip : Str) : Bool := s.threads.all fun t => !(decide (t.ip = ip) && t.pc.isInside)

/-- `TASK_BEGIN` finds the device `ONLINE_IDLE`; the pool and the restart
callback mark a device `ONLINE_IDLE` that nobody drives. -/
def IdleOk (s : Server) : Act → Bool
  | .thread i _ => (s.threads[i]?).all fun t => t.pc ≠ .begin || s.devices.getStatus t.ip = .onlineIdle
  | .main =>
    match s.main with
    | .startIdle ip => s.isFree ip
    | _ => true
  | .restartReply ses => (s.findSession ses).all fun t => s.isFree t.ip
  | _ => true

/-! ### The invariant -/

structure DrivenInv (s : Server) : Prop where
  busy : ∀ i ses ip, s.Driving i ses ip → s.devices.getStatus ip ≠ .onlineIdle
  one : ∀ i j ses ses' ip, s.Driving i ses ip → s.Driving j ses' ip → i = j

theorem not_driving_of_isFree {s : Server} {ip : Str} (h : s.isFree ip = true) (i ses : ℕ) :
    ¬ s.Driving i ses ip := by
  rintro ⟨t, ht, -, hip, hin⟩
  have hfree := List.all_eq_true.mp h t (List.mem_of_getElem? ht)
  simp [hip, hin] at hfree

section Step

variable {s s' s₁ : Server} {i j ses : ℕ} {ip : Str} {inp : Input} {t : Thread} {pc : Pc} {b : Bool}

/-- The moving thread comes in by `TASK_BEGIN`. -/
theorem SessionCase.inside (hc : SessionCase s t t.pc inp pc b s₁) (h : pc.isInside = true) :
    t.pc = .begin ∨ t.pc.isInside = true := by
  generalize t.pc = pc₀ at hc
  cases hc
  case letOn hpcs => rcases hpcs with rfl | rfl <;> exact Or.inr rfl
  case hold hpcs => rcases hpcs with rfl | rfl <;> exact Or.inr rfl
  case begin => exact Or.inl rfl
  all_goals first | exact Or.inr rfl | cases h

/-- What it does to the status of its device. -/
theorem SessionCase.status (hc : SessionCase s t t.pc inp pc b s₁) :
    s₁.devices.getStatus t.ip ≠ .onlineIdle ∨ s₁.devices = s.devices ∨
      t.pc.isInside = true ∧ pc.isInside = false := by
  have hbusy : t.kind.busy ≠ .onlineIdle ∧ t.kind.busyEnd ≠ .onlineIdle := by
    cases t.kind <;> simp [Kind.busy, Kind.busyEnd]
  generalize hpc : t.pc = pc₀ at hc
  cases hc
  case close => exact Or.inr (Or.inr ⟨rfl, rfl⟩)
  case begin => exact Or.inl (by simp)
  case mark => exact Or.inl (by simp [hbusy.1])
  case readEnd => exact Or.inl (by simp [hbusy.2])
  case readEndTimedOut => exact Or.inl (by simp [hbusy.2])
  case lateTimeout => exact Or.inl (by simp [hbusy.2])
  all_goals exact Or.inr (Or.inl rfl)

/-- Who drives a device after the step of thread `i`. -/
theorem driving_set
    (hd : Driving { s₁ with threads := s.threads.set i { t with pc := pc, sock := b } } j ses ip) :
    j = i ∧ ip = t.ip ∧ pc.isInside = true ∨ j ≠ i ∧ s.Driving j ses ip := by
  obtain ⟨u, hu, hses, hip, hin⟩ := hd
  rcases Counting.getElem?_set_cases hu with ⟨hji, rfl⟩ | ⟨hji, hu⟩
  · exact Or.inl ⟨hji, hip.symm, hin⟩
  · exact Or.inr ⟨hji, u, hu, hses, hip, hin⟩

/-- If somebody else drives its device, the moving thread is not inside, and
does not come in. -/
theorem DrivenInv.outside (h : DrivenInv s) (ht : s.threads[i]? = some t) (hc : SessionCase s t t.pc inp pc b s₁)
    (ha : s.IdleOk (.thread i inp) = true) (hji : j ≠ i) (hd : s.Driving j ses t.ip) :
    t.pc.isInside = false ∧ pc.isInside = false := by
  have hnot : t.pc.isInside = false := by
    by_contra hin
    exact hji (h.one j i ses t.ses t.ip hd ⟨t, ht, rfl, rfl, by simpa using hin⟩)
  refine ⟨hnot, ?_⟩
  by_contra hin
  rcases hc.inside (by simpa using hin) with hb | hin₀
  · simp only [IdleOk, ht, Option.all_some, hb, ne_eq, not_true, decide_false, Bool.false_or, decide_eq_true_eq] at ha
    exact h.busy j ses t.ip hd ha
  · rw [hnot] at hin₀
    cases hin₀

/-- The moving thread's own device is not `ONLINE_IDLE` while it is inside. -/
theorem DrivenInv.busy_self (h : DrivenInv s) (ht : s.threads[i]? = some t) (hc : SessionCase s t t.pc inp pc b s₁)
    (hin : pc.isInside = true) : s₁.devices.getStatus t.ip ≠ .onlineIdle := by
  rcases hc.status with hst | hdev | ⟨-, hout⟩
  · exact hst
  · rcases hc.inside hin with hb | hin₀
    · rw [hb] at hc
      cases hc
      case begin => simp
      all_goals simp at *
    · rw [hdev]
      exact h.busy i t.ses t.ip ⟨t, ht, rfl, rfl, hin₀⟩
  · rw [hin] at hout
    cases hout

/-- A device somebody else drives stays as it is, or is not `ONLINE_IDLE`. -/
theorem DrivenInv.busy_other (h : DrivenInv s) (ht : s.threads[i]? = some t) (hc : SessionCase s t t.pc inp pc b s₁)
    (ha : s.IdleOk (.thread i inp) = true) (hji : j ≠ i) (hd : s.Driving j ses ip) :
    s₁.devices.getStatus ip ≠ .onlineIdle := by
  by_cases hip : ip = t.ip
  · subst hip
    rcases hc.status with hst | hdev | ⟨hin₀, -⟩
    · exact hst
    · rw [hdev]
      exact h.busy j ses t.ip hd
    · rw [(h.outside ht hc ha hji hd).1] at hin₀
      cases hin₀
  · rw [hc.getStatus_ne hip]
    exact h.busy j ses ip hd

theorem drivenInv_thread (h : DrivenInv s) (ht : s.threads[i]? = some t) (hc : SessionCase s t t.pc inp pc b s₁)
    (ha : s.IdleOk (.thread i inp) = true) :
    DrivenInv { s₁ with threads := s.threads.set i { t with pc := pc, sock := b } } := by
  refine ⟨fun j ses ip hd => ?_, fun j j' ses ses' ip hd hd' => ?_⟩
  · show s₁.devices.getStatus ip ≠ .onlineIdle
    rcases driving_set hd with ⟨-, rfl, hin⟩ | ⟨hji, hd⟩
    · exact h.busy_self ht hc hin
    · exact h.busy_other ht hc ha hji hd
  · rcases driving_set hd with ⟨hj, rfl, hin⟩ | ⟨hji, hd⟩ <;>
      rcases driving_set hd' with ⟨hj', hip, hin'⟩ | ⟨hji', hd'⟩
    · rw [hj, hj']
    · exact absurd hin (by simp [(h.outside ht hc ha hji' hd').2])
    · subst hip
      exact absurd hin' (by simp [(h.outside ht hc ha hji hd).2])
    · exact h.one j j' ses ses' ip hd hd'

/-- A step of another thread than a session: nobody comes in, and a device
becomes `ONLINE_IDLE` only if nobody drives it. -/
theorem DrivenInv.of_main (h : DrivenInv s) {l : List Thread} (hl : ∀ u ∈ l, u.pc = .init)
    (hs : s'.threads = s.threads ++ l)
    (hst : ∀ ip, s'.devices.getStatus ip = .onlineIdle → s.devices.getStatus ip = .onlineIdle ∨ s.isFree ip = true) :
    DrivenInv s' := by
  have hold : ∀ j ses ip, s'.Driving j ses ip → s.Driving j ses ip := by
    rintro j ses ip ⟨u, hu, hses, hip, hin⟩
    rw [hs] at hu
    by_cases hj : j < s.threads.length
    · rw [List.getElem?_append_left hj] at hu
      exact ⟨u, hu, hses, hip, hin⟩
    · rw [List.getElem?_append_right (by omega)] at hu
      rw [hl u (List.mem_of_getElem? hu)] at hin
      cases hin
  refine ⟨fun j ses ip hd hidle => ?_,
    fun j j' ses ses' ip hd hd' => h.one j j' ses ses' ip (hold _ _ _ hd) (hold _ _ _ hd')⟩
  rcases hst ip hidle with hidle | hfree
  · exact h.busy j ses ip (hold _ _ _ hd) hidle
  · exact not_driving_of_isFree hfree j ses (hold _ _ _ hd)

end Step

theorem drivenInv_step {s s' : Server} {a : Act} (h : DrivenInv s) (ha : s.IdleOk a = true)
    (hs : s.step a = some s') : DrivenInv s' := by
  have hoffline : ∀ ip ip', (s.devices.setStatus ip .offline).getStatus ip' = .onlineIdle →
      s.devices.getStatus ip' = .onlineIdle ∨ s.isFree ip' = true := by
    intro ip ip' hidle
    rw [DeviceMgr.getStatus_setStatus] at hidle
    split at hidle
    · cases hidle
    · exact Or.inl hidle
  have hfree : ∀ ip ip', s.isFree ip = true → (s.devices.setStatus ip .onlineIdle).getStatus ip' = .onlineIdle →
      s.devices.getStatus ip' = .onlineIdle ∨ s.isFree ip' = true := by
    intro ip ip' hf hidle
    rw [DeviceMgr.getStatus_setStatus] at hidle
    split at hidle
    · exact Or.inr (by subst_vars; exact hf)
    · exact Or.inl hidle
  cases (step_cases hs).2
  case thread ht hc => exact drivenInv_thread h ht hc ha
  case startIdle ip hm =>
    simp only [IdleOk, hm] at ha
    exact h.of_main (l := []) (by simp) (by simp) fun ip' hidle => hfree ip ip' ha hidle
  case restartReply ses t hm hses ht =>
    simp only [IdleOk, ht, Option.all_some] at ha
    exact h.of_main (l := []) (by simp) (by simp) fun ip' hidle => hfree t.ip ip' ha hidle
  case acceptAgain ip hm hip => exact h.of_main (l := []) (by simp) (by simp) fun ip' => hoffline ip ip'
  case disconnect ip hm hip => exact h.of_main (l := []) (by simp) (by simp) fun ip' => hoffline ip ip'
  case restart ses t hm ht => exact h.of_main (by simp) rfl fun _ => Or.inl
  case dailyTask hm => exact h.of_main (fun u hu => init_of_mem_mapIdx hu) rfl fun _ => Or.inl
  case voteSpawn target url hw => exact h.of_main (fun u hu => init_of_mem_mapIdx hu) rfl fun _ => Or.inl
  all_goals exact h.of_main (l := []) (by simp) (by simp) fun _ => Or.inl

/-- **One driver.** In every run in which each `TASK_BEGIN` finds its device
`ONLINE_IDLE` and the pool and the restart callback mark only devices
`ONLINE_IDLE` that nobody drives, no two sessions are inside `start` for one ip. -/
theorem driven_once {rows : List (Str × AccountPro)} {ips : List Str} {s : Server}
    (hr : Trans.Reach step (fun s a => s.IdleOk a = true) (boot rows ips) s) : OneDriver s := by
  have hI : DrivenInv s := hr.invariant (I := DrivenInv)
    ⟨fun i ses ip ⟨t, ht, _⟩ => by simp [boot] at ht, fun i j ses ses' ip ⟨t, ht, _⟩ => by simp [boot] at ht⟩
    fun _ _ _ h ha hs => drivenInv_step h ha hs
  intro i j ses ses' ip hi hj
  obtain rfl := hI.one i j ses ses' ip hi hj
  obtain ⟨t, ht, rfl, -⟩ := hi
  obtain ⟨u, hu, rfl, -⟩ := hj
  rw [ht] at hu
  obtain rfl := Option.some.inj hu
  exact ⟨rfl, rfl⟩

/-! ### One phone, two daily tasks -/

/-- One phone, one account. -/
def phoneUp : Server := (Trans.run step (boot [(Str.of "a", default)] []) (connects [Str.of "p"])).get (by decide)

/-- Two daily tasks start while the phone is idle; then both sessions begin. -/
def dailyTwice : Server :=
  (Trans.run step phoneUp ([.dailyTask, .dailyTask] ++ moves 0 [.go, .go] ++ moves 1 [.go, .go])).get (by decide)

/-- A daily task, whose session gets no connection; the phone connects again, and
the session of the next daily task begins. -/
def dailyInTurn : Server :=
  (Trans.run (Trans.guarded step fun s a => s.IdleOk a = true) (boot [(Str.of "a", default)] [])
    (connects [Str.of "p"] ++ [.dailyTask] ++ moves 0 [.go, .go, .go, .err, .expired, .go] ++
      [.accept (Str.of "p"), .main, .main, .main, .dailyTask] ++ moves 1 [.go, .go])).get (by decide +kernel)

theorem driven_once_inTurn : dailyInTurn.Driving 1 1 (Str.of "p") ∧ OneDriver dailyInTurn :=
  ⟨⟨⟨1, Str.of "p", .daily, false, .bind⟩, by decide +kernel, rfl, rfl, rfl⟩,
    driven_once (Trans.Reach.of_guarded (Option.some_get _).symm)⟩

/-- Without the condition two sessions drive one phone. -/
theorem driven_twice :
    ¬ ∀ (rows : List (Str × AccountPro)) (ips : List Str) (s : Server) (i j ses ses' : ℕ) (ip : Str),
      Trans.Reach step (fun _ _ => True) (boot rows ips) s → s.Driving i ses ip → s.Driving j ses' ip → ses = ses' :=
  fun h =>
    have h₁ : Trans.run step (boot [(Str.of "a", default)] []) (connects [Str.of "p"]) = some phoneUp :=
      (Option.some_get _).symm
    have h₂ : Trans.run step phoneUp ([.dailyTask, .dailyTask] ++ moves 0 [.go, .go] ++ moves 1 [.go, .go]) =
        some dailyTwice := (Option.some_get _).symm
    absurd (h _ [] dailyTwice 0 1 0 1 (Str.of "p") ((Trans.Reach.of_run h₁).trans (Trans.Reach.of_run h₂))
      ⟨⟨0, Str.of "p", .daily, false, .bind⟩, by decide, rfl, rfl, rfl⟩
      ⟨⟨1, Str.of "p", .daily, false, .bind⟩, by decide, rfl, rfl, rfl⟩) (by decide)

end Server
end ScheduleCenter
