/-
# The daily task: `keep_wx_account_task`

The server's clock is at UTC+8 and `deadline_timer` reads times as UTC, so
`start` writes the coming local midnight as `hours(0 - 8)` of the next local day.
`reset_task` draws a first hour and sets a timer for each hour from there to 23,
these as UTC hours of the local day: hour `i` is eight hours later in local
time. The times rise, the first is in 8:00-20:00 and every following hour
up to 23:00 has one (`taskTimes_rising`, `taskTimes_first`, `taskTimes_hourly`); but the
loop goes on, and its last eight times are past the next midnight
(`taskTimes_late`), for every day and every output of the generator
(`not_insideDay`).

A timer fires once. `reset_task` sets no timer for itself, so a reset is ahead
until it has returned and never again (`armed_iff`, `reset_once`).

Key definitions: `DailyTask.taskTimes`, `DailyTask.InsideDay`, `DailyTask.step`, `DailyTask.Armed`.
Key theorems: `not_insideDay`, `taskTimes_late`, `armed_iff`, `reset_once`.
-/
import Mathlib.Data.List.Sort
import Mathlib.Data.UInt
import ScheduleCenter.Base.Trans

namespace ScheduleCenter
namespace DailyTask

/-! ### Times

In seconds since 1970 (UTC); days since 1970. -/

def hours (n : ℤ) : ℤ := n * 3600
def minutes (n : ℤ) : ℤ := n * 60
def seconds (n : ℤ) : ℤ := n

/-- `ptime(day, duration)`, as `deadline_timer` reads it. -/
def ptime (day duration : ℤ) : ℤ := day * 86400 + duration

/-- `day_clock::local_day()` at UTC+8. -/
def localDay (now : ℤ) : ℤ := (now + hours 8) / 86400

/-- `ptime(day, hours(0 - 8))`: the midnight the local day begins with. -/
def localMidnight (day : ℤ) : ℤ := ptime day (hours (0 - 8))

/-- The full hour of a local day. -/
def localHour (day h : ℤ) : ℤ := localMidnight day + hours h

/-! ### The times of one day -/

/-- `rng() % 12 + 8 - 8`. -/
def firstHour (out : UInt32) : ℕ := (out % 12 + 8 - 8).toNat

/-- The time of the pass `i` of the loop. Which of the two outputs it draws
first is up to the compiler. -/
def taskTime (day : ℤ) (i : ℕ) (out₁ out₂ : UInt32) : ℤ :=
  ptime day (hours i + minutes (out₁ % 60).toNat + seconds (out₂ % 60).toNat)

/-- The same from all outputs of the generator: the first one is for the hour,
each pass takes two. -/
def passTime (day : ℤ) (rng : ℕ → UInt32) (i : ℕ) : ℤ :=
  taskTime day i (rng (2 * (i - firstHour (rng 0)) + 1)) (rng (2 * (i - firstHour (rng 0)) + 2))

/-- The times `reset_task` sets timers for. -/
def taskTimes (day : ℤ) (rng : ℕ → UInt32) : List ℤ :=
  (List.range' (firstHour (rng 0)) (24 - firstHour (rng 0))).map (passTime day rng)

/-- The tasks of a local day stay inside it: the times rise, the first is in
8:00-20:00, every following hour up to 23:00 has one, and none is at the next
midnight or later. -/
structure InsideDay (day : ℤ) (ts : List ℤ) : Prop where
  rising : ts.Pairwise (· < ·)
  first : ∃ t ∈ ts.head?, localHour day 8 ≤ t ∧ t < localHour day 20
  hourly : ∀ t ∈ ts.head?, ∀ h ≤ 23, t < localHour day h →
    ∃! t', t' ∈ ts ∧ localHour day h ≤ t' ∧ t' < localHour day (h + 1)
  before : ∀ t ∈ ts, t < localMidnight (day + 1)

theorem toNat_mod_lt (out : UInt32) {m : UInt32} (hm : 0 < m.toNat) : (out % m).toNat < m.toNat := by
  rw [UInt32.toNat_mod]
  exact Nat.mod_lt _ hm

theorem firstHour_lt (out : UInt32) : firstHour out < 12 := by
  have h : (out % 12).toNat < 12 := toNat_mod_lt out (by decide)
  have hsum : out % 12 + 8 - 8 = out % 12 := UInt32.add_sub_cancel _ _
  rw [firstHour, hsum]
  exact h

/-- The pass `i` is in the local hour `i + 8`. -/
theorem taskTime_mem (day : ℤ) (i : ℕ) (out₁ out₂ : UInt32) :
    localHour day (i + 8) ≤ taskTime day i out₁ out₂ ∧ taskTime day i out₁ out₂ < localHour day (i + 9) := by
  have h₁ : (out₁ % 60).toNat < 60 := toNat_mod_lt out₁ (by decide)
  have h₂ : (out₂ % 60).toNat < 60 := toNat_mod_lt out₂ (by decide)
  simp only [localHour, localMidnight, taskTime, ptime, hours, minutes, seconds]
  omega

section Times

variable (day : ℤ) (rng : ℕ → UInt32)

theorem passTime_mem (i : ℕ) :
    localHour day (i + 8) ≤ passTime day rng i ∧ passTime day rng i < localHour day (i + 9) :=
  taskTime_mem day i _ _

/-- The time of a pass tells its hour. -/
theorem passTime_hour {i : ℕ} {h : ℤ} (h₁ : localHour day h ≤ passTime day rng i)
    (h₂ : passTime day rng i < localHour day (h + 1)) : h = i + 8 := by
  have hi := passTime_mem day rng i
  simp only [localHour, hours] at h₁ h₂ hi
  omega

theorem mem_taskTimes {t : ℤ} :
    t ∈ taskTimes day rng ↔ ∃ i, firstHour (rng 0) ≤ i ∧ i < 24 ∧ passTime day rng i = t := by
  have hlt := firstHour_lt (rng 0)
  rw [taskTimes, List.mem_map]
  apply exists_congr
  intro i
  rw [List.mem_range'_1, ← and_assoc]
  apply and_congr_left'
  omega

theorem taskTimes_head : (taskTimes day rng).head? = some (passTime day rng (firstHour (rng 0))) := by
  have hlt := firstHour_lt (rng 0)
  obtain ⟨n, hn⟩ : ∃ n, 24 - firstHour (rng 0) = n + 1 := ⟨23 - firstHour (rng 0), by omega⟩
  rw [taskTimes, hn, List.range'_succ]
  rfl

theorem taskTimes_rising : (taskTimes day rng).Pairwise (· < ·) := by
  rw [taskTimes, List.pairwise_map]
  apply List.Pairwise.imp _ List.pairwise_lt_range'
  intro i j hij
  have hi := (passTime_mem day rng i).2
  have hj := (passTime_mem day rng j).1
  simp only [localHour, hours] at hi hj
  omega

theorem taskTimes_first : ∃ t ∈ (taskTimes day rng).head?, localHour day 8 ≤ t ∧ t < localHour day 20 := by
  have hlt := firstHour_lt (rng 0)
  have hmem := passTime_mem day rng (firstHour (rng 0))
  refine ⟨_, taskTimes_head day rng, ?_⟩
  simp only [localHour, hours] at hmem ⊢
  omega

theorem taskTimes_hourly : ∀ t ∈ (taskTimes day rng).head?, ∀ h ≤ 23, t < localHour day h →
    ∃! t', t' ∈ taskTimes day rng ∧ localHour day h ≤ t' ∧ t' < localHour day (h + 1) := by
  intro t ht h hle hlt
  rw [taskTimes_head] at ht
  cases ht
  have hfirst := (passTime_mem day rng (firstHour (rng 0))).1
  simp only [localHour, hours] at hfirst hlt
  obtain ⟨i, rfl⟩ : ∃ i : ℕ, h = i + 8 := ⟨(h - 8).toNat, by omega⟩
  obtain ⟨hi₁, hi₂⟩ := passTime_mem day rng i
  have hnext : (i : ℤ) + 8 + 1 = i + 9 := by omega
  refine ⟨passTime day rng i, ⟨(mem_taskTimes day rng).mpr ⟨i, by omega, by omega, rfl⟩, hi₁, by rwa [hnext]⟩, ?_⟩
  rintro t' ⟨ht', h₁, h₂⟩
  obtain ⟨j, -, -, rfl⟩ := (mem_taskTimes day rng).mp ht'
  have hj := passTime_hour day rng h₁ h₂
  rw [show i = j by omega]

/-- From the pass 16 on it is the next local day. -/
theorem midnight_le_passTime_iff (i : ℕ) : localMidnight (day + 1) ≤ passTime day rng i ↔ 16 ≤ i := by
  have hi := passTime_mem day rng i
  simp only [localHour, localMidnight, ptime, hours] at hi ⊢
  omega

/-- Eight of the times are at the next local midnight or later. -/
theorem taskTimes_late : (taskTimes day rng).countP (localMidnight (day + 1) ≤ ·) = 8 := by
  have hlt := firstHour_lt (rng 0)
  have hsplit : List.range' (firstHour (rng 0)) (24 - firstHour (rng 0)) =
      List.range' (firstHour (rng 0)) (16 - firstHour (rng 0)) ++ List.range' 16 8 := by
    have happend := List.range'_append_1 (s := firstHour (rng 0)) (m := 16 - firstHour (rng 0)) (n := 8)
    rw [show firstHour (rng 0) + (16 - firstHour (rng 0)) = 16 by omega] at happend
    rw [happend, show 16 - firstHour (rng 0) + 8 = 24 - firstHour (rng 0) by omega]
  have hcount : (taskTimes day rng).countP (localMidnight (day + 1) ≤ ·) =
      (List.range' (firstHour (rng 0)) (24 - firstHour (rng 0))).countP (16 ≤ ·) := by
    rw [taskTimes, List.countP_map]
    apply List.countP_congr
    intro i _
    simp [midnight_le_passTime_iff]
  have hbefore : (List.range' (firstHour (rng 0)) (16 - firstHour (rng 0))).countP (16 ≤ ·) = 0 := by
    refine List.countP_eq_zero.mpr fun i hi => ?_
    have := (List.mem_range'_1.mp hi).2
    simp only [decide_eq_true_eq]
    omega
  rw [hcount, hsplit, List.countP_append, hbefore]
  rfl

/-- **On no day and for no outputs do the tasks stay inside the day.** -/
theorem not_insideDay : ¬ InsideDay day (taskTimes day rng) := by
  intro h
  have hlt := firstHour_lt (rng 0)
  have hmem : passTime day rng 16 ∈ taskTimes day rng :=
    (mem_taskTimes day rng).mpr ⟨16, by omega, by omega, rfl⟩
  have hlate := (midnight_le_passTime_iff day rng 16).mpr (Nat.le_refl 16)
  exact absurd (h.before _ hmem) (not_lt.mpr hlate)

end Times

/-- On 2016-08-01 with a generator that puts out zeros the last task is at
07:00 local time of the next day. -/
theorem late_on_zeros : ¬ ∀ (day : ℤ) (rng : ℕ → UInt32), InsideDay day (taskTimes day rng) := by
  intro h
  have hlate : localHour (17014 + 1) 7 ∈ taskTimes 17014 fun _ => 0 := by decide
  exact absurd ((h 17014 fun _ => 0).before _ hlate) (by decide)

/-! ### Timers

`run_at` makes a timer of its own for each call; when its time has come the
handler runs, once. The handlers run on one thread, and what they throw is
caught. -/

inductive Handler
  | resetTask
  | doTask
deriving DecidableEq

/-- A pending timer. -/
structure Timer where
  time : ℤ
  handler : Handler
deriving DecidableEq

structure State where
  now : ℤ
  timers : List Timer
  /-- The handler that is being run. -/
  running : Option Handler

inductive Act
  /-- So many seconds go by. -/
  | wait (d : ℕ)
  /-- A timer that is due: its handler is called. -/
  | fire (t : Timer)
  /-- The handler returns; `rng` is what the generator put out in it. -/
  | finish (rng : ℕ → UInt32)

/-- The timers that a handler has set when it returns. No other handler is
called before. -/
def issued (now : ℤ) (rng : ℕ → UInt32) : Handler → List Timer
  | .resetTask => (taskTimes (localDay now) rng).map (⟨·, .doTask⟩)
  | .doTask => []

def step (s : State) : Act → Option State
  | .wait d => some { s with now := s.now + d }
  | .fire t =>
    if s.running = none ∧ t ∈ s.timers ∧ t.time ≤ s.now then
      some { s with timers := s.timers.erase t, running := some t.handler }
    else none
  | .finish rng =>
    match s.running with
    | none => none
    | some h => some { s with timers := s.timers ++ issued s.now rng h, running := none }

/-- After `keep_wx_account_task::start`. -/
def start (now : ℤ) : State := ⟨now, [⟨localMidnight (localDay now + 1), .resetTask⟩], none⟩

/-- A timer of `reset_task` for a local midnight. -/
def Timer.IsReset (t : Timer) : Prop := t.handler = .resetTask ∧ localMidnight (localDay t.time) = t.time

instance (t : Timer) : Decidable t.IsReset := inferInstanceAs (Decidable (_ ∧ _))

/-- A reset is ahead: its timer is pending, or `reset_task` is executing. -/
def Armed (s : State) : Prop := s.running = some .resetTask ∨ ∃ t ∈ s.timers, t.IsReset

instance (s : State) : Decidable (Armed s) := inferInstanceAs (Decidable (_ ∨ _))

/-- The step is not the return of `reset_task`. -/
def NoReturn (s : State) : Act → Prop
  | .finish _ => s.running ≠ some .resetTask
  | _ => True

/-- The pending timers of `reset_task`. -/
def pendingResets (s : State) : ℕ := s.timers.countP (·.handler = .resetTask)

/-- Calls of `reset_task`. -/
def resetCalls (_ : State) : Act → ℕ
  | .fire t => if t.handler = .resetTask then 1 else 0
  | _ => 0

theorem countP_issued (now : ℤ) (rng : ℕ → UInt32) (h : Handler) :
    (issued now rng h).countP (·.handler = .resetTask) = 0 := by
  refine List.countP_eq_zero.mpr fun t ht => ?_
  rcases h with _ | _
  · obtain ⟨time, -, rfl⟩ := List.mem_map.mp ht
    simp
  · cases ht

/-- What a step does. -/
inductive StepCase (s : State) : Act → State → Prop
  | wait (d : ℕ) : StepCase s (.wait d) { s with now := s.now + d }
  | fire (t : Timer) (hidle : s.running = none) (hmem : t ∈ s.timers) (hdue : t.time ≤ s.now) :
      StepCase s (.fire t) { s with timers := s.timers.erase t, running := some t.handler }
  | finish (rng : ℕ → UInt32) (h : Handler) (hrun : s.running = some h) :
      StepCase s (.finish rng) { s with timers := s.timers ++ issued s.now rng h, running := none }

theorem step_cases {s s' : State} {a : Act} (h : step s a = some s') : StepCase s a s' := by
  rcases a with d | t | rng
  · cases h
    exact .wait d
  · simp only [step] at h
    split at h
    · rename_i hfire
      cases h
      exact .fire t hfire.1 hfire.2.1 hfire.2.2
    · cases h
  · simp only [step] at h
    split at h
    · cases h
    · rename_i handler hrun
      cases h
      exact .finish rng handler hrun

/-- A reset is called from a timer, and no step adds one. -/
theorem pendingResets_step {s s' : State} {a : Act} (h : step s a = some s') :
    pendingResets s' + resetCalls s a = pendingResets s := by
  cases step_cases h with
  | wait d => rfl
  | fire t hidle hmem hdue =>
    have hperm := (List.perm_cons_erase hmem).countP_eq (·.handler = .resetTask)
    rw [List.countP_cons] at hperm
    simpa [pendingResets, resetCalls] using hperm.symm
  | finish rng h hrun => simp [pendingResets, resetCalls, countP_issued]

/-- In every run `reset_task` is called at most once. -/
theorem reset_once (now : ℤ) {acts : List Act} {s : State} (h : Trans.run step (start now) acts = some s) :
    Trans.total step resetCalls (start now) acts ≤ 1 := by
  have hbal := Trans.run_balance pendingResets (fun _ _ => 0) resetCalls (I := fun _ => True)
    (fun _ _ _ _ _ => trivial) (fun _ _ _ _ hs => pendingResets_step hs) trivial h
  have hstart : pendingResets (start now) = 1 := rfl
  rw [Trans.total_zero] at hbal
  omega

/-- At most one reset is ahead or under way. -/
def OneReset (s : State) : Prop := pendingResets s + (if s.running = some .resetTask then 1 else 0) ≤ 1

theorem oneReset_step {s s' : State} {a : Act} (hs : OneReset s) (h : step s a = some s') : OneReset s' := by
  have hbal := pendingResets_step h
  unfold OneReset at hs ⊢
  cases step_cases h with
  | wait d => exact hs
  | fire t hidle hmem hdue =>
    simp only [resetCalls, hidle, reduceCtorEq, if_false, Option.some.injEq] at hbal hs ⊢
    omega
  | finish rng h hrun =>
    simp only [resetCalls, reduceCtorEq, if_false] at hbal ⊢
    omega

theorem not_isReset_of_pendingResets {s : State} (h : pendingResets s = 0) : ¬ ∃ t ∈ s.timers, t.IsReset := by
  rintro ⟨t, ht, hreset⟩
  have := List.countP_eq_zero.mp h t ht
  exact this (by simpa using hreset.1)

/-- While a reset is ahead, it stays ahead but for the return of `reset_task`. -/
theorem armed_step {s s' : State} {a : Act} (hs : OneReset s) (harmed : Armed s) (h : step s a = some s') :
    Armed s' ↔ NoReturn s a := by
  cases step_cases h with
  | wait d => exact iff_of_true harmed trivial
  | fire t hidle hmem hdue =>
    refine iff_of_true ?_ trivial
    obtain ⟨u, hu, hreset⟩ := harmed.resolve_left (by simp [hidle])
    by_cases hut : u = t
    · subst hut
      exact Or.inl (congrArg some hreset.1)
    · exact Or.inr ⟨u, (List.mem_erase_of_ne hut).mpr hu, hreset⟩
  | finish rng hd hrun =>
    simp only [NoReturn, hrun, ne_eq, Option.some.injEq]
    by_cases hhd : hd = .resetTask
    · subst hhd
      have hpending : pendingResets s = 0 := by
        simp only [OneReset, hrun, if_true] at hs
        omega
      have hnone : pendingResets { s with timers := s.timers ++ issued s.now rng .resetTask, running := none } = 0 := by
        simpa [pendingResets, countP_issued] using hpending
      refine iff_of_false ?_ (not_not.mpr rfl)
      exact not_or.mpr ⟨by simp, not_isReset_of_pendingResets hnone⟩
    · obtain ⟨u, hu, hreset⟩ := harmed.resolve_left (by simpa [hrun] using hhd)
      exact iff_of_true (Or.inr ⟨u, List.mem_append_left _ hu, hreset⟩) hhd

theorem localDay_localMidnight (day : ℤ) : localDay (localMidnight day) = day := by
  simp only [localDay, localMidnight, ptime, hours]
  omega

theorem armed_start (now : ℤ) : Armed (start now) := by
  refine Or.inr ⟨_, List.mem_singleton_self _, rfl, ?_⟩
  rw [localDay_localMidnight]

/-- **In a run a reset is ahead in every state exactly if `reset_task` does
not return in it.** -/
theorem armed_iff (now : ℤ) (acts : List Act) {s : State} (h : Trans.run step (start now) acts = some s) :
    Trans.Always step Armed (start now) acts ↔ Trans.Along step NoReturn (start now) acts :=
  Trans.always_iff_along (fun _ _ _ hs hstep => oneReset_step hs hstep)
    (fun _ _ _ hs harmed hstep => armed_step hs harmed hstep) (Nat.le_refl 1 : OneReset (start now))
    (armed_start now) h

/-- The clock reaches the first midnight and `reset_task` is called. -/
def firstMidnight : List Act := [.wait 57600, .fire ⟨57600, .resetTask⟩]

theorem armed_firstMidnight : Trans.Always step Armed (start 0) firstMidnight ↔
    Trans.Along step NoReturn (start 0) firstMidnight :=
  armed_iff 0 firstMidnight (s := ⟨57600, [], some .resetTask⟩) rfl

/-- When `reset_task` has returned, no reset is ahead. -/
theorem no_second_reset : ¬ ∀ (now : ℤ) (acts : List Act) (s : State),
    Trans.run step (start now) acts = some s → Trans.Always step Armed (start now) acts := by
  intro h
  have h₀ := h 0 (firstMidnight ++ [.finish fun _ => 0]) ⟨57600, issued 57600 (fun _ => 0) .resetTask, none⟩ rfl
  have h₁ := ((Trans.always_cons rfl).mp h₀).2
  have h₂ := ((Trans.always_cons rfl).mp h₁).2
  have h₃ := ((Trans.always_cons rfl).mp h₂).2
  have hnone : ¬ Armed ⟨57600, issued 57600 (fun _ => 0) .resetTask, none⟩ := by decide
  exact hnone h₃.head

end DailyTask
end ScheduleCenter
