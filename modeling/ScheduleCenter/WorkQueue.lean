/-
# The work queue: `work_queue<T>`

The sections of `work_queue.hpp` under `tasks_mutex`, and the system of any
number of threads that call `push_task`, `pop_task`, `stop` and `clear` on one
queue (`Monitor.step`). `clear` is two sections: `stop()` with its
`notify_all`, then, under a second lock, the one that empties `tasks_` and
takes the stop back (`Op.clearTasks`); other threads run between the two.

The tasks accepted are the tasks removed, by `pop_task` or by `clear`, followed
by those still in the queue, in this order, and `pop_task` returns
`task_type()` only from a queue that is empty and stopped (`tasks_in_order`).
No wakeup is lost (`no_lost_wakeup`): each task is answered for by a
notification to come or a thread awake, and a stop by a `notify_all` to come.

Key definitions: `WorkQueue`, `WorkQueue.popTask`, `WorkQueue.sect`, `WorkQueue.LostWakeup`.
Key theorems: `WorkQueue.tasks_in_order`, `WorkQueue.no_lost_wakeup`.
-/
import ScheduleCenter.Base.Monitor

namespace ScheduleCenter

open Monitor

/-- `work_queue<T>`: `tasks_` and `is_stopped_`. -/
structure WorkQueue (T : Type*) where
  tasks : List T
  isStopped : Bool

/-- What a pass through the section of `pop_task` ends in. -/
inductive Popped (T : Type*)
  /-- `cond_.wait(lock)`; on waking the loop tests again. -/
  | wait
  /-- `return task_type();` -/
  | default
  | task (t : T)

namespace WorkQueue

variable {T : Type*}

def new : WorkQueue T := ⟨[], false⟩

/-- `stop`, up to the unlock. -/
def stop (q : WorkQueue T) : WorkQueue T := { q with isStopped := true }

/-- `push_task`, up to the unlock: a stopped queue does not take the task. -/
def pushTask (q : WorkQueue T) (t : T) : WorkQueue T :=
  if q.isStopped then q else { q with tasks := q.tasks ++ [t] }

/-- `pop_task`, from the lock or the end of a wait on. -/
def popTask (q : WorkQueue T) : Popped T × WorkQueue T :=
  match q.tasks with
  | [] => (if q.isStopped then .default else .wait, q)
  | t :: tasks => (.task t, { q with tasks := tasks })

/-- `clear`, the section after `stop()`. -/
def clearTasks (_ : WorkQueue T) : WorkQueue T := ⟨[], false⟩

/-- The sections: the four calls, and the second one of `clear`. -/
inductive Op (T : Type*)
  | stop
  | pushTask (t : T)
  | popTask
  | clear
  | clearTasks

/-- Each section, and what its thread does after it. -/
def sect : Op T → WorkQueue T → WorkQueue T × After (Op T)
  | .stop, q => (q.stop, .notifyAll none)
  | .pushTask t, q => (q.pushTask t, if q.isStopped then .ret else .notifyOne none)
  | .popTask, q =>
    match q.popTask with
    | (.wait, q') => (q', .wait)
    | (_, q') => (q', .ret)
  | .clear, q => (q.stop, .notifyAll (some .clearTasks))
  | .clearTasks, q => (q.clearTasks, .ret)

/-- The states of a new queue and `n` threads after the steps `as`. -/
def run (n : ℕ) (as : List (Monitor.Act (Op T))) : Option (State (WorkQueue T) (Op T)) :=
  Trans.run (Monitor.step sect) (Monitor.init new n) as

/-! ### Order -/

/-- The task a section puts into the queue. -/
def accepted : Op T → WorkQueue T → List T
  | .pushTask t, q => if q.isStopped then [] else [t]
  | _, _ => []

/-- The tasks a section takes out of the queue. -/
def removed : Op T → WorkQueue T → List T
  | .popTask, q =>
    match q.popTask.1 with
    | .task t => [t]
    | _ => []
  | .clearTasks, q => q.tasks
  | _, _ => []

/-- One section: what was there and what comes in is what goes out and what
stays, in this order. -/
theorem sect_order (o : Op T) (q : WorkQueue T) :
    q.tasks ++ accepted o q = removed o q ++ (sect o q).1.tasks := by
  cases o
  case pushTask t =>
    simp only [accepted, removed, sect, pushTask]
    split <;> simp
  case popTask =>
    rcases q with ⟨_ | ⟨t, tasks⟩, stopped⟩
    · cases stopped <;> rfl
    · simp [accepted, removed, sect, popTask]
  all_goals simp [accepted, removed, sect, stop, clearTasks]

theorem popTask_default {q : WorkQueue T} (h : q.popTask.1 = .default) : q.tasks = [] ∧ q.isStopped = true := by
  rcases q with ⟨_ | ⟨t, tasks⟩, stopped⟩
  · cases stopped
    · cases h
    · exact ⟨rfl, rfl⟩
  · cases h

/-- **Each task once, in order.** In every run of any number of threads the
tasks accepted are those removed and then those still there, and a pass of
`pop_task` that returns `task_type()` finds the queue empty and stopped. -/
theorem tasks_in_order {n : ℕ} {as : List (Monitor.Act (Op T))} {s : State (WorkQueue T) (Op T)}
    (h : run n as = some s) :
    Trans.emits (Monitor.step sect) (log accepted) (Monitor.init new n) as =
      Trans.emits (Monitor.step sect) (log removed) (Monitor.init new n) as ++ s.data.tasks ∧
    (s.data.popTask.1 = .default → s.data.tasks = [] ∧ s.data.isStopped = true) :=
  ⟨run_log (v := WorkQueue.tasks) sect_order h, popTask_default⟩

/-- Thread 0 waits for a task, thread 1 pushes one and notifies it, thread 2
clears the queue and with it a second task. -/
def handOver : List (Monitor.Act (Op ℕ)) :=
  [.call 0 .popTask, .enter 0, .call 1 (.pushTask 7), .enter 1, .notifyOne 1 0, .enter 0,
    .call 1 (.pushTask 8), .enter 1, .call 2 .clear, .enter 2, .notifyAll 2, .call 0 .popTask, .enter 2]

def handedOver : State (WorkQueue ℕ) (Op ℕ) := (run 3 handOver).get (by decide)

theorem handOver_accepted : Trans.emits (Monitor.step sect) (log accepted) (Monitor.init new 3) handOver = [7, 8] := by
  decide

theorem handOver_in_order :
    Trans.emits (Monitor.step sect) (log removed) (Monitor.init new 3) handOver ++ handedOver.data.tasks = [7, 8] ∧
    (handedOver.data.popTask.1 = .default → handedOver.data.tasks = [] ∧ handedOver.data.isStopped = true) := by
  rw [← handOver_accepted]
  exact ⟨(tasks_in_order (Option.some_get _).symm).1.symm, (tasks_in_order (Option.some_get _).symm).2⟩

/-! ### Wakeups -/

/-- Only `pop_task` waits, on a queue that is empty and not stopped, and it
leaves the queue as it is. -/
theorem sect_wait {o : Op T} {q : WorkQueue T} (h : (sect o q).2 = .wait) :
    o = .popTask ∧ q.tasks = [] ∧ q.isStopped = false ∧ (sect o q).1 = q := by
  cases o
  case popTask =>
    rcases q with ⟨_ | ⟨t, tasks⟩, stopped⟩
    · cases stopped
      · exact ⟨rfl, rfl, rfl, rfl⟩
      · cases h
    · cases h
  case pushTask t =>
    simp only [sect] at h
    split at h <;> cases h
  all_goals cases h

/-- A task is an item: each `push_task` that adds one notifies, each pass of
`pop_task` takes one or finds none. -/
theorem signals : Signals (sect (T := T)) fun q => q.tasks.length where
  wait o q h := by
    obtain ⟨-, hempty, -, hq⟩ := sect_wait h
    simp [hq, hempty]
  credit o q := by
    cases o
    case pushTask t =>
      simp only [sect, pushTask]
      split <;> simp [After.credit]
    case popTask =>
      rcases q with ⟨_ | ⟨t, tasks⟩, stopped⟩
      · cases stopped <;> exact Nat.le_refl _
      · exact Nat.le_succ _
    all_goals simp [sect, stop, clearTasks, After.credit]
  takes o h q := by
    obtain ⟨q₀, h⟩ := h
    obtain ⟨rfl, -⟩ := sect_wait h
    rcases q with ⟨_ | ⟨t, tasks⟩, stopped⟩
    · refine .inr ?_
      cases stopped <;> rfl
    · exact .inl (Nat.le_refl _)

/-- Who stops the queue notifies all. -/
theorem broadcasts : Broadcasts (sect (T := T)) fun q => q.isStopped = true where
  wait o q h := by
    obtain ⟨-, -, hstop, hq⟩ := sect_wait h
    simp [hq, hstop]
  makes o q h h' := by
    cases o
    case pushTask t =>
      simp only [sect, pushTask] at h'
      split at h' <;> exact absurd h' h
    case popTask =>
      rcases q with ⟨_ | ⟨t, tasks⟩, stopped⟩
      · cases stopped <;> exact absurd h' h
      · exact absurd h' h
    case clearTasks => cases h'
    all_goals rfl

/-- A thread is blocked in `pop_task` though there is a task or the queue is
stopped, and nobody is left to see to it. -/
structure LostWakeup (s : State (WorkQueue T) (Op T)) : Prop where
  blocked : .waiting .popTask ∈ s.threads
  work : s.data.tasks ≠ [] ∨ s.data.isStopped = true
  noOne : ∀ pc ∈ s.threads, pc.isNotifyOne = false
  noAll : ∀ pc ∈ s.threads, pc.isNotifyAll = false
  noneWoken : ∀ pc ∈ s.threads, pc.isWoken = false

/-- **No lost wakeup**, in any run of any number of threads. -/
theorem no_lost_wakeup {n : ℕ} {as : List (Monitor.Act (Op T))} {s : State (WorkQueue T) (Op T)}
    (h : run n as = some s) :
    ¬ LostWakeup s := by
  rintro ⟨blocked, work, noOne, noAll, noneWoken⟩
  have hr := Trans.Reach.of_run h
  have hzero : ∀ {p : Monitor.Pc (Op T) → Bool}, (∀ pc ∈ s.threads, p pc = false) → s.threads.countP p = 0 :=
    fun hp => List.countP_eq_zero.mpr fun pc hpc => by simp [hp pc hpc]
  rcases work with htasks | hstop
  · have hle := signals.items_le hr blocked
    rw [hzero noOne, hzero noneWoken, Nat.le_zero, List.length_eq_zero_iff] at hle
    exact htasks hle
  · have hpos := broadcasts.pending hr hstop blocked
    rw [hzero noAll] at hpos
    exact Nat.lt_irrefl 0 hpos

theorem handOver_no_lost_wakeup : ¬ LostWakeup handedOver := no_lost_wakeup (Option.some_get _).symm

end WorkQueue
end ScheduleCenter
