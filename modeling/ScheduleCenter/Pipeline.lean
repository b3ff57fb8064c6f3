/-
# The queue between the two threads

The thread of `io_service_` runs `on_read`, which calls `push_task`; the thread of
`start_work_queue` calls `pop_task` and executes what it gets. Here the calls are taken
section by section as `WorkQueue` has them, with waits, notifications and wakeups
without one, where `WorkLoop` takes each call as one step.

Each run comes to a run of that loop, with a task in the queue when the section of
`push_task` has put it there and out of it when that of `pop_task` has taken it
(`run_worker`). So the tasks are executed in the order in which they are queued, each
with a result of its own (`tasks_executed_in_order`). No wakeup is lost between the two:
from wherever they are, and without another payload, they go on until the worker has the
next task. What a call of `do_work_queue` waits for is not seen here: if each call comes
back, all that was read gets executed, unless one throws (`tasks_get_executed`).

Key definitions: `Pipeline.State`, `Pipeline.step`, `Pipeline.labels`, `Pipeline.Inv`, `Pipeline.StepCase`.
Key theorems: `Pipeline.step_cases`, `Pipeline.inv_step`, `Pipeline.run_worker`,
`Pipeline.tasks_executed_in_order`, `Pipeline.tasks_get_executed`.
-/
import ScheduleCenter.WorkLoop

namespace ScheduleCenter
namespace Pipeline

open MainTask Monitor

abbrev QueueOp := WorkQueue.Op TasksInfo
abbrev QueuePc := Monitor.Pc QueueOp

/-- `work_queue_` with the two threads, the thread of `io_service_` first, and the
variables of the worker's loop. -/
structure State where
  queue : Monitor.State (WorkQueue TasksInfo) QueueOp
  task : Option TasksInfo
  result : Str

inductive Act
  /-- A connection hands a payload to `on_read`. -/
  | onRead (data : Str)
  /-- The worker calls `pop_task`. -/
  | popTask
  /-- A thread goes on in its call, or wakes up. -/
  | queue (a : Monitor.Act QueueOp)
  | doWorkQueue (m : AccountMgr) (joined : Int)

def start : State := ⟨Monitor.init .new 2, none, []⟩

variable (readJson : ReadJson)

/-- What the worker gets in a section of `pop_task`. Nobody stops the queue. -/
def popped (s : State) : Monitor.Act QueueOp → Option TasksInfo
  | .enter 1 =>
    match s.queue.data.popTask.1 with
    | .task ti => some ti
    | _ => s.task
  | _ => s.task

def isCall : Monitor.Act QueueOp → Bool
  | .call _ _ => true
  | _ => false

def queueStep (s : State) (a : Monitor.Act QueueOp) : Option State :=
  (Monitor.step WorkQueue.sect s.queue a).map fun q => { s with queue := q }

/-- An exception that leaves `on_read` or `do_work_queue` ends the process. -/
def step (s : State) : Act → Option State
  | .onRead data =>
    match ScheduleConnection.onRead readJson data with
    | .ok (.addTask ti) => queueStep s (.call 0 (.pushTask ti))
    | .ok _ => if s.queue.threads.head?.any (fun pc => pc matches .idle) then some s else none
    | .error _ => none
  | .popTask => if s.task.isNone then queueStep s (.call 1 .popTask) else none
  | .queue a =>
    if isCall a then none else (queueStep s a).map fun s' => { s' with task := popped s a }
  | .doWorkQueue m joined =>
    match s.task with
    | none => none
    | some ti =>
      match doWorkQueue readJson m joined ti.description s.result with
      | .ok r => some { s with task := none, result := r }
      | .error _ => none

/-- The steps of the loop that a step comes to. -/
def labels (s : State) : Act → List WorkerAct
  | .onRead data =>
    match ScheduleConnection.onRead readJson data with
    | .ok (.addTask _) => []
    | _ => [.onRead data]
  | .popTask => []
  | .queue (.enter i) =>
    match (s.queue.threads[i]?).bind Monitor.Pc.ready with
    | some (.pushTask ti) => [.onRead ti.description]
    | some .popTask =>
      match s.queue.data.popTask.1 with
      | .task _ => [.popTask]
      | _ => []
    | _ => []
  | .queue _ => []
  | .doWorkQueue m joined => [.doWorkQueue m joined]

/-- What a step executes. -/
def executed (s : State) : Act → List Executed
  | .doWorkQueue m joined => MainTask.executed readJson ⟨s.queue.data, s.task, s.result⟩ (.doWorkQueue m joined)
  | _ => []

/-- The loop as `WorkLoop` has it. -/
def State.worker (s : State) : Worker := ⟨s.queue.data, s.task, s.result⟩

/-! ### Where the threads are -/

/-- Where the thread of `io_service_` can be. -/
inductive IoPc : QueuePc → Prop
  | idle : IoPc .idle
  | push (ti : TasksInfo) (h : ScheduleConnection.onRead readJson ti.description = .ok (.addTask ti)) :
      IoPc (.enter (.pushTask ti))
  | notify : IoPc (.notifyOne none)

/-- Where the worker can be. -/
inductive WorkerPc : QueuePc → Prop
  | idle : WorkerPc .idle
  | enter : WorkerPc (.enter .popTask)
  | waiting : WorkerPc (.waiting .popTask)
  | woken : WorkerPc (.woken .popTask)

structure Inv (s : State) : Prop where
  reach : Trans.Reach (Monitor.step WorkQueue.sect) (fun _ _ => True) (Monitor.init .new 2) s.queue
  threads : ∃ a b, s.queue.threads = [a, b] ∧ IoPc readJson a ∧ WorkerPc b ∧ (s.task ≠ none → b = .idle)
  going : s.queue.data.isStopped = false

/-- The queue and where the threads are, after a step. -/
def State.to (s : State) (q : WorkQueue TasksInfo) (a b : QueuePc) : State := { s with queue := ⟨q, [a, b]⟩ }

/-- What a step can do. -/
inductive StepCase (s : State) : Act → State → Prop
  | read (data : Str) (ti : TasksInfo) (b : QueuePc) (hthreads : s.queue.threads = [.idle, b])
      (hread : ScheduleConnection.onRead readJson data = .ok (.addTask ti)) :
      StepCase s (.onRead data) (s.to s.queue.data (.enter (.pushTask ti)) b)
  | other (data : Str) (call : SchedCall) (hread : ScheduleConnection.onRead readJson data = .ok call)
      (hcall : ∀ ti, call ≠ .addTask ti) : StepCase s (.onRead data) s
  | call (a : QueuePc) (hthreads : s.queue.threads = [a, .idle]) (htask : s.task = none) :
      StepCase s .popTask (s.to s.queue.data a (.enter .popTask))
  | push (ti : TasksInfo) (b : QueuePc) (hthreads : s.queue.threads = [.enter (.pushTask ti), b]) :
      StepCase s (.queue (.enter 0)) (s.to (s.queue.data.pushTask ti) (.notifyOne none) b)
  | notifyOne (hthreads : s.queue.threads = [.notifyOne none, .waiting .popTask]) :
      StepCase s (.queue (.notifyOne 0 1)) (s.to s.queue.data .idle (.woken .popTask))
  | notifyNone (b : QueuePc) (hthreads : s.queue.threads = [.notifyOne none, b]) :
      StepCase s (.queue (.notifyNone 0)) (s.to s.queue.data .idle b)
  | wait (a b : QueuePc) (hthreads : s.queue.threads = [a, b]) (hb : b.ready = some .popTask)
      (hempty : s.queue.data.tasks = []) :
      StepCase s (.queue (.enter 1)) (s.to s.queue.data a (.waiting .popTask))
  | pop (a b : QueuePc) (ti : TasksInfo) (tasks : List TasksInfo) (hthreads : s.queue.threads = [a, b])
      (hb : b.ready = some .popTask) (htasks : s.queue.data.tasks = ti :: tasks) :
      StepCase s (.queue (.enter 1)) { s.to { s.queue.data with tasks := tasks } a .idle with task := some ti }
  | spurious (a : QueuePc) (hthreads : s.queue.threads = [a, .waiting .popTask]) :
      StepCase s (.queue (.spurious 1)) (s.to s.queue.data a (.woken .popTask))
  | execute (m : AccountMgr) (joined : Int) (ti : TasksInfo) (r : Str) (htask : s.task = some ti)
      (h : doWorkQueue readJson m joined ti.description s.result = .ok r) :
      StepCase s (.doWorkQueue m joined) { s with task := none, result := r }

theorem getElem?_pair {α : Type*} {a b x : α} {i : ℕ} (h : [a, b][i]? = some x) : i = 0 ∧ x = a ∨ i = 1 ∧ x = b := by
  match i with
  | 0 => exact Or.inl ⟨rfl, (Option.some.inj h).symm⟩
  | 1 => exact Or.inr ⟨rfl, (Option.some.inj h).symm⟩
  | _ + 2 => cases h

/-- A section of `pop_task`. -/
theorem sect_popTask (q : WorkQueue TasksInfo) (hq : q.isStopped = false) :
    (q.tasks = [] ∧ q.popTask = (.wait, q)) ∨
      ∃ ti tasks, q.tasks = ti :: tasks ∧ q.popTask = (.task ti, { q with tasks := tasks }) := by
  rcases htasks : q.tasks with _ | ⟨ti, tasks⟩
  · exact Or.inl ⟨rfl, by simp [WorkQueue.popTask, htasks, hq]⟩
  · exact Or.inr ⟨ti, tasks, rfl, by simp [WorkQueue.popTask, htasks]⟩

theorem StepCase.congr {s s₁ s₂ : State} {a : Act} (h : StepCase readJson s a s₁) (heq : s₂ = s₁) :
    StepCase readJson s a s₂ :=
  heq ▸ h

/-- A thread goes on in its call. -/
theorem queue_cases {s s' : State} (hs : Inv readJson s) {a : Monitor.Act QueueOp}
    (h : step readJson s (.queue a) = some s') : StepCase readJson s (.queue a) s' := by
  obtain ⟨x, y, hthreads, hx, hy, hidle⟩ := hs.threads
  simp only [step] at h
  split_ifs at h with hcall
  obtain ⟨s₁, h₁, rfl⟩ := Option.map_eq_some_iff.mp h
  obtain ⟨q, hq, rfl⟩ := Option.map_eq_some_iff.mp h₁
  cases Monitor.step_cases hq with
  | call => exact absurd rfl hcall
  | @enter i o pc hpc ho =>
    rw [hthreads] at hpc
    rcases getElem?_pair hpc with ⟨rfl, rfl⟩ | ⟨rfl, rfl⟩
    · -- only the section of `push_task`
      cases hx with
      | idle => rcases ho with ho | ho <;> cases ho
      | notify => rcases ho with ho | ho <;> cases ho
      | push ti hread =>
        obtain rfl : o = .pushTask ti := by rcases ho with ho | ho <;> cases ho; rfl
        apply (StepCase.push ti y hthreads).congr
        simp [State.to, WorkQueue.sect, hs.going, hthreads, After.pc, popped]
    · have hready : pc.ready = some .popTask ∧ o = .popTask := by
        cases hy with
        | idle => rcases ho with ho | ho <;> cases ho
        | waiting => rcases ho with ho | ho <;> cases ho
        | enter => rcases ho with ho | ho <;> cases ho; exact ⟨rfl, rfl⟩
        | woken => rcases ho with ho | ho <;> cases ho; exact ⟨rfl, rfl⟩
      obtain ⟨hready, rfl⟩ := hready
      rcases sect_popTask s.queue.data hs.going with ⟨hempty, hpop⟩ | ⟨ti, tasks, htasks, hpop⟩
      · apply (StepCase.wait x pc hthreads hready hempty).congr
        simp [State.to, WorkQueue.sect, hpop, hthreads, After.pc, popped]
      · apply (StepCase.pop x pc ti tasks hthreads hready htasks).congr
        simp [State.to, WorkQueue.sect, hpop, hthreads, After.pc, popped]
  | @notifyOne i j o w hi hj =>
    rw [hthreads] at hi hj
    rcases getElem?_pair hi with ⟨rfl, rfl⟩ | ⟨rfl, rfl⟩
    · obtain ⟨rfl, rfl⟩ : j = 1 ∧ y = .waiting w := by
        rcases getElem?_pair hj with ⟨-, hj⟩ | ⟨hj, hy⟩
        · cases hj
        · exact ⟨hj, hy.symm⟩
      cases hx
      cases hy
      apply (StepCase.notifyOne hthreads).congr
      simp [State.to, hthreads, popped, Pc.next]
    · cases hy
  | @notifyNone i o hi hw =>
    rw [hthreads] at hi
    rcases getElem?_pair hi with ⟨rfl, rfl⟩ | ⟨rfl, rfl⟩
    · cases hx
      apply (StepCase.notifyNone y hthreads).congr
      simp [State.to, hthreads, popped, Pc.next]
    · cases hy
  | @notifyAll i o hi =>
    rw [hthreads] at hi
    rcases getElem?_pair hi with ⟨rfl, rfl⟩ | ⟨rfl, rfl⟩
    · cases hx
    · cases hy
  | @spurious i w hi =>
    rw [hthreads] at hi
    rcases getElem?_pair hi with ⟨rfl, rfl⟩ | ⟨rfl, rfl⟩
    · cases hx
    · cases hy
      apply (StepCase.spurious x hthreads).congr
      simp [State.to, hthreads, popped]

theorem step_cases {s s' : State} (hs : Inv readJson s) : ∀ {a : Act}, step readJson s a = some s' →
    StepCase readJson s a s'
  | .queue a, h => queue_cases readJson hs h
  | .onRead data, h => by
    obtain ⟨x, y, hthreads, hx, hy, hidle⟩ := hs.threads
    rcases hread : ScheduleConnection.onRead readJson data with e | call
    · simp only [step, hread] at h
      cases h
    · by_cases hadd : ∃ ti, call = .addTask ti
      · obtain ⟨ti, rfl⟩ := hadd
        simp only [step, hread] at h
        obtain ⟨q, hq, rfl⟩ := Option.map_eq_some_iff.mp h
        cases Monitor.step_cases hq with
        | call hx0 =>
          rw [hthreads] at hx0
          obtain rfl : x = .idle := Option.some.inj hx0
          apply (StepCase.read data ti y hthreads hread).congr
          simp [State.to, hthreads]
      · have hcall : ∀ ti, call ≠ .addTask ti := fun ti hti => hadd ⟨ti, hti⟩
        have hstep : step readJson s (.onRead data) =
            if s.queue.threads.head?.any (fun pc => pc matches .idle) then some s else none := by
          simp only [step, hread]
        rw [hstep] at h
        split_ifs at h
        cases h
        exact .other data call hread hcall
  | .popTask, h => by
    obtain ⟨x, y, hthreads, hx, hy, hidle⟩ := hs.threads
    simp only [step] at h
    split_ifs at h with htask
    obtain ⟨q, hq, rfl⟩ := Option.map_eq_some_iff.mp h
    cases Monitor.step_cases hq with
    | call hy1 =>
      rw [hthreads] at hy1
      obtain rfl : y = .idle := Option.some.inj hy1
      apply (StepCase.call x hthreads (Option.isNone_iff_eq_none.mp htask)).congr
      simp [State.to, hthreads]
  | .doWorkQueue m joined, h => by
    simp only [step] at h
    split at h
    · cases h
    · rename_i ti htask
      split at h
      · rename_i r hr
        cases h
        exact .execute m joined ti r htask hr
      · cases h

/-! ### One step -/

/-- The queue is left alone, or goes on as `WorkQueue` says. -/
theorem queue_step {s s' : State} {a : Act} (h : step readJson s a = some s') :
    s'.queue = s.queue ∨ ∃ b, Monitor.step WorkQueue.sect s.queue b = some s'.queue := by
  have hmap : ∀ {b : Monitor.Act QueueOp} {s₁ : State}, queueStep s b = some s₁ →
      ∃ b, Monitor.step WorkQueue.sect s.queue b = some s₁.queue := by
    intro b s₁ h₁
    obtain ⟨q, hq, rfl⟩ := Option.map_eq_some_iff.mp h₁
    exact ⟨b, hq⟩
  cases a with
  | onRead data =>
    simp only [step] at h
    split at h
    · exact Or.inr (hmap h)
    · split_ifs at h
      cases h
      exact Or.inl rfl
    · cases h
  | popTask =>
    simp only [step] at h
    split_ifs at h
    exact Or.inr (hmap h)
  | queue b =>
    simp only [step] at h
    split_ifs at h
    obtain ⟨s₁, h₁, rfl⟩ := Option.map_eq_some_iff.mp h
    obtain ⟨c, hc⟩ := hmap h₁
    exact Or.inr ⟨c, hc⟩
  | doWorkQueue m joined =>
    simp only [step] at h
    split at h
    · cases h
    · split at h
      · cases h
        exact Or.inl rfl
      · cases h

theorem inv_start : Inv readJson start where
  reach := .refl
  threads := ⟨.idle, .idle, rfl, .idle, .idle, fun _ => rfl⟩
  going := rfl

theorem inv_step {s s' : State} {a : Act} (hs : Inv readJson s) (h : step readJson s a = some s') :
    Inv readJson s' := by
  have hreach : Trans.Reach (Monitor.step WorkQueue.sect) (fun _ _ => True) (Monitor.init .new 2) s'.queue := by
    rcases queue_step readJson h with heq | ⟨b, hb⟩
    · rw [heq]
      exact hs.reach
    · exact hs.reach.tail trivial hb
  obtain ⟨x, y, hxy, hx, hy, hidle⟩ := hs.threads
  cases step_cases readJson hs h with
  | read data ti b hthreads hread =>
    rw [hxy] at hthreads
    cases hthreads
    have hdata := (onRead_addTask readJson hread).1
    exact ⟨hreach, ⟨_, _, rfl, .push ti (hdata ▸ hread), hy, hidle⟩, hs.going⟩
  | other data call hread hcall => exact hs
  | call a hthreads htask =>
    rw [hxy] at hthreads
    cases hthreads
    exact ⟨hreach, ⟨_, _, rfl, hx, .enter, fun hne => absurd htask hne⟩, hs.going⟩
  | push ti b hthreads =>
    rw [hxy] at hthreads
    cases hthreads
    refine ⟨hreach, ⟨_, _, rfl, .notify, hy, hidle⟩, ?_⟩
    simp [State.to, WorkQueue.pushTask, hs.going]
  | notifyOne hthreads =>
    rw [hxy] at hthreads
    cases hthreads
    exact ⟨hreach, ⟨_, _, rfl, .idle, .woken, fun hne => absurd (hidle hne) (by simp)⟩, hs.going⟩
  | notifyNone b hthreads =>
    rw [hxy] at hthreads
    cases hthreads
    exact ⟨hreach, ⟨_, _, rfl, .idle, hy, hidle⟩, hs.going⟩
  | wait a b hthreads hb hempty =>
    rw [hxy] at hthreads
    cases hthreads
    refine ⟨hreach, ⟨_, _, rfl, hx, .waiting, fun hne => ?_⟩, hs.going⟩
    rw [hidle hne] at hb
    cases hb
  | pop a b ti tasks hthreads hb htasks =>
    rw [hxy] at hthreads
    cases hthreads
    exact ⟨hreach, ⟨_, _, rfl, hx, .idle, fun _ => rfl⟩, hs.going⟩
  | spurious a hthreads =>
    rw [hxy] at hthreads
    cases hthreads
    exact ⟨hreach, ⟨_, _, rfl, hx, .woken, fun hne => absurd (hidle hne) (by simp)⟩, hs.going⟩
  | execute m joined ti r htask hr =>
    exact ⟨hreach, ⟨x, y, hxy, hx, hy, fun hne => absurd rfl hne⟩, hs.going⟩

/-- **A step comes to steps of the loop.** -/
theorem run_labels {s s' : State} {a : Act} (hs : Inv readJson s) (h : step readJson s a = some s') :
    Trans.run (MainTask.step readJson) s.worker (labels readJson s a) = some s'.worker := by
  obtain ⟨x, y, hxy, hx, hy, hidle⟩ := hs.threads
  cases step_cases readJson hs h with
  | read data ti b hthreads hread =>
    simp only [labels, hread]
    rfl
  | other data call hread hcall =>
    have hlabels : labels readJson s (.onRead data) = [.onRead data] := by
      simp only [labels, hread]
      cases call with
      | addTask ti => exact absurd rfl (hcall ti)
      | nothing | getResult => rfl
    rw [hlabels]
    refine Trans.run_cons.mpr ⟨s.worker, ?_, rfl⟩
    simp only [MainTask.step, hread]
  | push ti b hthreads =>
    rw [hxy] at hthreads
    cases hthreads
    cases hx with
    | push ti hread =>
      have hlabels : labels readJson s (.queue (.enter 0)) = [.onRead ti.description] := by
        simp [labels, hxy, Monitor.Pc.ready]
      rw [hlabels]
      refine Trans.run_cons.mpr ⟨(s.to (s.queue.data.pushTask ti) (.notifyOne none) y).worker, ?_, rfl⟩
      simp only [MainTask.step, hread]
      rfl
  | wait a b hthreads hb hempty =>
    rw [hxy] at hthreads
    cases hthreads
    have hlabels : labels readJson s (.queue (.enter 1)) = [] := by
      rcases sect_popTask s.queue.data hs.going with ⟨-, hpop⟩ | ⟨ti, tasks, htasks, -⟩
      · simp [labels, hxy, hb, hpop]
      · rw [hempty] at htasks
        cases htasks
    rw [hlabels]
    rfl
  | pop a b ti tasks hthreads hb htasks =>
    rw [hxy] at hthreads
    cases hthreads
    have htask : s.task = none := by
      by_contra hne
      rw [hidle hne] at hb
      cases hb
    have hpop : s.queue.data.popTask = (.task ti, { s.queue.data with tasks := tasks }) := by
      simp [WorkQueue.popTask, htasks]
    have hlabels : labels readJson s (.queue (.enter 1)) = [.popTask] := by
      simp [labels, hxy, hb, hpop]
    rw [hlabels]
    refine Trans.run_cons.mpr ⟨_, ?_, rfl⟩
    simp only [MainTask.step, State.worker, htask, hpop]
    rfl
  | execute m joined ti r htask hr =>
    refine Trans.run_cons.mpr ⟨_, ?_, rfl⟩
    simp only [MainTask.step, State.worker, htask, hr]
  | call | notifyOne | notifyNone | spurious => rfl

/-- What a thread does before it has put a task into the queue, or taken one, executes nothing. -/
theorem executed_of_mem_labels {s : State} : ∀ {a : Act}, (∀ m joined, a ≠ .doWorkQueue m joined) →
    ∀ l ∈ labels readJson s a, ∀ w, MainTask.executed readJson w l = []
  | .doWorkQueue m joined, hne, _, _, _ => absurd rfl (hne m joined)
  | .popTask, _, _, hl, _ => nomatch hl
  | .onRead data, _, l, hl, w => by
    simp only [labels] at hl
    split at hl
    · cases hl
    · rw [List.mem_singleton.mp hl]
      rfl
  | .queue b, _, l, hl, w => by
    cases b with
    | enter i =>
      simp only [labels] at hl
      split at hl
      · rw [List.mem_singleton.mp hl]
        rfl
      · split at hl
        · rw [List.mem_singleton.mp hl]
          rfl
        · cases hl
      · cases hl
    | call | notifyOne | notifyNone | notifyAll | spurious => cases hl

/-- What is executed in a step is executed in the steps it comes to. -/
theorem executed_labels {s s' : State} {a : Act} (hs : Inv readJson s) (h : step readJson s a = some s') :
    executed readJson s a =
      Trans.emits (MainTask.step readJson) (MainTask.executed readJson) s.worker (labels readJson s a) := by
  cases a with
  | doWorkQueue m joined =>
    obtain ⟨t, ht, -⟩ := Trans.run_cons.mp (run_labels readJson hs h)
    rw [labels, Trans.emits_cons ht]
    exact (List.append_nil _).symm
  | onRead | popTask | queue =>
    refine (Trans.emits_eq_nil (executed_of_mem_labels readJson ?_)).symm
    rintro m joined ⟨⟩

/-! ### Runs -/

/-- The task that `on_read` hands to `push_task`. -/
def read (_ : State) : Act → List TasksInfo
  | .onRead data =>
    match ScheduleConnection.onRead readJson data with
    | .ok (.addTask ti) => [ti]
    | _ => []
  | _ => []

/-- The task that is about to be put into the queue. -/
def pushing : QueuePc → List TasksInfo
  | .enter (.pushTask ti) => [ti]
  | _ => []

/-- The tasks that were read and are not yet executed. -/
def outstanding (s : State) : List TasksInfo :=
  s.task.toList ++ s.queue.data.tasks ++ s.queue.threads.head?.elim [] pushing

/-- A task that is read is outstanding until it is executed. -/
theorem outstanding_step {s s' : State} {a : Act} (hs : Inv readJson s) (h : step readJson s a = some s') :
    outstanding s ++ read readJson s a = (executed readJson s a).map (·.task) ++ outstanding s' := by
  obtain ⟨x, y, hxy, hx, hy, hidle⟩ := hs.threads
  cases step_cases readJson hs h with
  | read data ti b hthreads hread => simp [outstanding, pushing, read, executed, hthreads, hread, State.to]
  | other data call hread hcall =>
    have hnone : read readJson s (.onRead data) = [] := by
      simp only [read, hread]
      cases call with
      | addTask ti => exact absurd rfl (hcall ti)
      | nothing | getResult => rfl
    rw [hnone, List.append_nil]
    rfl
  | push ti b hthreads =>
    simp [outstanding, pushing, read, executed, hthreads, State.to, WorkQueue.pushTask, hs.going]
  | notifyOne hthreads => simp [outstanding, pushing, read, executed, hthreads, State.to]
  | notifyNone b hthreads => simp [outstanding, pushing, read, executed, hthreads, State.to]
  | call a hthreads htask => simp [outstanding, read, executed, hthreads, State.to]
  | wait a b hthreads hb hempty => simp [outstanding, read, executed, hthreads, State.to]
  | spurious a hthreads => simp [outstanding, read, executed, hthreads, State.to]
  | pop a b ti tasks hthreads hb htasks =>
    have htask : s.task = none := by
      by_contra hne
      rw [hxy] at hthreads
      cases hthreads
      rw [hidle hne] at hb
      cases hb
    simp [outstanding, read, executed, hthreads, htask, htasks, State.to]
  | execute m joined ti r htask hr =>
    simp [outstanding, read, executed, MainTask.executed, htask, hr]

/-- **The threads come to the loop.** -/
theorem run_worker {as : List Act} {s : State} (h : Trans.run (step readJson) start as = some s) :
    Trans.run (MainTask.step readJson) MainTask.start (Trans.emits (step readJson) (labels readJson) start as) =
        some s.worker ∧ Inv readJson s ∧
      Trans.emits (step readJson) (executed readJson) start as =
        Trans.emits (MainTask.step readJson) (MainTask.executed readJson) MainTask.start
          (Trans.emits (step readJson) (labels readJson) start as) := by
  have hR : ∀ (s : State) (a : Act) (s' : State) (w : Worker), Inv readJson s ∧ w = s.worker →
      step readJson s a = some s' → ∃ w', Trans.run (MainTask.step readJson) w (labels readJson s a) = some w' ∧
        Inv readJson s' ∧ w' = s'.worker := by
    rintro s a s' w ⟨hs, rfl⟩ h
    exact ⟨s'.worker, run_labels readJson hs h, inv_step readJson hs h, rfl⟩
  have hstart : Inv readJson start ∧ MainTask.start = start.worker := ⟨inv_start readJson, rfl⟩
  obtain ⟨w, hw, hs, rfl⟩ := Trans.run_answer hR hstart h
  refine ⟨hw, hs, Trans.emits_answer hR ?_ hstart h⟩
  rintro s a s' w ⟨hs, rfl⟩ h
  exact executed_labels readJson hs h

/-- **In order, each with its result.** What `on_read` has handed to the queue is what was
executed, in this order, and then what is outstanding: with the worker, in the queue,
about to be put there. What was executed has a result of its own. -/
theorem tasks_executed_in_order {as : List Act} {s : State} (h : Trans.run (step readJson) start as = some s) :
    Trans.emits (step readJson) (read readJson) start as =
        (Trans.emits (step readJson) (executed readJson) start as).map (·.task) ++ outstanding s ∧
      ∀ e ∈ Trans.emits (step readJson) (executed readJson) start as, OwnResult readJson e := by
  obtain ⟨hrun, -, hexecuted⟩ := run_worker readJson h
  constructor
  · have horder := Trans.run_emits_of_invariant outstanding (fun _ _ _ => inv_step readJson)
      (fun _ _ _ => outstanding_step readJson) (inv_start readJson) h
    rw [Trans.emits_map _ h] at horder
    exact horder
  · rw [hexecuted]
    exact (results_own readJson hrun).2

/-- The worker waits; a vote for no one comes in, and is in the queue before the worker
is notified; the next one comes in while it is executed. -/
def voteRun : List Act :=
  [.popTask, .queue (.enter 1), .onRead voteText, .queue (.enter 0), .queue (.notifyOne 0 1), .queue (.enter 1),
    .onRead refusedText, .queue (.enter 0), .queue (.notifyNone 0), .doWorkQueue (.loadData []) 0,
    .popTask, .queue (.enter 1), .doWorkQueue (.loadData []) 0]

def voted : State := (Trans.run (step Ptree.ofJson) start voteRun).get (by decide +kernel)

theorem tasks_executed_voted :
    Trans.emits (step Ptree.ofJson) (read Ptree.ofJson) start voteRun =
        (Trans.emits (step Ptree.ofJson) (executed Ptree.ofJson) start voteRun).map (·.task) ++ outstanding voted ∧
      ∀ e ∈ Trans.emits (step Ptree.ofJson) (executed Ptree.ofJson) start voteRun, OwnResult Ptree.ofJson e :=
  tasks_executed_in_order Ptree.ofJson (Option.some_get _).symm

/-! ### Going on -/

section Next

variable {s : State} {a b : QueuePc}

theorem step_push {ti : TasksInfo} (hs : Inv readJson s) (h : s.queue.threads = [.enter (.pushTask ti), b]) :
    step readJson s (.queue (.enter 0)) = some (s.to (s.queue.data.pushTask ti) (.notifyOne none) b) := by
  simp [step, isCall, queueStep, Monitor.step, h, Monitor.Pc.ready, WorkQueue.sect, hs.going, After.pc, popped,
    State.to]

theorem step_notifyOne (h : s.queue.threads = [.notifyOne none, .waiting .popTask]) :
    step readJson s (.queue (.notifyOne 0 1)) = some (s.to s.queue.data .idle (.woken .popTask)) := by
  simp [step, isCall, queueStep, Monitor.step, h, popped, State.to, Pc.next]

theorem step_notifyNone (h : s.queue.threads = [.notifyOne none, b]) (hb : b.isWaiting = false) :
    step readJson s (.queue (.notifyNone 0)) = some (s.to s.queue.data .idle b) := by
  have ha : (Monitor.Pc.notifyOne (none : Option QueueOp)).isWaiting = false := rfl
  simp [step, isCall, queueStep, Monitor.step, h, ha, hb, popped, State.to, Pc.next]

theorem step_call (h : s.queue.threads = [a, .idle]) (htask : s.task = none) :
    step readJson s .popTask = some (s.to s.queue.data a (.enter .popTask)) := by
  simp [step, queueStep, Monitor.step, h, htask, State.to]

theorem step_pop {ti : TasksInfo} {tasks : List TasksInfo} (h : s.queue.threads = [a, b])
    (hb : b.ready = some .popTask) (htasks : s.queue.data.tasks = ti :: tasks) :
    step readJson s (.queue (.enter 1)) =
      some { s.to { s.queue.data with tasks := tasks } a .idle with task := some ti } := by
  simp [step, isCall, queueStep, Monitor.step, h, hb, WorkQueue.sect, WorkQueue.popTask, htasks, After.pc, popped,
    State.to]

theorem step_execute {m : AccountMgr} {joined : Int} {ti : TasksInfo} {r : Str} (htask : s.task = some ti)
    (hr : doWorkQueue readJson m joined ti.description s.result = .ok r) :
    step readJson s (.doWorkQueue m joined) = some { s with task := none, result := r } := by
  simp only [step, htask, hr]

end Next

def ioWeight : QueuePc → ℕ
  | .enter _ => 6
  | .notifyOne _ => 1
  | _ => 0

def workerWeight : QueuePc → ℕ
  | .idle => 2
  | .waiting _ => 2
  | .enter _ => 1
  | .woken _ => 1
  | _ => 0

/-- How far the threads are from having executed all: at most four steps for a task in
the queue. -/
def distance (s : State) : ℕ :=
  4 * s.queue.data.tasks.length + 2 * s.task.toList.length + (s.queue.threads.head?.map ioWeight).getD 0 +
    (s.queue.threads.getLast?.map workerWeight).getD 0

/-- A step of one of the threads in the queue: no payload is read, and `do_work_queue`
does nothing. -/
def Act.ofQueue : Act → Bool
  | .popTask | .queue _ => true
  | .onRead _ | .doWorkQueue _ _ => false

/-- A step that reads no payload, where the calls of `do_work_queue` come back as
`Returns` says: from a state, with the accounts and the count they have found. -/
def Granted (Returns : State → AccountMgr → Int → Prop) (s : State) : Act → Prop
  | .popTask | .queue _ => True
  | .onRead _ => False
  | .doWorkQueue m joined => Returns s m joined

/-- All that was read is executed, or `do_work_queue` comes back with an exception. -/
def Finished (Returns : State → AccountMgr → Int → Prop) (s : State) : Prop :=
  outstanding s = [] ∨ ∃ ti m joined e, s.task = some ti ∧ Returns s m joined ∧
    doWorkQueue readJson m joined ti.description s.result = .error e

/-- Nobody waits while there is a task and nobody to see to it. -/
theorem not_waiting {s : State} (hs : Inv readJson s) (h : s.queue.threads = [.idle, .waiting .popTask]) :
    s.queue.data.tasks = [] := by
  have hle := WorkQueue.signals.items_le hs.reach (o := WorkQueue.Op.popTask) (by rw [h]; simp)
  rw [h] at hle
  simpa [Monitor.Pc.isNotifyOne, Monitor.Pc.isWoken] using hle

/-- What is outstanding stays so in the queue. -/
theorem outstanding_ofQueue {s s' : State} {a : Act} (hs : Inv readJson s) (ha : a.ofQueue = true)
    (h : step readJson s a = some s') : outstanding s' = outstanding s := by
  have hstep := outstanding_step readJson hs h
  cases a with
  | popTask | queue =>
    simp only [read, executed, List.append_nil, List.map_nil, List.nil_append] at hstep
    exact hstep.symm
  | onRead | doWorkQueue => cases ha

/-- **One of the threads goes on** in the queue, if the worker has not the next task. -/
theorem exists_nearer {s : State} (hs : Inv readJson s) (hne : s.task ≠ (outstanding s).head?) :
    ∃ a s', a.ofQueue = true ∧ step readJson s a = some s' ∧ distance s' < distance s := by
  obtain ⟨x, y, hxy, hx, hy, hidle⟩ := hs.threads
  have htask : s.task = none := by
    rcases htask : s.task with _ | ti
    · rfl
    · exact absurd (by simp [outstanding, htask]) hne
  cases hx with
  | push ti hread =>
    refine ⟨_, _, rfl, step_push readJson hs hxy, ?_⟩
    simp [distance, hxy, State.to, WorkQueue.pushTask, hs.going, ioWeight]
    omega
  | notify =>
    rcases hw : y.isWaiting
    · refine ⟨_, _, rfl, step_notifyNone readJson hxy hw, ?_⟩
      simp [distance, hxy, State.to, ioWeight]
    · obtain rfl : y = .waiting .popTask := by cases hy <;> first | rfl | cases hw
      refine ⟨_, _, rfl, step_notifyOne readJson hxy, ?_⟩
      simp [distance, hxy, State.to, ioWeight, workerWeight]
  | idle =>
    have hsome : s.queue.data.tasks ≠ [] := by
      intro hnil
      exact hne (by simp [outstanding, hxy, htask, hnil, pushing])
    obtain ⟨ti, tasks, htasks⟩ := List.exists_cons_of_ne_nil hsome
    cases hy with
    | idle =>
      refine ⟨_, _, rfl, step_call readJson hxy htask, ?_⟩
      simp [distance, hxy, State.to, workerWeight]
    | enter =>
      refine ⟨_, _, rfl, step_pop readJson hxy rfl htasks, ?_⟩
      simp [distance, hxy, State.to, workerWeight, htasks, htask]
      omega
    | woken =>
      refine ⟨_, _, rfl, step_pop readJson hxy rfl htasks, ?_⟩
      simp [distance, hxy, State.to, workerWeight, htasks, htask]
      omega
    | waiting => exact absurd (not_waiting readJson hs hxy) hsome

/-- The worker gets the next task, whatever `do_work_queue` does. -/
theorem next_task {s : State} (hs : Inv readJson s) :
    ∃ s', Trans.Reach (step readJson) (fun _ a => a.ofQueue = true) s s' ∧ outstanding s' = outstanding s ∧
      s'.task = (outstanding s).head? := by
  refine Trans.Reach.eventually (I := fun s' => Inv readJson s' ∧ outstanding s' = outstanding s)
    (F := fun s' => outstanding s' = outstanding s ∧ s'.task = (outstanding s).head?) distance ?_ ⟨hs, rfl⟩
  rintro s' ⟨hs', hsame⟩
  by_cases hnext : s'.task = (outstanding s).head?
  · exact Or.inl ⟨hsame, hnext⟩
  · obtain ⟨a, s'', ha, hstep, hlt⟩ := exists_nearer readJson hs' (hsame ▸ hnext)
    exact Or.inr ⟨a, s'', ha, hstep,
      ⟨inv_step readJson hs' hstep, (outstanding_ofQueue readJson hs' ha hstep).trans hsame⟩, hlt⟩

/-- A step from a state that is not finished. -/
theorem exists_granted {Returns : State → AccountMgr → Int → Prop}
    (hreturns : ∀ s, s.task.isSome → ∃ m joined, Returns s m joined) {s : State} (hs : Inv readJson s)
    (hf : ¬ Finished readJson Returns s) :
    ∃ a s', Granted Returns s a ∧ step readJson s a = some s' ∧ distance s' < distance s := by
  by_cases hnext : s.task = (outstanding s).head?
  · rcases htask : s.task with _ | ti
    · have hnil : outstanding s = [] := List.head?_eq_none_iff.mp (hnext.symm.trans htask)
      exact absurd (Or.inl hnil) hf
    · -- the call comes back
      obtain ⟨m, joined, hr⟩ := hreturns s (by rw [htask]; rfl)
      rcases hdo : doWorkQueue readJson m joined ti.description s.result with e | r
      · exact absurd (Or.inr ⟨ti, m, joined, e, htask, hr, hdo⟩) hf
      · refine ⟨.doWorkQueue m joined, _, hr, step_execute readJson htask hdo, ?_⟩
        simp [distance, htask]
  · obtain ⟨a, s', ha, hstep, hlt⟩ := exists_nearer readJson hs hnext
    refine ⟨a, s', ?_, hstep, hlt⟩
    cases a with
    | popTask | queue => exact trivial
    | onRead | doWorkQueue => cases ha

/-- **Every task gets to the worker, and is executed if the calls come back.** From
wherever the threads are, without another payload and without a step of `do_work_queue`,
they go on until the worker has the next task. And if each call of `do_work_queue` comes
back, they go on until all that was read is executed or one comes back with an exception. -/
theorem tasks_get_executed {as : List Act} {s : State} (h : Trans.run (step readJson) start as = some s) :
    (∃ s', Trans.Reach (step readJson) (fun _ a => a.ofQueue = true) s s' ∧ outstanding s' = outstanding s ∧
      s'.task = (outstanding s).head?) ∧
    ∀ Returns : State → AccountMgr → Int → Prop, (∀ s, s.task.isSome → ∃ m joined, Returns s m joined) →
      ∃ s', Trans.Reach (step readJson) (Granted Returns) s s' ∧ Finished readJson Returns s' := by
  obtain ⟨-, hs, -⟩ := run_worker readJson h
  refine ⟨next_task readJson hs, fun Returns hreturns => ?_⟩
  refine Trans.Reach.eventually (I := Inv readJson) distance (fun s hs => ?_) hs
  by_cases hf : Finished readJson Returns s
  · exact Or.inl hf
  · obtain ⟨a, s', ha, hstep, hlt⟩ := exists_granted readJson hreturns hs hf
    exact Or.inr ⟨a, s', ha, hstep, inv_step readJson hs hstep, hlt⟩

/-- A vote is in the queue, the worker waits and nobody is notified yet. -/
def pushed : State := (Trans.run (step Ptree.ofJson) start (voteRun.take 4)).get (by decide +kernel)

/-- There are no accounts, and nobody votes. -/
def noAccounts (_ : State) (m : AccountMgr) (joined : Int) : Prop := m = .loadData [] ∧ joined = 0

theorem tasks_get_executed_pushed :
    (∃ s', Trans.Reach (step Ptree.ofJson) (fun _ a => a.ofQueue = true) pushed s' ∧
      s'.task = (outstanding pushed).head?) ∧
    ∃ s', Trans.Reach (step Ptree.ofJson) (Granted noAccounts) pushed s' ∧ Finished Ptree.ofJson noAccounts s' := by
  obtain ⟨⟨s', hr, -, htask⟩, hgranted⟩ := tasks_get_executed (s := pushed) Ptree.ofJson (Option.some_get _).symm
  exact ⟨⟨s', hr, htask⟩, hgranted noAccounts fun _ _ => ⟨.loadData [], 0, rfl, rfl⟩⟩

end Pipeline
end ScheduleCenter
