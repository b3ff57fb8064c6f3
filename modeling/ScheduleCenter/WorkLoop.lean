/-
# The worker's loop: every result to its task

`main_task::start_work_queue` pops a task, lets `do_work_queue` execute its text
and hands the string `result` to `set_result` under the id of the task. The
string is one variable of the loop; `do_work_queue` leaves it as it is where the
command is none it knows. On the other thread `on_read` puts tasks into the queue.

`on_read` and `do_work_queue` parse the same text up to its first zero, so what
was queued as a vote is executed as a vote, and its `do_task` writes the string
with the id and the command it finds in that text. So in every run without an
exception the tasks are executed in the order they were queued, each with a
result of its own that reads as JSON with its id and its command
(`results_own`).

Key definitions: `Ptree.ofJson`, `MainTask.Worker`, `MainTask.step`, `MainTask.OwnResult`.
Key theorems: `ofJson_voteResult`, `doWorkQueue_queued`, `results_own`.
-/
import ScheduleCenter.TaskText
import ScheduleCenter.WorkQueue
import ScheduleCenter.Base.JsonObject
import ScheduleCenter.Base.Trans

namespace ScheduleCenter

open Outcome

/-! ### Trees of JSON texts -/

/-- A value as a tree: the texts of strings, of numbers and of the three names;
members under their keys, elements under empty ones. -/
def Ptree.value : ℕ → JsonText.Parser Ptree
  | 0, _ => none
  | fuel + 1, s =>
    match s with
    | 34 :: _ => (JsonText.string s).map fun p => (.node p.1 [], p.2)
    | 91 :: _ => (JsonText.array (value fuel) s).map fun p => (.node [] (p.1.map fun t => ([], t)), p.2)
    | 123 :: _ => (JsonText.object (value fuel) s).map fun p => (.node [] p.1, p.2)
    | 116 :: 114 :: 117 :: 101 :: r => some (.node (Str.of "true") [], r)
    | 102 :: 97 :: 108 :: 115 :: 101 :: r => some (.node (Str.of "false") [], r)
    | 110 :: 117 :: 108 :: 108 :: r => some (.node (Str.of "null") [], r)
    | _ => (JsonText.number s).map fun p => (.node p.1 [], p.2)

/-- A text that is one value of JSON, as a tree. -/
def Ptree.ofJson (s : Str) : Option Ptree :=
  (value (s.length + 1) (JsonText.skip s)).bind fun p => if JsonText.skip p.2 = [] then some p.1 else none

theorem Ptree.value_signed (fuel : ℕ) (n : Int) {r : Str} (hr : JsonText.Ends r) :
    value (fuel + 1) (Decimal.signed n ++ r) = some (.node (Decimal.signed n) [], r) := by
  have hnumber := JsonText.number_signed n hr
  obtain ⟨c, s, hcs⟩ := List.exists_cons_of_ne_nil (Decimal.signed_ne_nil n)
  have hc := Decimal.mem_signed (hcs ▸ List.mem_cons_self : c ∈ Decimal.signed n)
  rw [hcs, List.cons_append] at hnumber ⊢
  rw [value]
  · rw [hnumber]
    rfl
  all_goals
    intros
    rename_i h
    rw [(List.cons.inj h).1] at hc
    exact absurd hc (by decide)

theorem Ptree.value_quoted (fuel : ℕ) {w : Str} (hw : w.all JsonText.plain) (r : Str) :
    value (fuel + 1) (JsonText.quoted w ++ r) = some (.node w [], r) := by
  have hstring := JsonText.string_quoted hw r
  rw [JsonText.quoted, List.cons_append] at hstring ⊢
  rw [value, hstring]
  rfl

/-! ### The result of a vote -/

/-- A member that is a number. -/
def intMember (key : Str) (n : Int) : JsonText.Member Ptree := ⟨key, Decimal.signed n, .node (Decimal.signed n) []⟩

/-- A member that is a string, pasted. -/
def strMember (key w : Str) : JsonText.Member Ptree := ⟨key, JsonText.quoted w, .node w []⟩

/-- The members of a result. -/
def voteMembers (id cmd code count : Int) (msg : Str) : List (JsonText.Member Ptree) :=
  [intMember keyTaskId id, intMember keyTaskCmd cmd, intMember (Str.of "result_code") code,
    intMember (Str.of "success count") count, strMember (Str.of "msg") msg]

/-- `kvote_ret_fmt` pastes them into an object. -/
theorem format_kvoteRetFmt (id cmd code count : Int) (msg : Str) :
    format kvoteRetFmt [Decimal.signed id, Decimal.signed cmd, Decimal.signed code, Decimal.signed count, msg] =
      JsonText.pasteObject (voteMembers id cmd code count msg) := by
  simp [format, kvoteRetFmt, Str.of, pieces, Piece.print, Decimal.digit, voteMembers, intMember, strMember,
    keyTaskId, keyTaskCmd, JsonText.pasteObject, JsonText.pasteMember, JsonText.quoted]

theorem opens_signed (n : Int) : JsonText.Opens (Decimal.signed n) := by
  obtain ⟨c, s, hcs⟩ := List.exists_cons_of_ne_nil (Decimal.signed_ne_nil n)
  refine ⟨c, s, hcs, ?_⟩
  rcases Decimal.mem_signed (hcs ▸ List.mem_cons_self : c ∈ Decimal.signed n) with rfl | hdigit
  · decide
  · have hne : ∀ d : UInt8, Decimal.isDigit d = false → c ≠ d := by
      rintro d hd rfl
      rw [hd] at hdigit
      cases hdigit
    simp [JsonText.isBlank, hne 32 rfl, hne 9 rfl, hne 10 rfl, hne 13 rfl, hne 93 rfl]

theorem read_intMember (fuel : ℕ) {key : Str} (hkey : key.all JsonText.plain) (n : Int) :
    (intMember key n).Read (Ptree.value (fuel + 1)) :=
  ⟨hkey, opens_signed n, fun _ hr => Ptree.value_signed fuel n hr⟩

theorem read_strMember (fuel : ℕ) {key w : Str} (hkey : key.all JsonText.plain) (hw : w.all JsonText.plain) :
    (strMember key w).Read (Ptree.value (fuel + 1)) :=
  ⟨hkey, JsonText.opens_quoted w, fun r _ => Ptree.value_quoted fuel hw r⟩

theorem read_voteMembers (fuel : ℕ) (id cmd code count : Int) {msg : Str} (hmsg : msg.all JsonText.plain) :
    ∀ m ∈ voteMembers id cmd code count msg, m.Read (Ptree.value (fuel + 1)) := by
  have hid : keyTaskId.all JsonText.plain := by decide
  have hcmd : keyTaskCmd.all JsonText.plain := by decide
  have hcode : (Str.of "result_code").all JsonText.plain := by decide
  have hcount : (Str.of "success count").all JsonText.plain := by decide
  have hkey : (Str.of "msg").all JsonText.plain := by decide
  simp only [voteMembers, List.forall_mem_cons]
  exact ⟨read_intMember fuel hid id, read_intMember fuel hcmd cmd, read_intMember fuel hcode code,
    read_intMember fuel hcount count, read_strMember fuel hkey hmsg, by simp⟩

/-- A pasted object is read as its members. -/
theorem ofJson_pasteObject {l : List (JsonText.Member Ptree)} (hne : l ≠ [])
    (hl : ∀ fuel, ∀ m ∈ l, m.Read (Ptree.value (fuel + 1))) :
    Ptree.ofJson (JsonText.pasteObject l) = some (.node [] (l.map fun m => (m.key, m.value))) := by
  have hskip : JsonText.skip (JsonText.pasteObject l) = JsonText.pasteObject l := rfl
  obtain ⟨fuel, hfuel⟩ : ∃ fuel, (JsonText.pasteObject l).length = fuel + 1 := ⟨_, rfl⟩
  have hobject := JsonText.object_pasted (hl fuel) hne []
  rw [List.append_nil, ← hfuel] at hobject
  have hvalue : Ptree.value ((JsonText.pasteObject l).length + 1) (JsonText.pasteObject l) =
      (JsonText.object (Ptree.value (JsonText.pasteObject l).length) (JsonText.pasteObject l)).map
        fun p => (.node [] p.1, p.2) := rfl
  rw [Ptree.ofJson, hskip, hvalue, hobject]
  rfl

/-- A result reads as JSON, with the id and the command it was written with. -/
theorem ofJson_voteResult {id cmd : Int} (hid : -2 ^ 31 ≤ id ∧ id < 2 ^ 31) (hcmd : -2 ^ 31 ≤ cmd ∧ cmd < 2 ^ 31)
    (code count : Int) {msg : Str} (hmsg : msg.all JsonText.plain) :
    ∃ pt, Ptree.ofJson (format kvoteRetFmt
        [Decimal.signed id, Decimal.signed cmd, Decimal.signed code, Decimal.signed count, msg]) = some pt ∧
      pt.int keyTaskId = some id ∧ pt.int keyTaskCmd = some cmd := by
  have hcons : voteMembers id cmd code count msg ≠ [] := List.cons_ne_nil _ _
  have hne : keyTaskId ≠ keyTaskCmd := by decide
  rw [format_kvoteRetFmt, ofJson_pasteObject hcons fun fuel => read_voteMembers fuel id cmd code count hmsg]
  refine ⟨_, rfl, ?_, ?_⟩
  · simp [Ptree.int, Ptree.str, Ptree.find, Ptree.data, voteMembers, intMember, Ptree.streamInt_signed hid.1 hid.2]
  · simp [Ptree.int, Ptree.str, Ptree.find, Ptree.data, voteMembers, intMember, hne,
      Ptree.streamInt_signed hcmd.1 hcmd.2]

/-! ### The loop -/

namespace MainTask

/-- The queue, the task that is popped and the string of the loop. -/
structure Worker where
  queue : WorkQueue TasksInfo
  task : Option TasksInfo
  result : Str

inductive WorkerAct
  /-- A connection hands a payload to `on_read`. -/
  | onRead (data : Str)
  | popTask
  /-- The task is executed: `do_task` counts with these accounts, and finds
  this `success_count` when the sessions have returned. -/
  | doWorkQueue (m : AccountMgr) (joined : Int)

/-- What is executed and then set as a result. -/
structure Executed where
  task : TasksInfo
  result : Str
  mgr : AccountMgr
  joined : Int

/-- At the start of the loop. -/
def start : Worker := ⟨.new, none, []⟩

variable (readJson : ReadJson)

/-- An exception that leaves `on_read` or `do_work_queue` ends the process. -/
def step (s : Worker) : WorkerAct → Option Worker
  | .onRead data =>
    match ScheduleConnection.onRead readJson data with
    | .ok (.addTask ti) => some { s with queue := s.queue.pushTask ti }
    | .ok _ => some s
    | .error _ => none
  | .popTask =>
    match s.task, s.queue.popTask with
    | none, (.task ti, queue) => some { s with queue := queue, task := some ti }
    | _, _ => none
  | .doWorkQueue m joined =>
    match s.task with
    | none => none
    | some ti =>
      match doWorkQueue readJson m joined ti.description s.result with
      | .ok r => some { s with task := none, result := r }
      | .error _ => none

/-- The task a step queues. -/
def queued (s : Worker) : WorkerAct → List TasksInfo
  | .onRead data =>
    match ScheduleConnection.onRead readJson data with
    | .ok (.addTask ti) => WorkQueue.accepted (.pushTask ti) s.queue
    | _ => []
  | _ => []

/-- What a step executes: the call `set_result(task.id, result)` follows. -/
def executed (s : Worker) : WorkerAct → List Executed
  | .doWorkQueue m joined =>
    match s.task with
    | none => []
    | some ti =>
      match doWorkQueue readJson m joined ti.description s.result with
      | .ok r => [⟨ti, r, m, joined⟩]
      | .error _ => []
  | _ => []

/-- The result is of the task's own `do_task` and reads as JSON with the id
under which `on_read` queued the task, and its command. -/
structure OwnResult (e : Executed) : Prop where
  queued : ScheduleConnection.onRead readJson e.task.description = .ok (.addTask e.task)
  own : ∃ pt, readJson (cStr e.task.description) = some pt ∧ WxVote.doTask e.mgr e.joined pt = .ok e.result
  credited : ∃ pt, Ptree.ofJson e.result = some pt ∧ pt.int keyTaskId = some e.task.id ∧
    pt.int keyTaskCmd = some cmdScheWxVote

/-! ### One task -/

/-- What `on_read` queues: the text as it is, with the id in it. -/
theorem onRead_addTask {data : Str} {ti : TasksInfo} (h : ScheduleConnection.onRead readJson data = .ok (.addTask ti)) :
    ti.description = data ∧ ∃ pt, readJson (cStr data) = some pt ∧ pt.int keyTaskCmd = some cmdScheWxVote ∧
      pt.int keyTaskId = some ti.id := by
  by_cases hkeys : ∀ pt, readJson (cStr data) = some pt → pt.find keyTaskCmd = none ∨ pt.find keyTaskId = none
  · rw [onRead_nothing readJson hkeys] at h
    cases h
  · push Not at hkeys
    obtain ⟨pt, hread, hcmd, hid⟩ := hkeys
    rw [← ends_eq_iff, ends_onRead readJson hread hcmd hid] at h
    obtain ⟨cmd, hint, hvote, hother⟩ := h
    by_cases hc : cmd = cmdScheWxVote
    · obtain ⟨n, hn, he⟩ := hvote hc
      cases he
      exact ⟨rfl, pt, hread, hc ▸ hint, hn⟩
    · obtain ⟨hget, hnothing⟩ := hother hc
      by_cases hg : cmd = cmdScheWxGetResult
      · obtain ⟨n, -, he⟩ := hget hg
        cases he
      · cases hnothing hg

/-- A task that was queued is executed as a vote: the string of the loop does
not come into it. -/
theorem doWorkQueue_queued {ti : TasksInfo} {pt : Ptree} (hread : readJson (cStr ti.description) = some pt)
    (hcmd : pt.int keyTaskCmd = some cmdScheWxVote) (m : AccountMgr) (joined : Int) (result : Str) {r : Str} :
    doWorkQueue readJson m joined ti.description result = .ok r ↔ WxVote.doTask m joined pt = .ok r := by
  simp only [← ends_eq_iff, doWorkQueue, ends_bind, ends_orThrow, hread, Ptree.ends_getInt, hcmd, Option.some.injEq,
    exists_eq_left', if_true]

/-- A vote's result has the id and the command of its tree. -/
theorem doTask_result {m : AccountMgr} {joined : Int} {pt : Ptree} {r : Str} (h : WxVote.doTask m joined pt = .ok r) :
    ∃ id cmd code count msg, pt.int keyTaskId = some id ∧ pt.int keyTaskCmd = some cmd ∧ msg.all JsonText.plain ∧
      r = format kvoteRetFmt
        [Decimal.signed id, Decimal.signed cmd, Decimal.signed code, Decimal.signed count, msg] := by
  simp only [← ends_eq_iff, WxVote.doTask, ends_bind, ends_ite, ends_pure, Ptree.ends_getInt, Ptree.ends_getString] at h
  obtain ⟨target, -, url, -, hfew, hmany⟩ := h
  by_cases hcount : (m.getIdleNotVoteCount url : Int) < target
  · obtain ⟨id, hid, cmd, hcmd, hr⟩ := hfew hcount
    exact ⟨id, cmd, _, _, _, hid, hcmd, by decide, hr.symm⟩
  · obtain ⟨id, hid, cmd, hcmd, hr⟩ := hmany hcount
    exact ⟨id, cmd, _, _, _, hid, hcmd, by decide, hr.symm⟩

theorem int_range {pt : Ptree} {key : Str} {n : Int} (h : pt.int key = some n) : -2 ^ 31 ≤ n ∧ n < 2 ^ 31 := by
  obtain ⟨w, -, hw⟩ := Option.bind_eq_some_iff.mp h
  exact Ptree.streamInt_range hw

/-- What comes of a queued task is its own. -/
theorem ownResult {ti : TasksInfo} (hti : ScheduleConnection.onRead readJson ti.description = .ok (.addTask ti))
    {m : AccountMgr} {joined : Int} {result r : Str}
    (h : doWorkQueue readJson m joined ti.description result = .ok r) : OwnResult readJson ⟨ti, r, m, joined⟩ := by
  obtain ⟨-, pt, hread, hcmd, hid⟩ := onRead_addTask readJson hti
  have hdo := (doWorkQueue_queued readJson hread hcmd m joined result).mp h
  obtain ⟨id, cmd, code, count, msg, hid', hcmd', hmsg, hr⟩ := doTask_result hdo
  obtain rfl := Option.some.inj (hid'.symm.trans hid)
  obtain rfl := Option.some.inj (hcmd'.symm.trans hcmd)
  refine ⟨hti, ⟨pt, hread, hdo⟩, ?_⟩
  show ∃ pt, Ptree.ofJson r = some pt ∧ _
  rw [hr]
  exact ofJson_voteResult (int_range hid) (int_range hcmd) code count hmsg

/-! ### Every run -/

/-- The tasks queued and not yet executed. -/
def waiting (s : Worker) : List TasksInfo := s.task.toList ++ s.queue.tasks

/-- What a step does. -/
inductive StepCase (s : Worker) : WorkerAct → Worker → Prop
  | addTask (data : Str) (ti : TasksInfo) (h : ScheduleConnection.onRead readJson data = .ok (.addTask ti)) :
      StepCase s (.onRead data) { s with queue := s.queue.pushTask ti }
  | other (data : Str) (h : ∀ ti, ScheduleConnection.onRead readJson data ≠ .ok (.addTask ti)) :
      StepCase s (.onRead data) s
  | pop (ti : TasksInfo) (tasks : List TasksInfo) (hidle : s.task = none) (hqueue : s.queue.tasks = ti :: tasks) :
      StepCase s .popTask { s with queue := { s.queue with tasks := tasks }, task := some ti }
  | execute (m : AccountMgr) (joined : Int) (ti : TasksInfo) (r : Str) (htask : s.task = some ti)
      (h : doWorkQueue readJson m joined ti.description s.result = .ok r) :
      StepCase s (.doWorkQueue m joined) { s with task := none, result := r }

theorem step_cases {s s' : Worker} {a : WorkerAct} (h : step readJson s a = some s') : StepCase readJson s a s' := by
  rcases a with data | _ | ⟨m, joined⟩
  · simp only [step] at h
    split at h
    case h_1 ti hti =>
      cases h
      exact .addTask data ti hti
    case h_2 call hne hcall =>
      cases h
      refine .other data fun ti hti => ?_
      rw [hcall] at hti
      exact hne ti (Except.ok.inj hti)
    case h_3 => cases h
  · simp only [step] at h
    split at h
    case h_1 ti queue hidle hpop =>
      cases h
      rcases htasks : s.queue.tasks with _ | ⟨t, tasks⟩
      · simp only [WorkQueue.popTask, htasks] at hpop
        split at hpop <;> cases hpop
      · simp only [WorkQueue.popTask, htasks] at hpop
        cases hpop
        exact .pop ti tasks hidle htasks
    case h_2 => cases h
  · simp only [step] at h
    split at h
    · cases h
    · rename_i ti htask
      split at h
      case h_1 r hr =>
        cases h
        exact .execute m joined ti r htask hr
      case h_2 => cases h

/-- All that wait were queued by `on_read`. -/
def Loop (s : Worker) : Prop :=
  ∀ ti ∈ waiting s, ScheduleConnection.onRead readJson ti.description = .ok (.addTask ti)

theorem loop_start : Loop readJson start := by
  intro ti hti
  cases hti

/-- The queue keeps its order through a step. -/
theorem waiting_step {s s' : Worker} {a : WorkerAct} (h : step readJson s a = some s') :
    waiting s ++ queued readJson s a = (executed readJson s a).map (·.task) ++ waiting s' := by
  cases step_cases readJson h with
  | addTask data ti hti =>
    have hqueued : queued readJson s (.onRead data) = WorkQueue.accepted (.pushTask ti) s.queue := by
      simp only [queued, hti]
    have horder := WorkQueue.sect_order (.pushTask ti) s.queue
    simp only [WorkQueue.removed, WorkQueue.sect, List.nil_append] at horder
    rw [hqueued, waiting, List.append_assoc, horder]
    rfl
  | other data hdata =>
    have hqueued : queued readJson s (.onRead data) = [] := by
      rcases hcall : ScheduleConnection.onRead readJson data with e | call
      · simp only [queued, hcall]
      · rcases call with _ | ti | id
        · simp only [queued, hcall]
        · exact absurd hcall (hdata ti)
        · simp only [queued, hcall]
    have hexecuted : executed readJson s (.onRead data) = [] := rfl
    rw [hqueued, hexecuted, List.append_nil, List.map_nil, List.nil_append]
  | pop ti tasks hidle hqueue => simp [waiting, queued, executed, hidle, hqueue]
  | execute m joined ti r htask hr => simp [waiting, queued, executed, htask, hr]

theorem queued_mem {s : Worker} {a : WorkerAct} {ti : TasksInfo} (h : ti ∈ queued readJson s a) :
    ScheduleConnection.onRead readJson ti.description = .ok (.addTask ti) := by
  rcases a with data | _ | ⟨m, joined⟩
  · simp only [queued] at h
    split at h
    · rename_i ti' hti'
      have heq : ti = ti' := by
        simp only [WorkQueue.accepted] at h
        split_ifs at h
        · cases h
        · exact List.mem_singleton.mp h
      rw [heq, (onRead_addTask readJson hti').1]
      exact hti'
    · cases h
  · cases h
  · cases h

theorem loop_step {s s' : Worker} {a : WorkerAct} (hs : Loop readJson s) (h : step readJson s a = some s') :
    Loop readJson s' := by
  intro ti hti
  have hmem : ti ∈ waiting s ++ queued readJson s a := by
    rw [waiting_step readJson h]
    exact List.mem_append_right _ hti
  rcases List.mem_append.mp hmem with hold | hnew
  · exact hs ti hold
  · exact queued_mem readJson hnew

/-- What is executed in a step was waiting. -/
theorem executed_own {s s' : Worker} {a : WorkerAct} (hs : Loop readJson s) (h : step readJson s a = some s') :
    ∀ e ∈ executed readJson s a, OwnResult readJson e := by
  intro e he
  cases step_cases readJson h with
  | addTask data ti hti => cases he
  | other data hdata => cases he
  | pop ti tasks hidle hqueue => cases he
  | execute m joined ti r htask hr =>
    have hti : ti ∈ waiting s := by simp [waiting, htask]
    simp only [executed, htask, hr, List.mem_singleton] at he
    exact he ▸ ownResult readJson (hs ti hti) hr

/-- **Every result goes to its task.** In a run without an exception the
tasks are executed in the order in which they were queued, each with a result
of its own. -/
theorem results_own {acts : List WorkerAct} {s : Worker} (h : Trans.run (step readJson) start acts = some s) :
    Trans.emits (step readJson) (queued readJson) start acts =
        (Trans.emits (step readJson) (executed readJson) start acts).map (·.task) ++ waiting s ∧
      ∀ e ∈ Trans.emits (step readJson) (executed readJson) start acts, OwnResult readJson e := by
  constructor
  · have horder := Trans.run_emits waiting (fun _ _ _ hstep => waiting_step readJson hstep) h
    rw [Trans.emits_map _ h] at horder
    exact horder
  · have hinv := Trans.emits_invariant (f := executed readJson) (P := fun _ _ => True)
      (I := fun s g => Loop readJson s ∧ ∀ e ∈ g, OwnResult readJson e)
      (fun s g a s' hs _ hstep => ⟨loop_step readJson hs.1 hstep, fun e he => ?_⟩)
      (g := []) ⟨loop_start readJson, by simp⟩ (Trans.along_of_forall (fun _ _ => trivial) acts _) h
    · exact hinv.2
    · rcases List.mem_append.mp he with hold | hnew
      · exact hs.2 e hold
      · exact executed_own readJson hs.1 hstep e hnew

/-- A vote for no one. -/
def voteText : Str :=
  Str.of "\x7b\"task_cmd\":268435456,\"task_id\":7,\"votes_cnt\":0,\"url\":\"dQ==\"\x7d"

/-- A vote for which there are not accounts enough. -/
def refusedText : Str :=
  Str.of "\x7b\"task_cmd\":268435456,\"task_id\":8,\"votes_cnt\":1,\"url\":\"dQ==\"\x7d"

/-- Both come in, and are popped and executed in turn. -/
def voteRun : List WorkerAct :=
  [.onRead voteText, .onRead refusedText, .popTask, .doWorkQueue (.loadData []) 0, .popTask,
    .doWorkQueue (.loadData []) 0]

def afterVote : Worker := (Trans.run (step Ptree.ofJson) start voteRun).get (by decide +kernel)

theorem results_own_vote :
    Trans.emits (step Ptree.ofJson) (queued Ptree.ofJson) start voteRun =
        (Trans.emits (step Ptree.ofJson) (executed Ptree.ofJson) start voteRun).map (·.task) ++ waiting afterVote ∧
      ∀ e ∈ Trans.emits (step Ptree.ofJson) (executed Ptree.ofJson) start voteRun, OwnResult Ptree.ofJson e :=
  results_own Ptree.ofJson (Option.some_get _).symm

end MainTask
end ScheduleCenter
