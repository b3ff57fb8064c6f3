/-
# The device table and the vote counters under their mutexes

`device_mgr` guards `devices_pro` with `rwmutex_`, and each `wx_vote` its counters
with `suc_cnt_mutex`. All calls take one lock but `need_wait_vote`: it holds
`suc_cnt_mutex` shared while `get_status_count` locks `rwmutex_` (`Prog.code`).

Nobody holds `rwmutex_` while locking `suc_cnt_mutex`, so threads that make any calls,
one after the other, never get stuck and come to their ends (`calls_never_stuck`). What their
locks, reads and writes come to in any order is what the calls come to one at a time,
`need_wait_vote` with both tables of one moment (`calls_serial`): the calls of
`Server` may be taken as single steps.

Key definitions: `CounterLocks.Prog`, `CounterLocks.Prog.code`, `CounterLocks.Prog.call`, `CounterLocks.Serial.step`.
Key theorems: `CounterLocks.fits_code`, `CounterLocks.sect_code`, `CounterLocks.calls_never_stuck`,
`CounterLocks.calls_serial`.
-/
import ScheduleCenter.Base.TwoPhase
import ScheduleCenter.Server

namespace ScheduleCenter
namespace CounterLocks

open Mutexes

inductive Mutex
  /-- `device_mgr::rwmutex_`. -/
  | devices
  /-- `suc_cnt_mutex` of a task. -/
  | counter (k : ℕ)
deriving DecidableEq

/-- What a mutex guards. -/
abbrev Guarded : Mutex → Type
  | .devices => DeviceMgr
  | .counter _ => WxVote

/-- `rwmutex_` is locked under `suc_cnt_mutex`, and not the other way round. -/
def rank : Mutex → ℕ
  | .counter _ => 0
  | .devices => 1

abbrev LockCode := Code Guarded

/-- What a thread does: calls, each with what is done with its result. -/
inductive Prog
  | stop
  | setStatus (ip : Str) (status : DeviceStatus) (k : Prog)
  | getStatus (ip : Str) (k : DeviceStatus → Prog)
  | getStatusCount (status : DeviceStatus) (k : ℕ → Prog)
  | getDevicesProCopy (k : DeviceMgr → Prog)
  | addSucCount (v : ℕ) (n : Int) (k : Prog)
  | getSucCount (v : ℕ) (k : Int → Prog)
  | needVote (v : ℕ) (k : Bool → Prog)
  | needWaitVote (v : ℕ) (k : Bool → Prog)

/-! ### Lock by lock -/

/-- A call that changes what one mutex guards. -/
def writeCode (m : Mutex) (f : Guarded m → Guarded m) (k : LockCode) : LockCode :=
  .lock m true (.put m f (.unlock m k))

/-- A call that reads what one mutex guards. -/
def readCode (m : Mutex) (k : Guarded m → LockCode) : LockCode :=
  .lock m false (.get m fun d => .unlock m (k d))

/-- `need_wait_vote`: `get_status_count` is called under `suc_cnt_mutex`. -/
def needWaitVoteCode (v : ℕ) (k : Bool → LockCode) : LockCode :=
  .lock (.counter v) false (readCode .devices fun d =>
    .get (.counter v) fun c => .unlock (.counter v) (k (c.needWaitVote d)))

def Prog.code : Prog → LockCode
  | .stop => .done
  | .setStatus ip status k => writeCode .devices (fun d : DeviceMgr => d.setStatus ip status) k.code
  | .getStatus ip k => readCode .devices fun d : DeviceMgr => (k (d.getStatus ip)).code
  | .getStatusCount status k => readCode .devices fun d : DeviceMgr => (k (d.getStatusCount status)).code
  | .getDevicesProCopy k => readCode .devices fun d => (k d).code
  | .addSucCount v n k => writeCode (.counter v) (fun c : WxVote => c.addSucCount n) k.code
  | .getSucCount v k => readCode (.counter v) fun c : WxVote => (k c.successCount).code
  | .needVote v k => readCode (.counter v) fun c : WxVote => (k c.needVote).code
  | .needWaitVote v k => needWaitVoteCode v fun b => (k b).code

/-- The devices and the counters of the tasks. -/
structure Tables where
  devices : DeviceMgr
  votes : ℕ → WxVote

/-- What the mutexes guard. -/
def Tables.data (w : Tables) : ∀ m, Guarded m
  | .devices => w.devices
  | .counter k => w.votes k

/-- Threads that each do what a program says. -/
def threads (w : Tables) (progs : List Prog) : State Guarded := State.start w.data (progs.map Prog.code)

/-! ### Call by call -/

/-- A whole call, and what the thread does with its result. -/
def Prog.call : Prog → Tables → Option (Tables × Prog)
  | .stop, _ => none
  | .setStatus ip status k, w => some ({ w with devices := w.devices.setStatus ip status }, k)
  | .getStatus ip k, w => some (w, k (w.devices.getStatus ip))
  | .getStatusCount status k, w => some (w, k (w.devices.getStatusCount status))
  | .getDevicesProCopy k, w => some (w, k w.devices)
  | .addSucCount v n k, w => some ({ w with votes := Function.update w.votes v ((w.votes v).addSucCount n) }, k)
  | .getSucCount v k, w => some (w, k (w.votes v).successCount)
  | .needVote v k, w => some (w, k (w.votes v).needVote)
  | .needWaitVote v k, w => some (w, k ((w.votes v).needWaitVote w.devices))

structure Serial where
  tables : Tables
  progs : List Prog

/-- Thread `i` makes a call. -/
def Serial.step (u : Serial) (i : ℕ) : Option Serial :=
  (u.progs[i]?).bind fun q => (q.call u.tables).map fun r => ⟨r.1, u.progs.set i r.2⟩

/-! ### The discipline -/

theorem fits_writeCode {m : Mutex} {f : Guarded m → Guarded m} {k : LockCode} (hk : k.Fits rank [] true) :
    (writeCode m f k).Fits rank [] true := by
  refine ⟨rfl, fun _ h => (nomatch h), List.mem_singleton_self _, ⟨true, List.mem_singleton_self _⟩, ?_⟩
  have hdrop : Held.drop [(m, true)] m = [] := by simp [Held.drop]
  rw [hdrop]
  exact hk

theorem fits_readCode {m : Mutex} {k : Guarded m → LockCode} (hk : ∀ d, (k d).Fits rank [] true) :
    (readCode m k).Fits rank [] true := by
  refine ⟨rfl, fun _ h => (nomatch h), ⟨false, List.mem_singleton_self _⟩,
    fun d => ⟨⟨false, List.mem_singleton_self _⟩, ?_⟩⟩
  have hdrop : Held.drop [(m, false)] m = [] := by simp [Held.drop]
  rw [hdrop]
  exact hk d

theorem fits_needWaitVoteCode {v : ℕ} {k : Bool → LockCode} (hk : ∀ b, (k b).Fits rank [] true) :
    (needWaitVoteCode v k).Fits rank [] true := by
  have hdevices : Held.drop [(Mutex.devices, false), (Mutex.counter v, false)] .devices = [(.counter v, false)] := by
    simp [Held.drop]
  have hcounter : Held.drop [(Mutex.counter v, false)] (.counter v) = [] := by simp [Held.drop]
  refine ⟨rfl, fun _ h => (nomatch h), rfl, ?_, ⟨false, List.mem_cons_self⟩, fun d => ⟨⟨false, List.mem_cons_self⟩, ?_⟩⟩
  · intro l hl
    rw [List.mem_singleton.mp hl]
    exact Nat.zero_lt_one
  · rw [hdevices]
    refine ⟨⟨false, List.mem_singleton_self _⟩, fun c => ⟨⟨false, List.mem_singleton_self _⟩, ?_⟩⟩
    rw [hcounter]
    exact hk _

/-- **The calls keep to the order of the mutexes.** -/
theorem fits_code : ∀ q : Prog, q.code.Fits rank [] true
  | .stop => rfl
  | .setStatus _ _ k => fits_writeCode (fits_code k)
  | .getStatus _ k => fits_readCode fun _ => fits_code (k _)
  | .getStatusCount _ k => fits_readCode fun _ => fits_code (k _)
  | .getDevicesProCopy k => fits_readCode fun _ => fits_code (k _)
  | .addSucCount _ _ k => fits_writeCode (fits_code k)
  | .getSucCount _ k => fits_readCode fun _ => fits_code (k _)
  | .needVote _ k => fits_readCode fun _ => fits_code (k _)
  | .needWaitVote _ k => fits_needWaitVoteCode fun _ => fits_code (k _)

theorem fits_threads (progs : List Prog) : ∀ c ∈ progs.map Prog.code, c.Fits rank [] true := by
  intro c hc
  obtain ⟨q, -, rfl⟩ := List.mem_map.mp hc
  exact fits_code q

/-- **No deadlock.** Threads that make any calls never come to where none can move, and
from wherever they are they go on until all are done. -/
theorem calls_never_stuck (w : Tables) (progs : List Prog) {s : State Guarded}
    (h : Trans.Reach State.step (fun _ _ => True) (threads w progs) s) :
    ¬s.Stuck ∧ ∃ s', Trans.Reach State.step (fun _ _ => True) s s' ∧ ∀ p ∈ s'.procs, p.code = .done := by
  have hfits := fits_threads progs
  exact ⟨not_stuck hfits h, exists_end (ok_of_reach hfits h)⟩

/-- A session asks whether to wait, and votes if not; a device begins to vote while it holds
`suc_cnt_mutex` and has not yet locked `rwmutex_`. -/
def askProgs : List Prog :=
  [.needWaitVote 0 fun b => if b then .stop else .addSucCount 0 1 .stop, .setStatus (Str.of "1") .wxVoting .stop]

def askTables : Tables := ⟨∅, fun _ => ⟨0, 1⟩⟩

def asked : State Guarded :=
  (Trans.run State.step (threads askTables askProgs) [0, 1, 1, 1, 0, 0, 0, 0, 0]).get (by decide)

theorem calls_never_stuck_asked : ¬asked.Stuck ∧
    ∃ s', Trans.Reach State.step (fun _ _ => True) asked s' ∧ ∀ p ∈ s'.procs, p.code = .done :=
  calls_never_stuck askTables askProgs (Trans.Reach.of_run (Option.some_get _).symm)

/-! ### A call is a section -/

theorem sect_writeCode {m : Mutex} {f : Guarded m → Guarded m} {k : LockCode} (d : ∀ m, Guarded m) :
    (writeCode m f k).sect d = some (Function.update d m (f (d m)), k) := by
  have hdrop : Held.drop [(m, true)] m = [] := by simp [Held.drop]
  show some (Code.settle (.put m f (.unlock m k)) [(m, true)] d) = _
  rw [Code.settle_put (by simp), Code.settle_unlock (by simp), hdrop, Code.settle_nil]

theorem sect_readCode {m : Mutex} {k : Guarded m → LockCode} (d : ∀ m, Guarded m) :
    (readCode m k).sect d = some (d, k (d m)) := by
  have hdrop : Held.drop [(m, false)] m = [] := by simp [Held.drop]
  show some (Code.settle (.get m fun x => .unlock m (k x)) [(m, false)] d) = _
  rw [Code.settle_get (by simp), Code.settle_unlock (by simp), hdrop, Code.settle_nil]

/-- `need_wait_vote` reads both tables before it releases either. -/
theorem sect_needWaitVoteCode {v : ℕ} {k : Bool → LockCode} (d : ∀ m, Guarded m) :
    (needWaitVoteCode v k).sect d = some (d, k (WxVote.needWaitVote (d (.counter v)) (d .devices))) := by
  have hdevices : Held.drop [(Mutex.devices, false), (Mutex.counter v, false)] .devices = [(.counter v, false)] := by
    simp [Held.drop]
  have hcounter : Held.drop [(Mutex.counter v, false)] (.counter v) = [] := by simp [Held.drop]
  show some (Code.settle (readCode .devices _) [(.counter v, false)] d) = _
  unfold readCode
  rw [Code.settle_lock (by simp), Code.settle_get (by simp), Code.settle_unlock (by simp), hdevices,
    Code.settle_get (by simp), Code.settle_unlock (by simp), hcounter, Code.settle_nil]

theorem data_devices (w : Tables) (d : DeviceMgr) :
    Function.update w.data .devices d = Tables.data { w with devices := d } := by
  funext m
  cases m with
  | devices => rw [Function.update_self]; rfl
  | counter k => rw [Function.update_of_ne (by simp)]; rfl

theorem data_votes (w : Tables) (v : ℕ) (c : WxVote) :
    Function.update w.data (.counter v) c = Tables.data { w with votes := Function.update w.votes v c } := by
  funext m
  cases m with
  | devices => rw [Function.update_of_ne (by simp)]; rfl
  | counter k =>
    by_cases hk : k = v
    · subst hk
      rw [Function.update_self]
      exact (Function.update_self (f := w.votes) ..).symm
    · rw [Function.update_of_ne (by simpa using hk)]
      exact (Function.update_of_ne (f := w.votes) hk ..).symm

/-- **A section is a call.** -/
theorem sect_code (w : Tables) : ∀ q : Prog, q.code.sect w.data = (q.call w).map fun r => (r.1.data, r.2.code)
  | .stop => rfl
  | .setStatus ip status k => (sect_writeCode _).trans (by rw [data_devices]; rfl)
  | .addSucCount v n k => (sect_writeCode _).trans (by rw [data_votes]; rfl)
  | .getStatus _ _ => sect_readCode _
  | .getStatusCount _ _ => sect_readCode _
  | .getDevicesProCopy _ => sect_readCode _
  | .getSucCount _ _ => sect_readCode _
  | .needVote _ _ => sect_readCode _
  | .needWaitVote _ _ => sect_needWaitVoteCode _

/-- Threads that make one call at a time, as sections. -/
def Serial.sections (u : Serial) : Sections Guarded := ⟨u.tables.data, u.progs.map Prog.code⟩

theorem sections_step {u : Serial} {t : Sections Guarded} {i : ℕ} (h : u.sections.step i = some t) :
    ∃ u', u.step i = some u' ∧ u'.sections = t := by
  obtain ⟨c, hc, hmap⟩ := Option.bind_eq_some_iff.mp h
  obtain ⟨r, hr, rfl⟩ := Option.map_eq_some_iff.mp hmap
  rw [Serial.sections, List.getElem?_map] at hc
  obtain ⟨q, hq, rfl⟩ := Option.map_eq_some_iff.mp hc
  rw [Serial.sections, sect_code] at hr
  obtain ⟨r', hr', rfl⟩ := Option.map_eq_some_iff.mp hr
  refine ⟨⟨r'.1, u.progs.set i r'.2⟩, ?_, ?_⟩
  · unfold Serial.step
    rw [hq, Option.bind_some, hr', Option.map_some]
  · rw [Serial.sections, Serial.sections, List.map_set]

theorem sections_run : ∀ {is : List ℕ} {u : Serial} {t : Sections Guarded}, Trans.run Sections.step u.sections is = some t →
    ∃ u', Trans.run Serial.step u is = some u' ∧ u'.sections = t
  | [], u, t, h => by
    cases h
    exact ⟨u, rfl, rfl⟩
  | i :: is, u, t, h => by
    obtain ⟨t₁, h₁, h₂⟩ := Trans.run_cons.mp h
    obtain ⟨u₁, hu₁, rfl⟩ := sections_step h₁
    obtain ⟨u', hu', ht⟩ := sections_run h₂
    exact ⟨u', Trans.run_cons.mpr ⟨u₁, hu₁, hu'⟩, ht⟩

/-- **Calls are atomic.** When nobody holds a mutex, the devices, the counters and what each
thread has left to do, with the results it has got, are what the calls come to one at a
time: those of a thread in its order, and all in the order in which they commit. -/
theorem calls_serial (w : Tables) (progs : List Prog) {as : List ℕ} {s : State Guarded}
    (h : Trans.run State.step (threads w progs) as = some s) (hs : s.quiet = true) :
    ∃ u, Trans.run Serial.step ⟨w, progs⟩
        (Trans.emits State.step (fun s i => if s.commits i then [i] else []) (threads w progs) as) = some u ∧
      u.tables.data = s.data ∧
      ∀ (i : ℕ) p, s.procs[i]? = some p → ∃ q, u.progs[i]? = some q ∧ p.code = q.code := by
  obtain ⟨t, ht, -, hagrees⟩ := run_sections (fits_threads progs) h
  obtain ⟨hdata, hcodes⟩ := hagrees.of_quiet hs
  obtain ⟨u, hu, rfl⟩ := sections_run (u := ⟨w, progs⟩) ht
  refine ⟨u, hu, hdata, fun i p hp => ?_⟩
  have hcode := hcodes i p hp
  rw [Serial.sections, List.getElem?_map] at hcode
  obtain ⟨q, hq, hqp⟩ := Option.map_eq_some_iff.mp hcode
  exact ⟨q, hq, hqp.symm⟩

theorem calls_serial_asked : ∃ u, Trans.run Serial.step ⟨askTables, askProgs⟩ [1, 0] = some u ∧
    u.tables.data = asked.data := by
  obtain ⟨u, hu, hdata, -⟩ :=
    calls_serial askTables askProgs (Option.some_get _).symm (by decide : asked.quiet = true)
  exact ⟨u, hu, hdata⟩

end CounterLocks
end ScheduleCenter
