/-
# The account manager under `rwmutex_`

The public operations of `wx_account_mgr` as programs under its shared mutex,
lock by lock. They compute what `AccountMgr` says (`Op.eval_code`,
`reach_apply`). `get_idle_not_vote_account` and `get_idle_not_vote_count` hold
the mutex shared while they call `get_vote_status`, which locks it shared
again: a writer that comes in between waits for the first lock and holds up
the second.

Threads that each run any operations never get stuck in a run without such a
crossing, and after a crossing they do (`deadlock_free`). Without the two
operations there is none (`deadlock_free_of_no_scan`).

Key definitions: `AccountMgr.Op`, `AccountMgr.Op.code`, `AccountMgr.threads`.
Key theorems: `AccountMgr.Op.eval_code`, `AccountMgr.deadlock_free`,
`AccountMgr.deadlock_free_scan`, `AccountMgr.not_deadlock_free`.
-/
import ScheduleCenter.AccountMgr
import ScheduleCenter.Base.RwLock

namespace ScheduleCenter
namespace AccountMgr

open RwLock

abbrev LockCode := Code AccountMgr

/-! ### The operations, each before the rest `k` of its thread -/

def getVoteStatusCode (acc url : Str) (k : Int → LockCode) : LockCode :=
  .lockShared (.get fun m => .unlockShared (k (m.getVoteStatus acc url)))

/-- The setters and `set_idle_account` are under the exclusive lock as a whole. -/
def setterCode (f : AccountMgr → AccountMgr) (k : LockCode) : LockCode :=
  .lock (.put f (.unlock k))

/-- How both draws end when they stop at a node. -/
def drawCode (n : Node) (k : LockCode) : LockCode :=
  .unlockShared (.lock (.put (·.eraseIdle n) (.unlock k)))

/-- The loop of `get_idle_not_vote_account`. -/
def notVoteLoop (url : Str) (k : Option Str → LockCode) : List Node → LockCode
  | [] => .unlockShared (k none)
  | n :: ns =>
    getVoteStatusCode n.acc url fun v =>
      if v = statusVoted then notVoteLoop url k ns
      else .get fun m =>
        if (m.accountsPro.at n.acc).status = statusAbnormal then notVoteLoop url k ns
        else drawCode n (k (some n.acc))

def getIdleNotVoteAccountCode (url : Str) (k : Option Str → LockCode) : LockCode :=
  .lockShared (.get fun m => notVoteLoop url k m.idle)

/-- The loop of `get_idle_not_vote_count`. -/
def countLoop (url : Str) (k : ℕ → LockCode) : List Node → ℕ → LockCode
  | [], cnt => .unlockShared (k cnt)
  | n :: ns, cnt =>
    getVoteStatusCode n.acc url fun v =>
      if v = statusNotVote then .get fun m =>
        countLoop url k ns (if (m.accountsPro.at n.acc).status = statusNormal then cnt + 1 else cnt)
      else countLoop url k ns cnt

def getIdleNotVoteCountCode (url : Str) (k : ℕ → LockCode) : LockCode :=
  .lockShared (.get fun m => countLoop url k m.idle 0)

/-- The loop of `get_idle_not_daily_task_account`: it reads the table itself. -/
def dailyLoop (k : Option Str → LockCode) : List Node → LockCode
  | [] => .unlockShared (k none)
  | n :: ns =>
    .put (fun m => { m with accountsPro := m.accountsPro.touch n.acc }) (.get fun m =>
      if (m.accountsPro.at n.acc).everydayTaskCompleted = dailytaskFinished ∨
          (m.accountsPro.at n.acc).status = statusAbnormal then
        dailyLoop k ns
      else drawCode n (k (some n.acc)))

def getIdleNotDailyTaskAccountCode (k : Option Str → LockCode) : LockCode :=
  .lockShared (.get fun m => dailyLoop k m.idle)

def getAccountsProCopyCode (k : AccountsPro → LockCode) : LockCode :=
  .lockShared (.get fun m => .unlockShared (k m.accountsPro))

/-- A call of a public operation. -/
inductive Op
  | getVoteStatus (acc url : Str)
  | setVoteStatus (acc url : Str)
  | setAccStatus (acc : Str) (status : Int)
  | setEverydayTask (acc : Str) (done : Int)
  | getAccountsProCopy
  | getIdleNotVoteAccount (url : Str)
  | getIdleNotVoteCount (url : Str)
  | getIdleNotDailyTaskAccount
  | setIdleAccount (acc : Str)

namespace Op

def code : Op → LockCode → LockCode
  | .getVoteStatus acc url, k => getVoteStatusCode acc url fun _ => k
  | .setVoteStatus acc url, k => setterCode (·.setVoteStatus acc url) k
  | .setAccStatus acc status, k => setterCode (·.setAccStatus acc status) k
  | .setEverydayTask acc done, k => setterCode (·.setEverydayTask acc done) k
  | .getAccountsProCopy, k => getAccountsProCopyCode fun _ => k
  | .getIdleNotVoteAccount url, k => getIdleNotVoteAccountCode url fun _ => k
  | .getIdleNotVoteCount url, k => getIdleNotVoteCountCode url fun _ => k
  | .getIdleNotDailyTaskAccount, k => getIdleNotDailyTaskAccountCode fun _ => k
  | .setIdleAccount acc, k => setterCode (·.setIdleAccount acc) k

/-- The two operations that call `get_vote_status` in a loop. -/
def scans : Op → Bool
  | .getIdleNotVoteAccount _ => true
  | .getIdleNotVoteCount _ => true
  | _ => false

/-- What a call does to the table and the list if no other comes in between. -/
def apply : Op → AccountMgr → AccountMgr
  | .getVoteStatus _ _, m => m
  | .setVoteStatus acc url, m => m.setVoteStatus acc url
  | .setAccStatus acc status, m => m.setAccStatus acc status
  | .setEverydayTask acc done, m => m.setEverydayTask acc done
  | .getAccountsProCopy, m => m
  | .getIdleNotVoteAccount url, m => (m.pickNotVote url).elim m m.eraseIdle
  | .getIdleNotVoteCount _, m => m
  | .getIdleNotDailyTaskAccount, m => m.pickNotDaily.1.elim m.pickNotDaily.2 m.pickNotDaily.2.eraseIdle
  | .setIdleAccount acc, m => m.setIdleAccount acc

end Op

/-- Threads that each make some calls, one after another. -/
def threads (m : AccountMgr) (calls : List (List Op)) : State AccountMgr :=
  State.start m (calls.map fun ops => ops.foldr Op.code .done)

/-! ### The programs compute the operations -/

theorem eval_notVoteLoop (url : Str) (k : Option Str → LockCode) (m : AccountMgr) : ∀ ns : List Node,
    (notVoteLoop url k ns).eval m =
      (ns.find? fun n => m.votable url n.acc).elim ((k none).eval m) fun n => (k (some n.acc)).eval (m.eraseIdle n)
  | [] => rfl
  | n :: ns => by
    have ih := eval_notVoteLoop url k m ns
    simp only [notVoteLoop, getVoteStatusCode, Code.eval]
    by_cases hv : m.getVoteStatus n.acc url = statusVoted
    · rw [if_pos hv, List.find?_cons_of_neg (by simp [votable, hv]), ih]
    · rw [if_neg hv, Code.eval]
      by_cases hs : (m.accountsPro.at n.acc).status = statusAbnormal
      · rw [if_pos hs, List.find?_cons_of_neg (by simp [votable, hs]), ih]
      · rw [if_neg hs, List.find?_cons_of_pos (by simp [votable, hv, hs])]
        rfl

theorem eval_countLoop (url : Str) (k : ℕ → LockCode) (m : AccountMgr) : ∀ (ns : List Node) (cnt : ℕ),
    (countLoop url k ns cnt).eval m = (k (cnt + ns.countP fun n =>
      m.getVoteStatus n.acc url == statusNotVote && (m.accountsPro.at n.acc).status == statusNormal)).eval m
  | [], _ => rfl
  | n :: ns, cnt => by
    simp only [countLoop, getVoteStatusCode, Code.eval]
    by_cases hv : m.getVoteStatus n.acc url = statusNotVote
    · rw [if_pos hv, Code.eval, eval_countLoop url k m ns]
      by_cases hs : (m.accountsPro.at n.acc).status = statusNormal
      · rw [if_pos hs, List.countP_cons_of_pos (by simp [hv, hs]), Nat.add_assoc, Nat.add_comm 1]
      · rw [if_neg hs, List.countP_cons_of_neg (by simp [hs])]
    · rw [if_neg hv, eval_countLoop url k m ns, List.countP_cons_of_neg (by simp [hv])]

theorem eval_dailyLoop (k : Option Str → LockCode) : ∀ (ns : List Node) (m : AccountMgr),
    (dailyLoop k ns).eval m =
      (scanDaily m.accountsPro ns).1.elim ((k none).eval { m with accountsPro := (scanDaily m.accountsPro ns).2 })
        fun n => (k (some n.acc)).eval (eraseIdle { m with accountsPro := (scanDaily m.accountsPro ns).2 } n)
  | [], _ => rfl
  | n :: ns, m => by
    simp only [dailyLoop, Code.eval, at_touch, scanDaily]
    by_cases hn : (m.accountsPro.at n.acc).everydayTaskCompleted = dailytaskFinished ∨
        (m.accountsPro.at n.acc).status = statusAbnormal
    · rw [if_pos hn, if_pos (by simpa using hn), eval_dailyLoop k ns]
    · rw [if_neg hn, if_neg (by simpa using hn)]
      rfl

/-- **A call computes what `AccountMgr` says.** -/
theorem Op.eval_code (op : Op) (k : LockCode) (m : AccountMgr) : (op.code k).eval m = k.eval (op.apply m) := by
  cases op with
  | getVoteStatus | setVoteStatus | setAccStatus | setEverydayTask | getAccountsProCopy | setIdleAccount => rfl
  | getIdleNotVoteAccount url =>
    simp only [code, getIdleNotVoteAccountCode, Code.eval, eval_notVoteLoop, apply, pickNotVote]
    cases m.idle.find? fun n => m.votable url n.acc <;> rfl
  | getIdleNotVoteCount url =>
    simp only [code, getIdleNotVoteCountCode, Code.eval, eval_countLoop, apply]
  | getIdleNotDailyTaskAccount =>
    simp only [code, getIdleNotDailyTaskAccountCode, Code.eval, eval_dailyLoop, apply, pickNotDaily]
    cases (scanDaily m.accountsPro m.idle).1 <;> rfl

/-- The number `get_idle_not_vote_count` returns. -/
theorem eval_getIdleNotVoteCountCode (url : Str) (k : ℕ → LockCode) (m : AccountMgr) :
    (getIdleNotVoteCountCode url k).eval m = (k (m.getIdleNotVoteCount url)).eval m := by
  simp only [getIdleNotVoteCountCode, Code.eval, eval_countLoop, getIdleNotVoteCount, Nat.zero_add]

/-! ### The discipline -/

theorem fits_notVoteLoop {url : Str} {k : Option Str → LockCode} (hk : ∀ r, (k r).Fits 0 false) :
    ∀ ns : List Node, (notVoteLoop url k ns).Fits 1 false
  | [] => ⟨Nat.one_pos, hk none⟩
  | n :: ns => by
    have ih : (notVoteLoop url k ns).Fits 1 false := fits_notVoteLoop hk ns
    refine ⟨rfl, fun m => ⟨Nat.two_pos, ?_⟩⟩
    dsimp only
    split_ifs
    · exact ih
    · intro m'
      dsimp only
      split_ifs
      · exact ih
      · exact ⟨Nat.one_pos, rfl, rfl, rfl, hk _⟩

theorem fits_countLoop {url : Str} {k : ℕ → LockCode} (hk : ∀ r, (k r).Fits 0 false) :
    ∀ (ns : List Node) (cnt : ℕ), (countLoop url k ns cnt).Fits 1 false
  | [], cnt => ⟨Nat.one_pos, hk cnt⟩
  | n :: ns, cnt => by
    refine ⟨rfl, fun m => ⟨Nat.two_pos, ?_⟩⟩
    dsimp only
    split_ifs
    · exact fun m' => fits_countLoop hk ns _
    · exact fits_countLoop hk ns cnt

theorem fits_dailyLoop {k : Option Str → LockCode} (hk : ∀ r, (k r).Fits 0 false) :
    ∀ ns : List Node, (dailyLoop k ns).Fits 1 false
  | [] => ⟨Nat.one_pos, hk none⟩
  | n :: ns => by
    intro m
    dsimp only
    split_ifs
    · exact fits_dailyLoop hk ns
    · exact ⟨Nat.one_pos, rfl, rfl, rfl, hk _⟩

theorem Op.fits (op : Op) {k : LockCode} (hk : k.Fits 0 false) : (op.code k).Fits 0 false := by
  cases op with
  | getVoteStatus | getAccountsProCopy => exact ⟨rfl, fun _ => ⟨Nat.one_pos, hk⟩⟩
  | setVoteStatus | setAccStatus | setEverydayTask | setIdleAccount => exact ⟨rfl, rfl, rfl, hk⟩
  | getIdleNotVoteAccount => exact ⟨rfl, fun _ => fits_notVoteLoop (fun _ => hk) _⟩
  | getIdleNotVoteCount => exact ⟨rfl, fun _ => fits_countLoop (fun _ => hk) _ _⟩
  | getIdleNotDailyTaskAccount => exact ⟨rfl, fun _ => fits_dailyLoop (fun _ => hk) _⟩

theorem fits_calls (calls : List (List Op)) :
    ∀ c ∈ calls.map fun ops => ops.foldr Op.code (Code.done : LockCode), c.Fits 0 false := by
  intro c hc
  obtain ⟨ops, -, rfl⟩ := List.mem_map.mp hc
  clear hc
  induction ops with
  | nil => exact ⟨rfl, rfl⟩
  | cons op ops ih => exact op.fits ih

theorem flat_dailyLoop {k : Option Str → LockCode} (hk : ∀ r, (k r).Flat 0) :
    ∀ ns : List Node, (dailyLoop k ns).Flat 1
  | [] => hk none
  | n :: ns => by
    intro m
    dsimp only
    split_ifs
    · exact flat_dailyLoop hk ns
    · exact hk _

/-- The other operations take one lock at a time. -/
theorem Op.flat {op : Op} (hop : op.scans = false) {k : LockCode} (hk : k.Flat 0) : (op.code k).Flat 0 := by
  cases op with
  | getVoteStatus | getAccountsProCopy => exact ⟨rfl, fun _ => hk⟩
  | setVoteStatus | setAccStatus | setEverydayTask | setIdleAccount => exact hk
  | getIdleNotVoteAccount | getIdleNotVoteCount => cases hop
  | getIdleNotDailyTaskAccount => exact ⟨rfl, fun _ => flat_dailyLoop (fun _ => hk) _⟩

/-- A thread that is alone completes its call. -/
theorem reach_apply (op : Op) (m : AccountMgr) :
    Trans.Reach State.step (fun _ _ => True) (threads m [[op]]) ⟨op.apply m, [⟨.done, 0, false, false⟩]⟩ := by
  have := reach_eval (op.code .done) m (op.fits ⟨rfl, rfl⟩)
  rwa [op.eval_code] at this

/-! ### Deadlock -/

/-- Threads that never run one of the two loops do not get stuck. -/
theorem deadlock_free_of_no_scan {m : AccountMgr} {calls : List (List Op)}
    (hcalls : ∀ ops ∈ calls, ∀ op ∈ ops, op.scans = false) {s : State AccountMgr}
    (h : Trans.Reach State.step (fun _ _ => True) (threads m calls) s) : ¬ s.Stuck := by
  refine not_stuck_of_flat (fits_calls calls) (fun c hc => ?_) h
  obtain ⟨ops, hops, rfl⟩ := List.mem_map.mp hc
  have hscan := hcalls ops hops
  clear hc hops
  induction ops with
  | nil => trivial
  | cons op ops ih =>
    exact Op.flat (hscan op List.mem_cons_self) (ih fun op' hop' => hscan op' (List.mem_cons_of_mem _ hop'))

/-- **The account manager.** Threads inside any of its operations do not get
stuck in a run in which no thread that holds the mutex shared comes to lock it
again while another waits to hold it exclusively; a run in which one does goes
on to a state in which no thread can move. -/
theorem deadlock_free (m : AccountMgr) (calls : List (List Op)) :
    (∀ s, Trans.Reach State.step (fun s i => s.crosses i = false) (threads m calls) s → ¬ s.Stuck) ∧
    ∀ s i, Trans.Reach State.step (fun _ _ => True) (threads m calls) s → s.crosses i = true →
      ∃ s', Trans.Reach State.step (fun _ _ => True) s s' ∧ s'.Stuck :=
  ⟨fun _ h => not_stuck (fits_calls calls) h, fun _ _ h hi => exists_stuck (fits_calls calls) h hi⟩

/-- One account; one thread draws for a vote, another sets the status. -/
def scanStart : State AccountMgr :=
  threads (loadData [(Str.of "a", default)])
    [[.getIdleNotVoteAccount (Str.of "u")], [.setAccStatus (Str.of "a") statusAbnormal]]

/-- The draw has entered its loop. -/
def scanLoop : State AccountMgr := (Trans.run State.step scanStart [0, 0]).get (by decide)

/-- The setter comes while the draw is behind its second lock. -/
def scanBehind : State AccountMgr :=
  (Trans.run (Trans.guarded State.step fun s i => s.crosses i = false) scanStart [0, 0, 0, 0, 1, 0, 0, 0]).get
    (by decide)

/-- The setter comes while the draw is before its second lock. -/
def scanCrossed : State AccountMgr := (Trans.run State.step scanStart [0, 0, 1]).get (by decide)

theorem deadlock_free_scan : ¬ scanBehind.Stuck ∧
    ∃ s', Trans.Reach State.step (fun _ _ => True) scanLoop s' ∧ s'.Stuck :=
  ⟨(deadlock_free _ _).1 _ (Trans.Reach.of_guarded (Option.some_get _).symm),
    (deadlock_free _ _).2 _ 1 (Trans.Reach.of_run (Option.some_get _).symm) (by decide)⟩

theorem not_deadlock_free : ¬ ∀ (m : AccountMgr) (calls : List (List Op)) (s : State AccountMgr),
    Trans.Reach State.step (fun _ _ => True) (threads m calls) s → ¬ s.Stuck := by
  intro h
  have hrun : Trans.run State.step scanStart [0, 0, 1] = some scanCrossed := (Option.some_get _).symm
  refine h _ _ scanCrossed (Trans.Reach.of_run hrun) ⟨by decide, fun i => ?_⟩
  match i with
  | 0 => decide
  | 1 => decide
  | i + 2 => rfl

end AccountMgr
end ScheduleCenter
