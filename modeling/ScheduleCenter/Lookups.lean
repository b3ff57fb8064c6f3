/-
# The lookups under the shared lock

What the operations of `wx_account_mgr` read of `accounts_pro` while they hold
`rwmutex_` shared, lookup by lookup: `find` finds or not, `operator[]` inserts on
a miss (`MapReads`). `get_vote_status` asks `find` first, and the two
loops that call it read an account only if it is there; the loop of
`get_idle_not_daily_task_account` reads whatever is in `idle_accounts`. So all but
that one find what they read in any table (`finds_getIdleNotVoteAccount`,
`finds_getIdleNotVoteCount`), and that one does if every idle account is in
the table (`finds_getIdleNotDailyTaskAccount`).

Key definitions: `Reads.getVoteStatus`, `Reads.getIdleNotVoteAccount`, `Reads.getIdleNotVoteCount`,
`Reads.getIdleNotDailyTaskAccount`, `Op.reads`, `AccountMgr.Within`.
Key theorems: `Op.finds_reads`, `Op.apply_eq_reads`, `Within.pickNotDaily_snd`.
-/
import ScheduleCenter.Locks
import ScheduleCenter.Base.MapReads

namespace ScheduleCenter
namespace AccountMgr

open MapReads

/-- Code that looks accounts up. -/
abbrev Lookup := Prog Str AccountPro

namespace Reads

/-- `get_vote_status`: both sides of the comparison look the account up. -/
def getVoteStatus (acc url : Str) : Lookup Int := do
  let found ← find acc
  if !found then pure statusVoted
  else do
    let p ← bracket acc
    let _ ← bracket acc
    if url ∉ p.votedUrl then pure statusNotVote else pure statusVoted

/-- The loop of `get_idle_not_vote_account`: the node it stops at. -/
def getIdleNotVoteAccount (url : Str) : List Node → Lookup (Option Node)
  | [] => pure none
  | n :: ns => do
    let status ← getVoteStatus n.acc url
    if status = statusVoted then getIdleNotVoteAccount url ns
    else do
      let p ← bracket n.acc
      if p.status = statusAbnormal then getIdleNotVoteAccount url ns else pure (some n)

/-- The loop of `get_idle_not_vote_count`. -/
def getIdleNotVoteCount (url : Str) : List Node → ℕ → Lookup ℕ
  | [], cnt => pure cnt
  | n :: ns, cnt => do
    let status ← getVoteStatus n.acc url
    if status = statusNotVote then do
      let p ← bracket n.acc
      if p.status = statusNormal then getIdleNotVoteCount url ns (cnt + 1) else getIdleNotVoteCount url ns cnt
    else getIdleNotVoteCount url ns cnt

/-- The loop of `get_idle_not_daily_task_account`: the node it stops at. -/
def getIdleNotDailyTaskAccount : List Node → Lookup (Option Node)
  | [] => pure none
  | n :: ns => do
    let p ← bracket n.acc
    if p.everydayTaskCompleted = dailytaskFinished then getIdleNotDailyTaskAccount ns
    else do
      let p ← bracket n.acc
      if p.status = statusAbnormal then getIdleNotDailyTaskAccount ns else pure (some n)

/-! ### What they find -/

variable {m : AccountMgr} {url : Str}

theorem finds_bracket_at {acc : Str} (h : acc ∈ m.accountsPro) :
    Finds (bracket acc : Lookup AccountPro) m.accountsPro (m.accountsPro.at acc) :=
  finds_bracket h

theorem finds_getVoteStatus (acc : Str) :
    Finds (getVoteStatus acc url) m.accountsPro (m.getVoteStatus acc url) := by
  apply (finds_find acc).bind
  by_cases hacc : acc ∈ m.accountsPro
  · obtain ⟨p, hp⟩ := Option.isSome_iff_exists.mp (AList.lookup_isSome.mpr hacc)
    have hbracket := finds_bracket_at hacc
    have hat : m.accountsPro.at acc = p := by
      rw [AccountsPro.at, hp]
      rfl
    rw [hat] at hbracket
    simp only [hacc, decide_true, Bool.not_true, Bool.false_eq_true, if_false, AccountMgr.getVoteStatus, hp]
    apply hbracket.bind
    apply hbracket.bind
    by_cases hurl : url ∈ p.votedUrl
    · rw [if_neg (not_not.mpr hurl), if_pos hurl]
      exact finds_pure _
    · rw [if_pos hurl, if_neg hurl]
      exact finds_pure _
  · simp only [hacc, decide_false, Bool.not_false, if_true, AccountMgr.getVoteStatus, AList.lookup_eq_none.mpr hacc]
    exact finds_pure _

/-- An account that is not reported as voted is in the table. -/
theorem mem_of_getVoteStatus {acc : Str} (h : m.getVoteStatus acc url ≠ statusVoted) : acc ∈ m.accountsPro := by
  by_contra hacc
  exact h (by rw [AccountMgr.getVoteStatus, AList.lookup_eq_none.mpr hacc])

theorem finds_getIdleNotVoteAccount : ∀ ns : List Node,
    Finds (getIdleNotVoteAccount url ns) m.accountsPro (ns.find? fun n => m.votable url n.acc)
  | [] => finds_pure none
  | n :: ns => by
    apply (finds_getVoteStatus n.acc).bind
    by_cases hvoted : m.getVoteStatus n.acc url = statusVoted
    · rw [if_pos hvoted, List.find?_cons_of_neg (by simp [votable, hvoted])]
      exact finds_getIdleNotVoteAccount ns
    · rw [if_neg hvoted]
      apply (finds_bracket_at (mem_of_getVoteStatus hvoted)).bind
      by_cases hstatus : (m.accountsPro.at n.acc).status = statusAbnormal
      · rw [if_pos hstatus, List.find?_cons_of_neg (by simp [votable, hstatus])]
        exact finds_getIdleNotVoteAccount ns
      · rw [if_neg hstatus, List.find?_cons_of_pos (by simp [votable, hvoted, hstatus])]
        exact finds_pure _

theorem finds_getIdleNotVoteCount : ∀ (ns : List Node) (cnt : ℕ),
    Finds (getIdleNotVoteCount url ns cnt) m.accountsPro (cnt + ns.countP fun n =>
      m.getVoteStatus n.acc url == statusNotVote && (m.accountsPro.at n.acc).status == statusNormal)
  | [], cnt => finds_pure cnt
  | n :: ns, cnt => by
    apply (finds_getVoteStatus n.acc).bind
    by_cases hnot : m.getVoteStatus n.acc url = statusNotVote
    · have hmem : n.acc ∈ m.accountsPro := mem_of_getVoteStatus (by rw [hnot]; decide)
      rw [if_pos hnot]
      apply (finds_bracket_at hmem).bind
      by_cases hstatus : (m.accountsPro.at n.acc).status = statusNormal
      · rw [if_pos hstatus, List.countP_cons_of_pos (by simp [hnot, hstatus]), ← Nat.add_assoc, Nat.add_right_comm]
        exact finds_getIdleNotVoteCount ns (cnt + 1)
      · rw [if_neg hstatus, List.countP_cons_of_neg (by simp [hstatus])]
        exact finds_getIdleNotVoteCount ns cnt
    · rw [if_neg hnot, List.countP_cons_of_neg (by simp [hnot])]
      exact finds_getIdleNotVoteCount ns cnt

/-- The daily draw reads the accounts it comes by; these have to be there. -/
theorem finds_getIdleNotDailyTaskAccount : ∀ {ns : List Node}, (∀ n ∈ ns, n.acc ∈ m.accountsPro) →
    Finds (getIdleNotDailyTaskAccount ns) m.accountsPro (ns.find? fun n => m.dailyable n.acc)
  | [], _ => finds_pure none
  | n :: ns, h => by
    have hbracket := finds_bracket_at (h n List.mem_cons_self)
    have hrest := finds_getIdleNotDailyTaskAccount fun x hx => h x (List.mem_cons_of_mem _ hx)
    apply hbracket.bind
    by_cases hdone : (m.accountsPro.at n.acc).everydayTaskCompleted = dailytaskFinished
    · rw [if_pos hdone, List.find?_cons_of_neg (by simp [dailyable, hdone])]
      exact hrest
    · rw [if_neg hdone]
      apply hbracket.bind
      by_cases hstatus : (m.accountsPro.at n.acc).status = statusAbnormal
      · rw [if_pos hstatus, List.find?_cons_of_neg (by simp [dailyable, hstatus])]
        exact hrest
      · rw [if_neg hstatus, List.find?_cons_of_pos (by simp [dailyable, hdone, hstatus])]
        exact finds_pure _

/-- In any table it does what `scanDaily` says. -/
theorem eval_getIdleNotDailyTaskAccount : ∀ (ns : List Node) (t : AccountsPro),
    eval (getIdleNotDailyTaskAccount ns) t = scanDaily t ns
  | [], _ => rfl
  | n :: ns, t => by
    have htouch : touch (t.touch n.acc) n.acc = t.touch n.acc := touch_of_mem (mem_touch.mpr (Or.inr rfl))
    have hvalue : value (t.touch n.acc) n.acc = t.at n.acc := at_touch t n.acc n.acc
    rw [scanDaily]
    show eval (if (t.at n.acc).everydayTaskCompleted = dailytaskFinished then _ else _) (t.touch n.acc) = _
    by_cases hdone : (t.at n.acc).everydayTaskCompleted = dailytaskFinished
    · rw [if_pos hdone, if_pos (by simp [hdone])]
      exact eval_getIdleNotDailyTaskAccount ns _
    · rw [if_neg hdone]
      show eval (if (value (t.touch n.acc) n.acc).status = statusAbnormal then _ else _) (touch (t.touch n.acc) n.acc) = _
      rw [htouch, hvalue]
      by_cases hstatus : (t.at n.acc).status = statusAbnormal
      · rw [if_pos hstatus, if_pos (by simp [hstatus])]
        exact eval_getIdleNotDailyTaskAccount ns _
      · rw [if_neg hstatus, if_neg (by simp [hdone, hstatus])]
        rfl

end Reads

namespace Op

/-- The operations that take the shared lock. -/
def isShared : Op → Bool
  | .getVoteStatus _ _ => true
  | .getAccountsProCopy => true
  | .getIdleNotVoteAccount _ => true
  | .getIdleNotVoteCount _ => true
  | .getIdleNotDailyTaskAccount => true
  | _ => false

/-- What an operation looks up under the shared lock. A draw returns the node it
stops at. -/
def reads (m : AccountMgr) : Op → Lookup (Option Node)
  | .getVoteStatus acc url => do
    let _ ← Reads.getVoteStatus acc url
    pure none
  | .getIdleNotVoteAccount url => Reads.getIdleNotVoteAccount url m.idle
  | .getIdleNotVoteCount url => do
    let _ ← Reads.getIdleNotVoteCount url m.idle 0
    pure none
  | .getIdleNotDailyTaskAccount => Reads.getIdleNotDailyTaskAccount m.idle
  | _ => pure none

variable {m : AccountMgr}

/-- **The lookups.** Where every idle account is in the table, so is every account
that an operation reads under the shared lock. -/
theorem finds_reads (hidle : ∀ n ∈ m.idle, n.acc ∈ m.accountsPro) (op : Op) :
    ∃ r, Finds (op.reads m) m.accountsPro r ∧ ∀ n ∈ r, n ∈ m.idle := by
  cases op with
  | getVoteStatus acc url =>
    exact ⟨none, (Reads.finds_getVoteStatus acc).bind (finds_pure none), fun _ h => nomatch h⟩
  | getIdleNotVoteAccount url =>
    exact ⟨_, Reads.finds_getIdleNotVoteAccount m.idle, fun n hn => List.mem_of_find?_eq_some hn⟩
  | getIdleNotVoteCount url =>
    exact ⟨none, (Reads.finds_getIdleNotVoteCount m.idle 0).bind (finds_pure none), fun _ h => nomatch h⟩
  | getIdleNotDailyTaskAccount =>
    exact ⟨_, Reads.finds_getIdleNotDailyTaskAccount hidle, fun n hn => List.mem_of_find?_eq_some hn⟩
  | setVoteStatus | setAccStatus | setEverydayTask | getAccountsProCopy | setIdleAccount =>
    exact ⟨none, finds_pure none, fun _ h => nomatch h⟩

/-- An operation under the shared lock changes the table by its lookups only; a
draw then erases the node it has stopped at. -/
theorem apply_eq_reads {op : Op} (hop : op.isShared = true) :
    op.apply m = (eval (op.reads m) m.accountsPro).1.elim
      { m with accountsPro := (eval (op.reads m) m.accountsPro).2 }
      { m with accountsPro := (eval (op.reads m) m.accountsPro).2 }.eraseIdle := by
  cases op with
  | getVoteStatus acc url => rw [reads, ((Reads.finds_getVoteStatus acc).bind (finds_pure none)).eval_eq]; rfl
  | getIdleNotVoteAccount url => rw [reads, (Reads.finds_getIdleNotVoteAccount m.idle).eval_eq]; rfl
  | getIdleNotVoteCount url =>
    rw [reads, ((Reads.finds_getIdleNotVoteCount m.idle 0).bind (finds_pure none)).eval_eq]
    rfl
  | getIdleNotDailyTaskAccount =>
    rw [reads, Reads.eval_getIdleNotDailyTaskAccount]
    rfl
  | getAccountsProCopy => rfl
  | setVoteStatus | setAccStatus | setEverydayTask | setIdleAccount => cases hop

end Op

/-! ### Where every lookup finds its account -/

/-- The table has the accounts `names`, and the list has no others. -/
structure Within (names : List Str) (m : AccountMgr) : Prop where
  table : ∀ acc, acc ∈ m.accountsPro ↔ acc ∈ names
  idle : ∀ n ∈ m.idle, n.acc ∈ names

namespace Within

variable {names : List Str} {m : AccountMgr}

theorem idle_mem (h : Within names m) : ∀ n ∈ m.idle, n.acc ∈ m.accountsPro :=
  fun n hn => (h.table n.acc).mpr (h.idle n hn)

theorem update (h : Within names m) (acc : Str) (f : AccountPro → AccountPro) : Within names (m.update acc f) where
  table acc' := mem_update.trans (h.table acc')
  idle n hn := h.idle n (by simpa using hn)

theorem setIdleAccount (h : Within names m) {acc : Str} (hacc : acc ∈ names) :
    Within names (m.setIdleAccount acc) where
  table := h.table
  idle n hn := by
    rcases List.mem_append.mp hn with hn | hn
    · exact h.idle n hn
    · rw [List.mem_singleton.mp hn]
      exact hacc

theorem eraseIdle (h : Within names m) (n : Node) : Within names (m.eraseIdle n) where
  table := h.table
  idle x hx := h.idle x (List.mem_filter.mp hx).1

/-- The daily draw leaves the table as it was. -/
theorem pickNotDaily_snd (h : Within names m) : m.pickNotDaily.2 = m := by
  have heval := (Reads.finds_getIdleNotDailyTaskAccount h.idle_mem).eval_eq
  rw [Reads.eval_getIdleNotDailyTaskAccount] at heval
  unfold pickNotDaily
  rw [heval]

end Within

theorem within_loadData (rows : List (Str × AccountPro)) : Within (rows.map (·.1)) (loadData rows) where
  table _ := mem_loadData rows
  idle n hn := by
    rw [← (loadData_idle rows).2]
    exact List.mem_map_of_mem hn

end AccountMgr
end ScheduleCenter
