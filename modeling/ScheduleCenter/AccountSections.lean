/-
# The account manager's sections are atomic

The programs of `Locks` under the shared mutex, lock by lock, come to the sections of
`AccountCalls`. After `load_data`, where only loaded accounts are put back, no lookup
under the shared lock changes the table (`Op.keeps`): threads that make any calls, each
lock, read and write a step of its own and in any order, are brought to where
sections bring them that are run one at a time, each thread's calls in the order in
which it makes them and all in the order in which the locks are taken
(`calls_atomic`).

Key definitions: `AccountSections.left`, `AccountSections.callsOf`, `AccountSections.Follows`.
Key theorems: `AccountMgr.Op.keeps`, `AccountMgr.Op.sect_code`, `AccountSections.follows_step`,
`AccountSections.calls_atomic`.
-/
import ScheduleCenter.Base.LockSections
import ScheduleCenter.AccountCalls

namespace ScheduleCenter
namespace AccountMgr

open RwLock

/-! ### What a section does to the data -/

section Keeps

variable {names : List Str} {url : Str} {h : ℕ}

theorem keeps_getVoteStatusCode (acc url : Str) {k : Int → LockCode} (hk : ∀ v, (k v).Keeps (Within names) h false) :
    (getVoteStatusCode acc url k).Keeps (Within names) h false :=
  ⟨fun hfree => absurd hfree.1 h.succ_ne_zero, fun _ _ => hk _⟩

theorem keeps_setterCode {f : AccountMgr → AccountMgr} {k : LockCode} (hf : ∀ m, Within names m → Within names (f m))
    (hk : k.Keeps (Within names) 0 false) : (setterCode f k).Keeps (Within names) 0 false :=
  ⟨fun hfree => (nomatch hfree.2), fun m hm => ⟨hf m hm, fun hx => nomatch hx⟩, hk⟩

theorem keeps_drawCode {n : Node} {k : LockCode} (hk : k.Keeps (Within names) 0 false) :
    (drawCode n k).Keeps (Within names) 1 false :=
  keeps_setterCode (fun _ hm => hm.eraseIdle n) hk

theorem keeps_notVoteLoop {k : Option Str → LockCode} (hk : ∀ r, (k r).Keeps (Within names) 0 false) :
    ∀ ns : List Node, (notVoteLoop url k ns).Keeps (Within names) 1 false
  | [] => hk none
  | n :: ns => by
    have ih : (notVoteLoop url k ns).Keeps (Within names) 1 false := keeps_notVoteLoop hk ns
    apply keeps_getVoteStatusCode n.acc url
    intro v
    split_ifs
    · exact ih
    · refine ⟨by decide, fun m _ => ?_⟩
      dsimp only
      split_ifs
      · exact ih
      · exact keeps_drawCode (hk _)

theorem keeps_countLoop {k : ℕ → LockCode} (hk : ∀ r, (k r).Keeps (Within names) 0 false) :
    ∀ (ns : List Node) (cnt : ℕ), (countLoop url k ns cnt).Keeps (Within names) 1 false
  | [], cnt => hk cnt
  | n :: ns, cnt => by
    apply keeps_getVoteStatusCode n.acc url
    intro v
    split_ifs
    · exact ⟨by decide, fun m _ => keeps_countLoop hk ns _⟩
    · exact keeps_countLoop hk ns cnt

/-- The daily draw reads through `operator[]`, and finds what it reads. -/
theorem keeps_dailyLoop {k : Option Str → LockCode} (hk : ∀ r, (k r).Keeps (Within names) 0 false) :
    ∀ {ns : List Node}, (∀ n ∈ ns, n.acc ∈ names) → (dailyLoop k ns).Keeps (Within names) 1 false
  | [], _ => hk none
  | n :: ns, hns => by
    have ih := keeps_dailyLoop hk fun x hx => hns x (List.mem_cons_of_mem _ hx)
    refine ⟨by decide, fun m hm => ?_, by decide, fun m _ => ?_⟩
    · have hmem : n.acc ∈ m.accountsPro := (hm.table n.acc).mpr (hns n List.mem_cons_self)
      have htouch : { m with accountsPro := m.accountsPro.touch n.acc } = m := by
        rw [AccountsPro.touch, if_pos hmem]
      refine ⟨?_, fun _ => htouch⟩
      show Within names { m with accountsPro := m.accountsPro.touch n.acc }
      rw [htouch]
      exact hm
    · dsimp only
      split_ifs
      · exact ih
      · exact keeps_drawCode (hk _)

/-- **A call changes nothing under the shared lock.** -/
theorem Op.keeps {op : Op} (hop : ∀ acc, op = .setIdleAccount acc → acc ∈ names) {k : LockCode}
    (hk : k.Keeps (Within names) 0 false) : (op.code k).Keeps (Within names) 0 false := by
  cases op with
  | getVoteStatus acc url => exact keeps_getVoteStatusCode acc url fun _ => hk
  | getAccountsProCopy => exact ⟨by decide, fun _ _ => hk⟩
  | setVoteStatus | setAccStatus | setEverydayTask => exact keeps_setterCode (fun _ hm => hm.update _ _) hk
  | setIdleAccount acc => exact keeps_setterCode (fun _ hm => hm.setIdleAccount (hop acc rfl)) hk
  | getIdleNotVoteAccount url => exact ⟨by decide, fun _ _ => keeps_notVoteLoop (fun _ => hk) _⟩
  | getIdleNotVoteCount url => exact ⟨by decide, fun _ _ => keeps_countLoop (fun _ => hk) _ _⟩
  | getIdleNotDailyTaskAccount => exact ⟨by decide, fun m hm => keeps_dailyLoop (fun _ => hk) hm.idle⟩

end Keeps

/-! ### What a section computes -/

section Sect

variable {url : Str} {m : AccountMgr}

/-- A draw that has stopped at a node, after the shared lock. -/
def afterDraw (k : Option Str → LockCode) (r : Option Node) : LockCode :=
  r.elim (k none) fun n => setterCode (·.eraseIdle n) (k (some n.acc))

theorem settle_unlockShared_one (k : LockCode) : (Code.unlockShared k).settle 1 false m = (m, k) := by
  rw [Code.settle_unlockShared (by decide)]
  exact Code.settle_free _ m

theorem settle_getVoteStatusCode (acc : Str) (k : Int → LockCode) :
    (getVoteStatusCode acc url k).settle 1 false m = (k (m.getVoteStatus acc url)).settle 1 false m := by
  unfold getVoteStatusCode
  rw [Code.settle_lockShared (by decide), Code.settle_get (by decide), Code.settle_unlockShared (by decide)]

theorem settle_drawCode (n : Node) (k : LockCode) :
    (drawCode n k).settle 1 false m = (m, setterCode (·.eraseIdle n) k) := by
  unfold drawCode
  exact settle_unlockShared_one _

theorem settle_notVoteLoop (k : Option Str → LockCode) : ∀ ns : List Node,
    (notVoteLoop url k ns).settle 1 false m = (m, afterDraw k (ns.find? fun n => m.votable url n.acc))
  | [] => settle_unlockShared_one _
  | n :: ns => by
    have ih := settle_notVoteLoop k ns
    rw [notVoteLoop, settle_getVoteStatusCode]
    by_cases hv : m.getVoteStatus n.acc url = statusVoted
    · rw [if_pos hv, List.find?_cons_of_neg (by simp [votable, hv]), ih]
    · rw [if_neg hv, Code.settle_get (by decide)]
      by_cases hs : (m.accountsPro.at n.acc).status = statusAbnormal
      · rw [if_pos hs, List.find?_cons_of_neg (by simp [votable, hs]), ih]
      · rw [if_neg hs, List.find?_cons_of_pos (by simp [votable, hv, hs]), settle_drawCode]
        rfl

theorem settle_countLoop (k : ℕ → LockCode) : ∀ (ns : List Node) (cnt : ℕ),
    (countLoop url k ns cnt).settle 1 false m = (m, k (cnt + ns.countP fun n =>
      m.getVoteStatus n.acc url == statusNotVote && (m.accountsPro.at n.acc).status == statusNormal))
  | [], cnt => settle_unlockShared_one _
  | n :: ns, cnt => by
    rw [countLoop, settle_getVoteStatusCode]
    by_cases hv : m.getVoteStatus n.acc url = statusNotVote
    · rw [if_pos hv, Code.settle_get (by decide), settle_countLoop k ns]
      by_cases hs : (m.accountsPro.at n.acc).status = statusNormal
      · rw [if_pos hs, List.countP_cons_of_pos (by simp [hv, hs]), Nat.add_assoc, Nat.add_comm 1]
      · rw [if_neg hs, List.countP_cons_of_neg (by simp [hs])]
    · rw [if_neg hv, settle_countLoop k ns, List.countP_cons_of_neg (by simp [hv])]

theorem settle_dailyLoop (k : Option Str → LockCode) : ∀ (ns : List Node) (m : AccountMgr),
    (dailyLoop k ns).settle 1 false m = ({ m with accountsPro := (scanDaily m.accountsPro ns).2 },
      afterDraw k (scanDaily m.accountsPro ns).1)
  | [], m => settle_unlockShared_one _
  | n :: ns, m => by
    rw [dailyLoop, Code.settle_put (by decide), Code.settle_get (by decide), at_touch, scanDaily]
    by_cases hn : (m.accountsPro.at n.acc).everydayTaskCompleted = dailytaskFinished ∨
        (m.accountsPro.at n.acc).status = statusAbnormal
    · rw [if_pos hn, if_pos (by simpa using hn), settle_dailyLoop k ns]
    · rw [if_neg hn, if_neg (by simpa using hn), settle_drawCode]
      rfl

theorem sect_setterCode (f : AccountMgr → AccountMgr) (k : LockCode) :
    (setterCode f k).sect m = some (f m, k) := by
  show some (Code.settle (.put f (.unlock k)) 0 true m) = _
  rw [Code.settle_put (by decide), Code.settle_unlock (by decide), Code.settle_free]

/-- A section under the shared lock that reads what there is. -/
theorem sect_get (f : AccountMgr → LockCode) : (Code.lockShared (.get f)).sect m = some ((f m).settle 1 false m) := by
  show some (Code.settle (.get f) 1 false m) = _
  rw [Code.settle_get (by decide)]

/-- **A section under the shared lock looks up what `Op.reads` says.** A draw then has
the node to erase that it has stopped at. -/
theorem Op.sect_code {op : Op} (hop : op.isShared = true) (k : LockCode) (m : AccountMgr) :
    (op.code k).sect m = some ({ m with accountsPro := (MapReads.eval (op.reads m) m.accountsPro).2 },
      (MapReads.eval (op.reads m) m.accountsPro).1.elim k fun n => setterCode (·.eraseIdle n) k) := by
  cases op with
  | getVoteStatus acc url =>
    rw [reads, ((Reads.finds_getVoteStatus acc).bind (MapReads.finds_pure none)).eval_eq]
    exact (sect_get _).trans (congrArg some (settle_unlockShared_one _))
  | getAccountsProCopy => exact (sect_get _).trans (congrArg some (settle_unlockShared_one _))
  | getIdleNotVoteAccount url =>
    rw [reads, (Reads.finds_getIdleNotVoteAccount m.idle).eval_eq]
    exact (sect_get _).trans (congrArg some (settle_notVoteLoop _ _))
  | getIdleNotVoteCount url =>
    rw [reads, ((Reads.finds_getIdleNotVoteCount m.idle 0).bind (MapReads.finds_pure none)).eval_eq]
    exact (sect_get _).trans (congrArg some (settle_countLoop _ _ _))
  | getIdleNotDailyTaskAccount =>
    rw [reads, Reads.eval_getIdleNotDailyTaskAccount]
    exact (sect_get _).trans (congrArg some (settle_dailyLoop _ _ _))
  | setVoteStatus | setAccStatus | setEverydayTask | setIdleAccount => cases hop

/-- The others are under the exclusive lock as a whole. -/
theorem Op.sect_code_exclusive {op : Op} (hop : op.isShared = false) (k : LockCode) (m : AccountMgr) :
    (op.code k).sect m = some (op.apply m, k) := by
  cases op with
  | setVoteStatus | setAccStatus | setEverydayTask | setIdleAccount => exact sect_setterCode _ k
  | _ => cases hop

end Sect

end AccountMgr

/-! ### One section at a time -/

namespace AccountSections

open AccountMgr RwLock AccountCalls

/-- The program of a thread that has still to make the calls `ops`. -/
def left : AccountCalls.Pc → List Op → LockCode
  | .erase n, ops => setterCode (·.eraseIdle n) (ops.foldr Op.code .done)
  | _, ops => ops.foldr Op.code .done

/-- The thread that takes the step. -/
def threadOf : AccountCalls.Act → ℕ
  | .call i _ => i
  | .go i => i

/-- The calls that thread `i` begins, in order. -/
def callsOf (i : ℕ) (bs : List AccountCalls.Act) : List Op :=
  bs.filterMap fun b =>
    match b with
    | .call j (.op op) => if j = i then some op else none
    | _ => none

/-- Each thread is where `AccountCalls` has it, with the calls `rest` to make. -/
structure Follows (t : Sections AccountMgr) (u : AccountCalls.State) (rest : ℕ → List Op) : Prop where
  data : t.data = u.mgr
  pcs : ∀ i, u.pcs i = .out ∨ ∃ n, u.pcs i = .erase n
  codes : ∀ i c, t.codes[i]? = some c → c = left (u.pcs i) (rest i)

/-- Thread `i` goes to `pc` and has the calls `ops` left. -/
theorem Follows.update {t : Sections AccountMgr} {u u' : AccountCalls.State} {rest : ℕ → List Op}
    (h : Follows t u rest) {i : ℕ} {m : AccountMgr} (pc : AccountCalls.Pc) {ops : List Op}
    (hpc : pc = .out ∨ ∃ n, pc = .erase n) (hmgr : u'.mgr = m) (hpcs : u'.pcs = Function.update u.pcs i pc) :
    Follows ⟨m, t.codes.set i (left pc ops)⟩ u' (Function.update rest i ops) where
  data := hmgr.symm
  pcs j := by
    rw [hpcs]
    by_cases hj : j = i
    · subst hj
      rw [Function.update_self]
      exact hpc
    · rw [Function.update_of_ne hj]
      exact h.pcs j
  codes j c hc := by
    rw [hpcs]
    rcases Counting.getElem?_set_cases hc with ⟨rfl, rfl⟩ | ⟨hj, hc⟩
    · rw [Function.update_self, Function.update_self]
    · rw [Function.update_of_ne hj, Function.update_of_ne hj]
      exact h.codes j c hc

/-- **A section of a thread**: a call that it begins, or a draw that it ends. -/
theorem follows_step {t t' : Sections AccountMgr} {u : AccountCalls.State} {rest : ℕ → List Op} {i : ℕ}
    (h : Follows t u rest) (hs : t.step i = some t') :
    ∃ b u' rest', AccountCalls.step u b = some u' ∧ Follows t' u' rest' ∧ threadOf b = i ∧
      ∀ j, callsOf j [b] ++ rest' j = rest j := by
  obtain ⟨c, hc, hmap⟩ := Option.bind_eq_some_iff.mp hs
  obtain ⟨r, hr, rfl⟩ := Option.map_eq_some_iff.mp hmap
  have hcode := h.codes i c hc
  rw [h.data] at hr
  rcases h.pcs i with hpc | ⟨n, hpc⟩
  · rcases hops : rest i with _ | ⟨op, ops⟩
    · rw [hcode, hpc, hops] at hr
      cases hr
    rw [hcode, hpc, hops] at hr
    have hcalls : ∀ j, callsOf j [.call i (.op op)] ++ Function.update rest i ops j = rest j := by
      intro j
      by_cases hj : j = i
      · subst hj
        rw [Function.update_self, hops]
        simp [callsOf]
      · rw [Function.update_of_ne hj]
        simp [callsOf, Ne.symm hj]
    rcases hop : op.isShared
    · have hr' : r = (op.apply u.mgr, ops.foldr Op.code .done) :=
        Option.some.inj (hr.symm.trans (op.sect_code_exclusive hop _ u.mgr))
      subst hr'
      refine ⟨_, _, _, step_exclusive hpc hop, ?_, rfl, hcalls⟩
      exact h.update .out (Or.inl rfl) rfl (by rw [← hpc, Function.update_eq_self]; rfl)
    · have hr' := Option.some.inj (hr.symm.trans (Op.sect_code hop _ u.mgr))
      refine ⟨_, _, _, step_shared hpc hop, ?_, rfl, hcalls⟩
      have hleft : r.2 = left ((MapReads.eval (op.reads u.mgr) u.mgr.accountsPro).1.elim .out .erase) ops := by
        rw [hr']
        cases (MapReads.eval (op.reads u.mgr) u.mgr.accountsPro).1 <;> rfl
      rw [hleft]
      apply h.update _
      · cases (MapReads.eval (op.reads u.mgr) u.mgr.accountsPro).1 with
        | none => exact Or.inl rfl
        | some n => exact Or.inr ⟨n, rfl⟩
      · rw [hr']
        rfl
      · rfl
  · rw [hcode, hpc] at hr
    have hr' : r = (u.mgr.eraseIdle n, (rest i).foldr Op.code .done) :=
      Option.some.inj (hr.symm.trans (sect_setterCode _ _))
    subst hr'
    have hgo : AccountCalls.step u (.go i) = some (u.eraseNode i n) := by
      unfold AccountCalls.step
      simp only [hpc]
    refine ⟨_, _, Function.update rest i (rest i), hgo, h.update .out (Or.inl rfl) rfl rfl, rfl, fun j => ?_⟩
    rw [Function.update_eq_self]
    rfl

/-- Sections in any order. -/
theorem follows_run : ∀ {is : List ℕ} {t t' : Sections AccountMgr} {u : AccountCalls.State} {rest : ℕ → List Op},
    Follows t u rest → Trans.run Sections.step t is = some t' →
    ∃ bs u' rest', Trans.run AccountCalls.step u bs = some u' ∧ Follows t' u' rest' ∧ bs.map threadOf = is ∧
      ∀ j, callsOf j bs ++ rest' j = rest j
  | [], t, t', u, rest, h, hr => by
    cases hr
    exact ⟨[], u, rest, rfl, h, rfl, fun _ => rfl⟩
  | i :: is, t, t', u, rest, h, hr => by
    obtain ⟨t₁, h₁, h₂⟩ := Trans.run_cons.mp hr
    obtain ⟨b, u₁, rest₁, hb, hf₁, hi, hcalls₁⟩ := follows_step h h₁
    obtain ⟨bs, u', rest', hbs, hf', his, hcalls'⟩ := follows_run hf₁ h₂
    refine ⟨b :: bs, u', rest', Trans.run_cons.mpr ⟨u₁, hb, hbs⟩, hf', by rw [List.map_cons, hi, his], fun j => ?_⟩
    rw [← hcalls₁ j, ← hcalls' j, ← List.append_assoc]
    unfold callsOf
    rw [← List.filterMap_append, List.singleton_append]

/-! ### Runs -/

variable {names : List Str} {calls : List (List Op)}

theorem keeps_calls (hput : ∀ ops ∈ calls, ∀ acc, Op.setIdleAccount acc ∈ ops → acc ∈ names) :
    ∀ c ∈ calls.map fun ops => ops.foldr Op.code (Code.done : LockCode), c.Keeps (Within names) 0 false := by
  intro c hc
  obtain ⟨ops, hops, rfl⟩ := List.mem_map.mp hc
  have hputs := hput ops hops
  clear hc hops
  induction ops with
  | nil => trivial
  | cons op ops ih =>
    apply Op.keeps
    · rintro acc rfl
      exact hputs acc List.mem_cons_self
    · exact ih fun acc hacc => hputs acc (List.mem_cons_of_mem _ hacc)

theorem follows_start (m : AccountMgr) (calls : List (List Op)) :
    Follows ⟨m, calls.map fun ops => ops.foldr Op.code .done⟩ (start m) fun i => (calls[i]?).getD [] where
  data := rfl
  pcs _ := Or.inl rfl
  codes i c hc := by
    rw [List.getElem?_map] at hc
    obtain ⟨ops, hops, rfl⟩ := Option.map_eq_some_iff.mp hc
    rw [hops]
    rfl

/-- **Calls come in sections.** After `load_data`, let any threads make any calls and put
back none but loaded accounts. What their locks, reads and writes come to in any order,
when nobody holds the mutex, is what a run of `AccountCalls` comes to: the threads
begin their calls one after another as they are to make them, and enter their
sections in the order in which they get the mutex; the table, the list and what each
has left to do are the same. -/
theorem calls_atomic (rows : List (Str × AccountPro)) (calls : List (List Op))
    (hput : ∀ ops ∈ calls, ∀ acc, Op.setIdleAccount acc ∈ ops → acc ∈ rows.map (·.1)) {as : List ℕ}
    {s : RwLock.State AccountMgr} (h : Trans.run RwLock.State.step (threads (loadData rows) calls) as = some s)
    (hs : s.free = true) :
    ∃ bs u, ∃ rest : ℕ → List Op, Trans.run AccountCalls.step (start (loadData rows)) bs = some u ∧
      bs.map threadOf = Trans.emits RwLock.State.step (fun s i => if s.enters i then [i] else [])
        (threads (loadData rows) calls) as ∧
      (∀ i, callsOf i bs ++ rest i = (calls[i]?).getD []) ∧
      u.mgr = s.data ∧ ∀ i p, s.procs[i]? = some p → p.code = left (u.pcs i) (rest i) := by
  obtain ⟨t, ht, -, hagrees⟩ :=
    run_sections (within_loadData rows) (fits_calls calls) (keeps_calls hput) h
  obtain ⟨hdata, hcodes⟩ := hagrees.of_free hs
  obtain ⟨bs, u, rest, hbs, hfollows, hthreads, hcalls⟩ := follows_run (follows_start (loadData rows) calls) ht
  refine ⟨bs, u, rest, hbs, hthreads, hcalls, ?_, ?_⟩
  · rw [← hfollows.data, hdata]
  · intro i p hp
    apply hfollows.codes i
    rw [hcodes, List.getElem?_map, hp, Option.map_some]

/-- A draw that is overtaken, between its two sections, by a thread that sets the status
of the account it has stopped at. -/
def overtaken : RwLock.State AccountMgr :=
  (Trans.run RwLock.State.step
    (threads (loadData [(Str.of "a", default)])
      [[.getIdleNotDailyTaskAccount], [.setAccStatus (Str.of "a") statusAbnormal]])
    [0, 0, 0, 0, 1, 0, 1, 1, 1, 0, 0, 0]).get (by decide)

theorem calls_atomic_overtaken : ∃ bs u,
    Trans.run AccountCalls.step (start (loadData [(Str.of "a", default)])) bs = some u ∧ bs.map threadOf = [0, 1, 0] ∧
      u.mgr = overtaken.data := by
  obtain ⟨bs, u, rest, hbs, hthreads, -, hmgr, -⟩ := calls_atomic [(Str.of "a", default)]
    [[.getIdleNotDailyTaskAccount], [.setAccStatus (Str.of "a") statusAbnormal]] (by simp)
    (Option.some_get _).symm (by decide : overtaken.free = true)
  exact ⟨bs, u, hbs, hthreads.trans (by decide), hmgr⟩

end AccountSections
end ScheduleCenter
