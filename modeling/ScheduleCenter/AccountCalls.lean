/-
# Threads that call the account manager

Any number of threads in the public operations of `wx_account_mgr`, one section
under `rwmutex_` a step. A section under the shared lock looks accounts up
(`Op.reads`) and leaves the table as its lookups do. A draw then waits for the
exclusive lock to erase the node it has stopped at. `reset_all_everyday_task`
takes no lock for its loop: it walks through the table and calls
`set_everyday_task` at each account, and others come in between.

After `load_data`, if `set_idle_account` is called only with what a draw has
returned, every idle account is in the table and the table's accounts stay the
same; so all lookups under the shared lock find what they look up and none of them
changes the table (`lookups_find`).

Key definitions: `AccountCalls.State`, `AccountCalls.step`, `AccountCalls.PutsBack`,
`AccountCalls.Closed`.
Key theorems: `AccountCalls.step_cases`, `AccountCalls.call_alone`, `AccountCalls.lookUp_table`,
`AccountCalls.closed_step`, `AccountCalls.lookups_find`.
-/
import ScheduleCenter.Lookups
import ScheduleCenter.Base.OrderedKeys
import ScheduleCenter.Base.Trans
import Mathlib.Data.List.Lex

namespace ScheduleCenter
namespace AccountCalls

open AccountMgr MapReads

/-! ### The order of the table -/

/-- `std::string`s are compared byte by byte, as unsigned numbers. -/
def rank (acc : Str) : List ℕ := acc.map UInt8.toNat

theorem rank_injective : Function.Injective rank :=
  List.map_injective_iff.mpr fun _ _ h => UInt8.toNat_inj.mp h

/-- `accounts_pro.begin()`. -/
def first (m : AccountMgr) : Option Str := OrderedKeys.first rank m.accountsPro.keys

/-- `++` of an iterator that stands at `acc`. -/
def next (m : AccountMgr) (acc : Str) : Option Str := OrderedKeys.next rank m.accountsPro.keys acc

/-! ### The threads -/

inductive Call
  | op (op : Op)
  | resetAllEverydayTask

/-- Where a thread is. -/
inductive Pc
  /-- In no call. -/
  | out
  /-- In a draw that has stopped at `n` and released the shared lock. -/
  | erase (n : Node)
  /-- In the reset, before `set_everyday_task(acc, …)`. -/
  | reset (acc : Str)
  /-- In the reset, before `++`. -/
  | advance (acc : Str)
deriving DecidableEq

structure State where
  mgr : AccountMgr
  pcs : ℕ → Pc
  /-- What the draws have returned so far. -/
  drawn : List Str

inductive Act
  /-- Thread `i` calls, and does what the call does first. -/
  | call (i : ℕ) (c : Call)
  /-- Thread `i` goes on in its call. -/
  | go (i : ℕ)

def start (m : AccountMgr) : State := ⟨m, fun _ => .out, []⟩

namespace State

def goTo (s : State) (i : ℕ) (pc : Pc) : State := { s with pcs := Function.update s.pcs i pc }

/-- The loop of the reset: at an account, or at the end. -/
def loopAt (s : State) (i : ℕ) (it : Option Str) : State := s.goTo i (it.elim .out .reset)

/-- A section under the shared lock. -/
def lookUp (s : State) (i : ℕ) (op : Op) : State :=
  let r := eval (op.reads s.mgr) s.mgr.accountsPro
  { s with mgr := { s.mgr with accountsPro := r.2 } }.goTo i (r.1.elim .out .erase)

/-- A section under the exclusive lock. -/
def change (s : State) (op : Op) : State := { s with mgr := op.apply s.mgr }

/-- `idle_accounts.erase(itor)`; the draw returns. -/
def eraseNode (s : State) (i : ℕ) (n : Node) : State :=
  { s with mgr := s.mgr.eraseIdle n, drawn := n.acc :: s.drawn }.goTo i .out

/-- `set_everyday_task(var.first, WX_ACCOUNT_DAILYTASK_NOT_FINISHED)`. -/
def resetOne (s : State) (i : ℕ) (acc : Str) : State :=
  { s with mgr := s.mgr.setEverydayTask acc dailytaskNotFinished }.goTo i (.advance acc)

@[simp]
theorem goTo_mgr (s : State) (i : ℕ) (pc : Pc) : (s.goTo i pc).mgr = s.mgr := rfl

@[simp]
theorem goTo_pcs_self (s : State) (i : ℕ) (pc : Pc) : (s.goTo i pc).pcs i = pc := by simp [goTo]

theorem goTo_pcs_ne (s : State) {i j : ℕ} (pc : Pc) (h : j ≠ i) : (s.goTo i pc).pcs j = s.pcs j := by
  simp [goTo, h]

end State

def step (s : State) : Act → Option State
  | .call i (.op op) => if s.pcs i = .out then some (if op.isShared then s.lookUp i op else s.change op) else none
  | .call i .resetAllEverydayTask => if s.pcs i = .out then some (s.loopAt i (first s.mgr)) else none
  | .go i =>
    match s.pcs i with
    | .out => none
    | .erase n => some (s.eraseNode i n)
    | .reset acc => some (s.resetOne i acc)
    | .advance acc => some (s.loopAt i (next s.mgr acc))

/-- What a step can do. -/
inductive StepCase (s : State) : Act → State → Prop
  | shared {i : ℕ} {op : Op} (hpc : s.pcs i = .out) (hop : op.isShared = true) :
      StepCase s (.call i (.op op)) (s.lookUp i op)
  | exclusive {i : ℕ} {op : Op} (hpc : s.pcs i = .out) (hop : op.isShared = false) :
      StepCase s (.call i (.op op)) (s.change op)
  | begin {i : ℕ} (hpc : s.pcs i = .out) : StepCase s (.call i .resetAllEverydayTask) (s.loopAt i (first s.mgr))
  | erase {i : ℕ} {n : Node} (hpc : s.pcs i = .erase n) : StepCase s (.go i) (s.eraseNode i n)
  | reset {i : ℕ} {acc : Str} (hpc : s.pcs i = .reset acc) : StepCase s (.go i) (s.resetOne i acc)
  | advance {i : ℕ} {acc : Str} (hpc : s.pcs i = .advance acc) : StepCase s (.go i) (s.loopAt i (next s.mgr acc))

theorem step_cases {s s' : State} : ∀ {a : Act}, step s a = some s' → StepCase s a s'
  | .call i (.op op), h => by
    unfold step at h
    obtain ⟨hpc, hs⟩ := Option.ite_none_right_eq_some.mp h
    by_cases hop : op.isShared
    · rw [if_pos hop] at hs
      cases hs
      exact .shared hpc hop
    · rw [if_neg hop] at hs
      cases hs
      exact .exclusive hpc (by simpa using hop)
  | .call i .resetAllEverydayTask, h => by
    unfold step at h
    obtain ⟨hpc, hs⟩ := Option.ite_none_right_eq_some.mp h
    cases hs
    exact .begin hpc
  | .go i, h => by
    unfold step at h
    rcases hpc : s.pcs i with _ | n | acc | acc <;> simp only [hpc] at h <;> cases h
    · exact .erase hpc
    · exact .reset hpc
    · exact .advance hpc

theorem step_shared {s : State} {i : ℕ} {op : Op} (hpc : s.pcs i = .out) (hop : op.isShared = true) :
    step s (.call i (.op op)) = some (s.lookUp i op) := by
  rw [step, if_pos hpc, if_pos hop]

theorem step_exclusive {s : State} {i : ℕ} {op : Op} (hpc : s.pcs i = .out) (hop : op.isShared = false) :
    step s (.call i (.op op)) = some (s.change op) := by
  rw [step, if_pos hpc, if_neg (by simp [hop])]

/-- **A call by a thread that is alone does what `AccountMgr` says.** -/
theorem call_alone {s : State} {i : ℕ} (hpc : s.pcs i = .out) (op : Op) :
    ∃ as s', Trans.run step s (.call i (.op op) :: as) = some s' ∧ s'.pcs i = .out ∧ s'.mgr = op.apply s.mgr := by
  rcases hop : op.isShared
  · exact ⟨[], s.change op, Trans.run_cons.mpr ⟨_, step_exclusive hpc hop, rfl⟩, hpc, rfl⟩
  have hcall := step_shared hpc hop
  have happly := op.apply_eq_reads (m := s.mgr) hop
  rcases hr : (eval (op.reads s.mgr) s.mgr.accountsPro).1 with _ | n
  · refine ⟨[], s.lookUp i op, Trans.run_cons.mpr ⟨_, hcall, rfl⟩, ?_, ?_⟩
    · simp [State.lookUp, hr]
    · rw [happly, hr]
      rfl
  · have hgo : step (s.lookUp i op) (.go i) = some ((s.lookUp i op).eraseNode i n) := by
      simp [step, State.lookUp, hr]
    refine ⟨[.go i], (s.lookUp i op).eraseNode i n, Trans.run_cons.mpr ⟨_, hcall, ?_⟩, ?_, ?_⟩
    · exact Trans.run_cons.mpr ⟨_, hgo, rfl⟩
    · exact State.goTo_pcs_self _ i .out
    · rw [happly, hr]
      rfl

/-! ### What is in the table -/

/-- **A section under the shared lock leaves the table as it is if and only if it
finds every account that it reads.** -/
theorem lookUp_table {s : State} {i : ℕ} {op : Op} :
    (s.lookUp i op).mgr.accountsPro = s.mgr.accountsPro ↔ Hits (op.reads s.mgr) s.mgr.accountsPro :=
  eval_eq_iff

/-- What the step puts back into the list. -/
def Act.putsBack : Act → Option Str
  | .call _ (.op (.setIdleAccount acc)) => some acc
  | _ => none

/-- `set_idle_account` is called with what a draw has returned. -/
def PutsBack (s : State) (a : Act) : Prop := ∀ acc ∈ a.putsBack, acc ∈ s.drawn

instance (s : State) (a : Act) : Decidable (PutsBack s a) :=
  inferInstanceAs (Decidable (∀ acc ∈ a.putsBack, acc ∈ s.drawn))

/-- The table has the accounts `names`, and there are no others in the list, with
the draws that are not done, and among what draws have returned. -/
structure Closed (names : List Str) (s : State) : Prop where
  mgr : Within names s.mgr
  erase : ∀ i n, s.pcs i = .erase n → n.acc ∈ names
  drawn : ∀ acc ∈ s.drawn, acc ∈ names

section Closed

variable {names : List Str} {s s' : State} {i : ℕ}

/-- A section under the shared lock leaves the table as it was. -/
theorem Closed.lookUp_eq (h : Closed names s) (op : Op) :
    ∃ r : Option Node, s.lookUp i op = s.goTo i (r.elim .out .erase) ∧ ∀ n ∈ r, n ∈ s.mgr.idle := by
  obtain ⟨r, hfinds, hr⟩ := op.finds_reads h.mgr.idle_mem
  refine ⟨r, ?_, hr⟩
  unfold State.lookUp
  rw [hfinds.eval_eq]

/-- Going elsewhere: only a draw that is not done has to be looked at. -/
theorem Closed.goTo (h : Closed names s) {pc : Pc} (hpc : ∀ n, pc = .erase n → n.acc ∈ names) :
    Closed names (s.goTo i pc) where
  mgr := h.mgr
  erase j n hn := by
    by_cases hj : j = i
    · subst hj
      rw [State.goTo_pcs_self] at hn
      exact hpc n hn
    · rw [State.goTo_pcs_ne s pc hj] at hn
      exact h.erase j n hn
  drawn := h.drawn

theorem Closed.loopAt (h : Closed names s) (it : Option Str) : Closed names (s.loopAt i it) := by
  apply h.goTo
  intro n hn
  cases it <;> cases hn

/-- The table or the list changes, and nobody's place. -/
theorem Closed.withMgr (h : Closed names s) {m : AccountMgr} (hm : Within names m) :
    Closed names { s with mgr := m } :=
  ⟨hm, h.erase, h.drawn⟩

/-- **One step.** -/
theorem closed_step {a : Act} (h : Closed names s) (ha : PutsBack s a) (hs : step s a = some s') :
    Closed names s' := by
  cases step_cases hs with
  | @shared i op hpc hop =>
    obtain ⟨r, heq, hr⟩ := h.lookUp_eq (i := i) op
    rw [heq]
    apply h.goTo
    intro n hn
    cases r with
    | none => cases hn
    | some n' =>
      cases hn
      exact h.mgr.idle n (hr n rfl)
  | @exclusive i op hpc hop =>
    cases op with
    | setVoteStatus | setAccStatus | setEverydayTask => exact h.withMgr (h.mgr.update _ _)
    | setIdleAccount acc => exact h.withMgr (h.mgr.setIdleAccount (h.drawn acc (ha acc rfl)))
    | _ => cases hop
  | begin => exact h.loopAt _
  | @erase i n hpc =>
    have hn := h.erase i n hpc
    have herased : Closed names { s with mgr := s.mgr.eraseIdle n, drawn := n.acc :: s.drawn } :=
      { mgr := h.mgr.eraseIdle n
        erase := h.erase
        drawn := fun acc hacc => (List.mem_cons.mp hacc).elim (fun heq => heq ▸ hn) (h.drawn acc) }
    exact herased.goTo fun _ h => nomatch h
  | reset => exact (h.withMgr (h.mgr.update _ _)).goTo fun _ h => nomatch h
  | advance => exact h.loopAt _

theorem closed_loadData (rows : List (Str × AccountPro)) : Closed (rows.map (·.1)) (start (loadData rows)) where
  mgr := within_loadData rows
  erase _ _ hn := nomatch hn
  drawn _ hacc := nomatch hacc

/-- **Lookups create no accounts.** After `load_data`, in every run in which
`set_idle_account` is called with what a draw has returned, every idle account is in
the table, and the table has the accounts it had; what comes next under the shared
lock finds every account it looks up and leaves the table as it is. -/
theorem lookups_find (rows : List (Str × AccountPro)) (h : Trans.Reach step PutsBack (start (loadData rows)) s) :
    (∀ acc ∈ s.mgr.idleAccs, acc ∈ s.mgr.accountsPro) ∧
    (∀ acc, acc ∈ s.mgr.accountsPro ↔ acc ∈ (loadData rows).accountsPro) ∧
    ∀ i op s', op.isShared = true → step s (.call i (.op op)) = some s' →
      (∀ acc ∈ brackets (op.reads s.mgr) s.mgr.accountsPro, acc ∈ s.mgr.accountsPro) ∧
      s'.mgr.accountsPro = s.mgr.accountsPro := by
  have hclosed : Closed (rows.map (·.1)) s :=
    h.invariant (closed_loadData rows) fun _ _ _ h ha hs => closed_step h ha hs
  refine ⟨?_, ?_, ?_⟩
  · intro acc hacc
    obtain ⟨n, hn, rfl⟩ := List.mem_map.mp hacc
    exact hclosed.mgr.idle_mem n hn
  · intro acc
    rw [hclosed.mgr.table, mem_loadData]
  · intro i op s' hop hs
    obtain ⟨r, hfinds, -⟩ := op.finds_reads hclosed.mgr.idle_mem
    refine ⟨hfinds.hits, ?_⟩
    cases step_cases hs with
    | shared => exact lookUp_table.mpr hfinds.hits
    | exclusive hpc hop' => exact absurd (hop.symm.trans hop') (by decide)

/-- Two accounts; one is drawn and put back while the reset is on its way. -/
def backAgain : State :=
  (Trans.run (Trans.guarded step PutsBack)
    (start (loadData [(Str.of "b", default), (Str.of "a", default)]))
    [.call 0 .resetAllEverydayTask, .call 1 (.op .getIdleNotDailyTaskAccount), .go 0, .go 1, .go 0,
      .call 1 (.op (.setIdleAccount (Str.of "b"))), .go 0, .go 0]).get (by decide)

theorem lookups_find_again : Str.of "b" ∈ backAgain.mgr.idleAccs ∧ Str.of "b" ∈ backAgain.mgr.accountsPro := by
  have hidle : Str.of "b" ∈ backAgain.mgr.idleAccs := by decide
  exact ⟨hidle, (lookups_find _ (Trans.Reach.of_guarded (Option.some_get _).symm)).1 (Str.of "b") hidle⟩

end Closed

end AccountCalls
end ScheduleCenter
