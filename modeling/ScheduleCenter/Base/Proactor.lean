/-
# A proactor and its timers

One thread starts operations and then runs the service: it takes an operation
that is done, calls its handler, which may start or cancel others, and goes on
until none is outstanding. An operation is a wait for a deadline, or one that
something outside completes. To cancel an operation that is already done has no
effect: its handler is called as if it had not been cancelled.

A handler that can be called is called before time passes, and so is one whose
deadline has come. So time never passes a deadline (`Punctual`), and a service
with something outstanding always can go on (`can_go_on`).

Key definitions: `Op`, `Service`, `Service.start`, `Service.cancel`, `Service.tick`, `Service.expire`, `Service.Punctual`.
Key theorems: `Punctual.start`, `Punctual.cancel`, `Punctual.tick`, `can_go_on`.
-/
import Mathlib.Data.Fintype.Basic
import Mathlib.Logic.Function.Basic
import Mathlib.Order.Lattice

namespace Proactor

/-- An operation: not started, outstanding (a wait has a deadline), or done and
its handler not called yet. `ok` is false after a cancel. -/
inductive Op
  | idle
  | waiting (deadline : Option ℕ)
  | ready (ok : Bool)
deriving DecidableEq

/-- The time, and the operation of each object. -/
structure Service (ι : Type*) where
  now : ℕ
  op : ι → Op

namespace Service

variable {ι : Type*} [DecidableEq ι]

def set (s : Service ι) (k : ι) (o : Op) : Service ι := { s with op := Function.update s.op k o }

/-- An operation without a deadline. -/
def start (s : Service ι) (k : ι) : Service ι := s.set k (.waiting none)

/-- A wait: a deadline that is past is due now. -/
def wait (s : Service ι) (k : ι) (deadline : ℕ) : Service ι := s.set k (.waiting (some (max s.now deadline)))

def cancel (s : Service ι) (k : ι) : Service ι :=
  match s.op k with
  | .waiting _ => s.set k (.ready false)
  | _ => s

/-- Something outside completes an operation. -/
def complete (s : Service ι) (k : ι) (ok : Bool) : Option (Service ι) :=
  if s.op k = .waiting none then some (s.set k (.ready ok)) else none

/-- A wait ends. -/
def expire (s : Service ι) (k : ι) : Option (Service ι) :=
  if s.op k = .waiting (some s.now) then some (s.set k (.ready true)) else none

/-- The handler of an operation that is done is called. -/
def take (s : Service ι) (k : ι) : Option (Bool × Service ι) :=
  match s.op k with
  | .ready ok => some (ok, s.set k .idle)
  | _ => none

/-- Nothing is outstanding: to run the service returns. -/
def Quiet (s : Service ι) : Prop := ∀ k, s.op k = .idle

/-- Something is outstanding, and nothing is to be done now. -/
def Resting (s : Service ι) : Prop :=
  (∃ k, s.op k ≠ .idle) ∧ ∀ k, s.op k ≠ .waiting (some s.now) ∧ ∀ ok, s.op k ≠ .ready ok

instance [Fintype ι] (s : Service ι) : Decidable s.Quiet := inferInstanceAs (Decidable (∀ k, s.op k = .idle))

instance [Fintype ι] (s : Service ι) : Decidable s.Resting :=
  inferInstanceAs (Decidable ((∃ k, s.op k ≠ .idle) ∧ ∀ k, s.op k ≠ .waiting (some s.now) ∧ ∀ ok, s.op k ≠ .ready ok))

/-- Time passes while the service waits. -/
def tick [Fintype ι] (s : Service ι) : Option (Service ι) :=
  if s.Resting then some { s with now := s.now + 1 } else none

variable {s s' : Service ι} {k j : ι} {o : Op}

@[simp] theorem now_set : (s.set k o).now = s.now := rfl

theorem op_set : (s.set k o).op j = if j = k then o else s.op j := Function.update_apply ..

@[simp] theorem op_set_self : (s.set k o).op k = o := Function.update_self ..

theorem op_set_of_ne (h : j ≠ k) : (s.set k o).op j = s.op j := Function.update_of_ne h _ _

@[simp] theorem now_start : (s.start k).now = s.now := rfl

@[simp] theorem now_wait {d : ℕ} : (s.wait k d).now = s.now := rfl

@[simp]
theorem now_cancel : (s.cancel k).now = s.now := by
  unfold cancel
  split
  · rfl
  · rfl

theorem op_cancel_of_ne (h : j ≠ k) : (s.cancel k).op j = s.op j := by
  unfold cancel
  split
  · exact op_set_of_ne h
  · rfl

theorem op_cancel_of_waiting {d : Option ℕ} (h : s.op k = .waiting d) : (s.cancel k).op k = .ready false := by
  simp only [cancel, h, op_set_self]

theorem cancel_of_not_waiting (h : ∀ d, s.op k ≠ .waiting d) : s.cancel k = s := by
  unfold cancel
  split
  · exact absurd ‹_› (h _)
  · rfl

theorem complete_eq_some {ok : Bool} :
    s.complete k ok = some s' ↔ s.op k = .waiting none ∧ s' = s.set k (.ready ok) := by
  unfold complete
  split_ifs with h
  · simp [h, eq_comm]
  · simp [h]

theorem expire_eq_some : s.expire k = some s' ↔ s.op k = .waiting (some s.now) ∧ s' = s.set k (.ready true) := by
  unfold expire
  split_ifs with h
  · simp [h, eq_comm]
  · simp [h]

theorem take_eq_some {ok : Bool} : s.take k = some (ok, s') ↔ s.op k = .ready ok ∧ s' = s.set k .idle := by
  unfold take
  split
  · rename_i b h
    rw [h, Option.some.injEq, Prod.mk.injEq, Op.ready.injEq]
    exact and_congr Iff.rfl eq_comm
  · rename_i h
    simp only [reduceCtorEq, false_iff, not_and]
    exact fun hready => absurd hready (h ok)

omit [DecidableEq ι] in
theorem tick_eq_some [Fintype ι] : s.tick = some s' ↔ s.Resting ∧ s' = { s with now := s.now + 1 } := by
  unfold tick
  split_ifs with h
  · simp [h, eq_comm]
  · simp [h]

/-! ### Deadlines -/

/-- No deadline has passed. -/
def Punctual (s : Service ι) : Prop := ∀ k d, s.op k = .waiting (some d) → s.now ≤ d

theorem Punctual.set (h : s.Punctual) (ho : ∀ d, o = .waiting (some d) → s.now ≤ d) : (s.set k o).Punctual := by
  intro j d hj
  by_cases hjk : j = k
  · rw [hjk, op_set_self] at hj
    exact ho d hj
  · rw [op_set_of_ne hjk] at hj
    exact h j d hj

theorem Punctual.start (h : s.Punctual) : (s.start k).Punctual := h.set (by simp)

theorem Punctual.wait (h : s.Punctual) (d : ℕ) : (s.wait k d).Punctual := by
  apply h.set
  intro d' hd'
  simp only [Op.waiting.injEq, Option.some.injEq] at hd'
  omega

theorem Punctual.cancel (h : s.Punctual) : (s.cancel k).Punctual := by
  unfold Service.cancel
  split
  · exact h.set (by simp)
  · exact h

theorem Punctual.complete {ok : Bool} (h : s.Punctual) (hs : s.complete k ok = some s') : s'.Punctual := by
  rw [(complete_eq_some.mp hs).2]
  exact h.set (by simp)

theorem Punctual.expire (h : s.Punctual) (hs : s.expire k = some s') : s'.Punctual := by
  rw [(expire_eq_some.mp hs).2]
  exact h.set (by simp)

theorem Punctual.take {ok : Bool} (h : s.Punctual) (hs : s.take k = some (ok, s')) : s'.Punctual := by
  rw [(take_eq_some.mp hs).2]
  exact h.set (by simp)

omit [DecidableEq ι] in
theorem Punctual.tick [Fintype ι] (h : s.Punctual) (hs : s.tick = some s') : s'.Punctual := by
  obtain ⟨hrest, rfl⟩ := tick_eq_some.mp hs
  intro k d hk
  have hle := h k d hk
  have hne : d ≠ s.now := by
    rintro rfl
    exact (hrest.2 k).1 hk
  exact Nat.succ_le_of_lt (lt_of_le_of_ne hle hne.symm)

omit [DecidableEq ι] in
/-- A service that is run returns, calls a handler, ends a wait or waits. -/
theorem can_go_on (s : Service ι) :
    s.Quiet ∨ (∃ k ok, s.op k = .ready ok) ∨ (∃ k, s.op k = .waiting (some s.now)) ∨ s.Resting := by
  by_cases hquiet : s.Quiet
  · exact Or.inl hquiet
  by_cases hready : ∃ k ok, s.op k = .ready ok
  · exact Or.inr (Or.inl hready)
  by_cases hdue : ∃ k, s.op k = .waiting (some s.now)
  · exact Or.inr (Or.inr (Or.inl hdue))
  · push Not at hready hdue
    have hsome : ∃ k, s.op k ≠ .idle := not_forall.mp hquiet
    exact Or.inr (Or.inr (Or.inr ⟨hsome, fun k => ⟨hdue k, hready k⟩⟩))

end Service

end Proactor
