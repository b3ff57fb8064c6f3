/-
# Threads that share a mutex and a condition variable

An operation is a section of code under the mutex: `sect o d` is the value
the section of `o` leaves for `d` and what its thread does next (`After`):
return, wait on the condition variable (and on waking run the section
again, as a wait in a loop does), or unlock and notify one or all of the
waiting threads and go on with another operation or none. A notification is a
step of its own, after the unlock. A thread may wake up without one.

Two rules say when no wakeup is lost. If at most as many threads can go on as
`items` says, each section that adds an item notifies one thread and each
section that has waited takes one, then as long as a thread is waiting, the
items are no more than the notifications to come and the threads that are
awake (`Signals.items_le`). If a predicate of the value lets every thread go
on and a section that makes it true notifies all, then as long as a thread is
waiting under it, a thread is about to notify all (`Broadcasts.pending`).

Key definitions: `Monitor.After`, `Monitor.Pc`, `Monitor.step`, `Monitor.Signals`, `Monitor.Broadcasts`.
Key theorems: `Monitor.step_cases`, `Signals.items_le`, `Broadcasts.pending`, `Monitor.run_log`.
-/
import ScheduleCenter.Base.Trans
import ScheduleCenter.Base.Counting

namespace Monitor

variable {δ O β : Type*}

/-- What a thread does after a section. -/
inductive After (O : Type*)
  | ret
  | wait
  | notifyOne (next : Option O)
  | notifyAll (next : Option O)

/-- Where a thread is. -/
inductive Pc (O : Type*)
  | idle
  /-- About to lock the mutex for this operation. -/
  | enter (o : O)
  /-- Blocked, not notified. -/
  | waiting (o : O)
  /-- Woken, about to run the section again. -/
  | woken (o : O)
  | notifyOne (next : Option O)
  | notifyAll (next : Option O)

namespace Pc

def isWaiting : Pc O → Bool
  | waiting _ => true
  | _ => false

def isWoken : Pc O → Bool
  | woken _ => true
  | _ => false

def isNotifyOne : Pc O → Bool
  | notifyOne _ => true
  | _ => false

def isNotifyAll : Pc O → Bool
  | notifyAll _ => true
  | _ => false

/-- The operation whose section the thread can run. -/
def ready : Pc O → Option O
  | enter o | woken o => some o
  | _ => none

/-- The operation in which the thread has gone to sleep. -/
def sleeper : Pc O → Option O
  | waiting o | woken o => some o
  | _ => none

/-- What a notification of all does to a thread. -/
def wake : Pc O → Pc O
  | waiting o => woken o
  | pc => pc

/-- Where a thread goes on after it has notified. -/
def next (o : Option O) : Pc O := o.elim idle enter

@[simp] theorem isWaiting_next (o : Option O) : (next o).isWaiting = false := by cases o <;> rfl
@[simp] theorem isWoken_next (o : Option O) : (next o).isWoken = false := by cases o <;> rfl
@[simp] theorem isNotifyOne_next (o : Option O) : (next o).isNotifyOne = false := by cases o <;> rfl
@[simp] theorem isNotifyAll_next (o : Option O) : (next o).isNotifyAll = false := by cases o <;> rfl
@[simp] theorem sleeper_next (o : Option O) : (next o).sleeper = none := by cases o <;> rfl
@[simp] theorem isWaiting_wake (pc : Pc O) : pc.wake.isWaiting = false := by cases pc <;> rfl
@[simp] theorem sleeper_wake (pc : Pc O) : pc.wake.sleeper = pc.sleeper := by cases pc <;> rfl

end Pc

/-- Where a thread goes after a section of `o`. -/
def After.pc (o : O) : After O → Pc O
  | ret => .idle
  | wait => .waiting o
  | notifyOne next => .notifyOne next
  | notifyAll next => .notifyAll next

structure State (δ O : Type*) where
  data : δ
  threads : List (Pc O)

inductive Act (O : Type*)
  | call (i : ℕ) (o : O)
  | enter (i : ℕ)
  /-- Thread `i` notifies one, and thread `j` is the one. -/
  | notifyOne (i j : ℕ)
  /-- Thread `i` notifies one, and no thread is waiting. -/
  | notifyNone (i : ℕ)
  | notifyAll (i : ℕ)
  | spurious (i : ℕ)

variable (sect : O → δ → δ × After O)

def step (s : State δ O) : Act O → Option (State δ O)
  | .call i o =>
    match s.threads[i]? with
    | some .idle => some { s with threads := s.threads.set i (.enter o) }
    | _ => none
  | .enter i =>
    ((s.threads[i]?).bind Pc.ready).map fun o =>
      ⟨(sect o s.data).1, s.threads.set i ((sect o s.data).2.pc o)⟩
  | .notifyOne i j =>
    match s.threads[i]?, s.threads[j]? with
    | some (.notifyOne o), some (.waiting w) =>
      some { s with threads := (s.threads.set i (.next o)).set j (.woken w) }
    | _, _ => none
  | .notifyNone i =>
    match s.threads[i]? with
    | some (.notifyOne o) =>
      if s.threads.any Pc.isWaiting then none else some { s with threads := s.threads.set i (.next o) }
    | _ => none
  | .notifyAll i =>
    match s.threads[i]? with
    | some (.notifyAll o) => some { s with threads := (s.threads.map Pc.wake).set i (.next o) }
    | _ => none
  | .spurious i =>
    match s.threads[i]? with
    | some (.waiting w) => some { s with threads := s.threads.set i (.woken w) }
    | _ => none

/-- `n` threads outside of every operation. -/
def init (d : δ) (n : ℕ) : State δ O := ⟨d, List.replicate n .idle⟩

/-- What a step can do. -/
inductive Case (s : State δ O) : Act O → State δ O → Prop
  | call {i : ℕ} {o : O} (h : s.threads[i]? = some .idle) :
      Case s (.call i o) { s with threads := s.threads.set i (.enter o) }
  | enter {i : ℕ} {o : O} {pc : Pc O} (h : s.threads[i]? = some pc) (hpc : pc = .enter o ∨ pc = .woken o) :
      Case s (.enter i) ⟨(sect o s.data).1, s.threads.set i ((sect o s.data).2.pc o)⟩
  | notifyOne {i j : ℕ} {o : Option O} {w : O} (h : s.threads[i]? = some (.notifyOne o))
      (hj : s.threads[j]? = some (.waiting w)) :
      Case s (.notifyOne i j) { s with threads := (s.threads.set i (.next o)).set j (.woken w) }
  | notifyNone {i : ℕ} {o : Option O} (h : s.threads[i]? = some (.notifyOne o))
      (hw : s.threads.countP Pc.isWaiting = 0) :
      Case s (.notifyNone i) { s with threads := s.threads.set i (.next o) }
  | notifyAll {i : ℕ} {o : Option O} (h : s.threads[i]? = some (.notifyAll o)) :
      Case s (.notifyAll i) { s with threads := (s.threads.map Pc.wake).set i (.next o) }
  | spurious {i : ℕ} {w : O} (h : s.threads[i]? = some (.waiting w)) :
      Case s (.spurious i) { s with threads := s.threads.set i (.woken w) }

variable {sect}

theorem ready_eq_some {pc : Pc O} {o : O} (h : pc.ready = some o) : pc = .enter o ∨ pc = .woken o := by
  cases pc <;> simp_all [Pc.ready]

theorem step_cases {s s' : State δ O} {a : Act O} (h : step sect s a = some s') : Case sect s a s' := by
  cases a <;> simp only [step] at h
  case call i o =>
    split at h
    · cases h
      exact .call ‹_›
    · cases h
  case enter i =>
    obtain ⟨o, ho, rfl⟩ := Option.map_eq_some_iff.mp h
    obtain ⟨pc, hpc, hr⟩ := Option.bind_eq_some_iff.mp ho
    exact .enter hpc (ready_eq_some hr)
  case notifyOne i j =>
    split at h
    · cases h
      exact .notifyOne ‹_› ‹_›
    · cases h
  case notifyNone i =>
    split at h
    · split at h
      · cases h
      · rename_i hw
        cases h
        refine .notifyNone ‹_› (List.countP_eq_zero.mpr fun pc hpc hw' => hw ?_)
        exact List.any_eq_true.mpr ⟨pc, hpc, hw'⟩
    · cases h
  case notifyAll i =>
    split at h
    · cases h
      exact .notifyAll ‹_›
    · cases h
  case spurious i =>
    split at h
    · cases h
      exact .spurious ‹_›
    · cases h

/-! ### One at a time -/

/-- The items a section is to answer for with a notification. -/
def After.credit : After O → ℕ
  | notifyOne _ => 1
  | _ => 0

theorem After.isWaiting_pc {a : After O} (h : a ≠ .wait) (o : O) : (a.pc o).isWaiting = false := by
  cases a <;> first | rfl | exact absurd rfl h

theorem After.isNotifyOne_pc (a : After O) (o : O) : (a.pc o).isNotifyOne.toNat = a.credit := by
  cases a <;> rfl

theorem After.isWoken_pc (a : After O) (o : O) : (a.pc o).isWoken = false := by
  cases a <;> rfl

/-- What the sections do to the items of the value. -/
structure Signals (sect : O → δ → δ × After O) (items : δ → ℕ) : Prop where
  /-- A thread waits only if there is no item for it. -/
  wait : ∀ o d, (sect o d).2 = .wait → items (sect o d).1 = 0
  /-- An item added is one notification to come. -/
  credit : ∀ o d, items (sect o d).1 ≤ items d + (sect o d).2.credit
  /-- A section that has waited takes an item, or there is none. -/
  takes : ∀ o, (∃ d, (sect o d).2 = .wait) → ∀ d,
    items (sect o d).1 + 1 ≤ items d + (sect o d).2.credit ∨ items (sect o d).1 = 0

/-- What is kept: who has gone to sleep did so in a section that waits, and
the items are no more than the notifications to come and the threads awake. -/
structure Covered (sect : O → δ → δ × After O) (items : δ → ℕ) (s : State δ O) : Prop where
  sleeps : ∀ pc ∈ s.threads, ∀ o, pc.sleeper = some o → ∃ d, (sect o d).2 = .wait
  items_le : s.threads.countP Pc.isWaiting = 0 ∨
    items s.data ≤ s.threads.countP Pc.isNotifyOne + s.threads.countP Pc.isWoken

/-- How the counts change when thread `i` moves. -/
theorem counts_set {l : List (Pc O)} {i : ℕ} {x : Pc O} (h : l[i]? = some x) (y : Pc O) :
    (l.set i y).countP Pc.isWaiting + x.isWaiting.toNat = l.countP Pc.isWaiting + y.isWaiting.toNat ∧
    (l.set i y).countP Pc.isNotifyOne + x.isNotifyOne.toNat = l.countP Pc.isNotifyOne + y.isNotifyOne.toNat ∧
    (l.set i y).countP Pc.isWoken + x.isWoken.toNat = l.countP Pc.isWoken + y.isWoken.toNat ∧
    (l.set i y).countP Pc.isNotifyAll + x.isNotifyAll.toNat = l.countP Pc.isNotifyAll + y.isNotifyAll.toNat :=
  ⟨Counting.countP_set_add h fun _ _ _ _ => rfl, Counting.countP_set_add h fun _ _ _ _ => rfl,
    Counting.countP_set_add h fun _ _ _ _ => rfl, Counting.countP_set_add h fun _ _ _ _ => rfl⟩

section Covered

variable {items : δ → ℕ} {s s' : State δ O} {a : Act O}

theorem Covered.sleeps_set (h : Covered sect items s) (i : ℕ) {y : Pc O}
    (hy : ∀ o, y.sleeper = some o → ∃ d, (sect o d).2 = .wait) (pc : Pc O) (hpc : pc ∈ s.threads.set i y)
    (o : O) (ho : pc.sleeper = some o) : ∃ d, (sect o d).2 = .wait :=
  Counting.forall_mem_set h.sleeps hy pc hpc o ho

/-- A section of a thread that comes in or is awake. -/
theorem Signals.enter (hs : Signals sect items) (h : Covered sect items s) {i : ℕ} {o : O} {pc : Pc O}
    (hi : s.threads[i]? = some pc) (hpc : pc = .enter o ∨ pc = .woken o) :
    Covered sect items ⟨(sect o s.data).1, s.threads.set i ((sect o s.data).2.pc o)⟩ := by
  refine ⟨h.sleeps_set i fun w hw => ?_, ?_⟩
  · cases ha : (sect o s.data).2 <;> rw [ha] at hw <;> simp [After.pc, Pc.sleeper] at hw
    exact ⟨s.data, hw ▸ ha⟩
  · by_cases hwait : (sect o s.data).2 = .wait
    · exact .inr (by rw [hs.wait o s.data hwait]; exact Nat.zero_le _)
    · obtain ⟨hW, hN, hK, -⟩ := counts_set hi ((sect o s.data).2.pc o)
      rw [After.isWaiting_pc hwait] at hW
      rw [After.isNotifyOne_pc] at hN
      rw [After.isWoken_pc] at hK
      have hcov := h.items_le
      show (s.threads.set i _).countP Pc.isWaiting = 0 ∨ items (sect o s.data).1 ≤
        (s.threads.set i _).countP Pc.isNotifyOne + (s.threads.set i _).countP Pc.isWoken
      rcases hpc with rfl | rfl
      · -- the thread has not waited: it may leave every item there was
        have hcredit := hs.credit o s.data
        simp only [Pc.isWaiting, Pc.isNotifyOne, Pc.isWoken, Bool.toNat_false] at hW hN hK
        omega
      · -- one thread less is awake, and one item is gone
        have htakes := hs.takes o (h.sleeps _ (List.mem_of_getElem? hi) o rfl) s.data
        simp only [Pc.isWaiting, Pc.isNotifyOne, Pc.isWoken, Bool.toNat_false, Bool.toNat_true] at hW hN hK
        omega

theorem Signals.step (hs : Signals sect items) (h : Covered sect items s) (hc : Case sect s a s') :
    Covered sect items s' := by
  have hle := h.items_le
  cases hc
  case call i o hi =>
    obtain ⟨hW, hN, hK, -⟩ := counts_set hi (.enter o)
    simp only [Pc.isWaiting, Pc.isNotifyOne, Pc.isWoken, Bool.toNat_false, Nat.add_zero] at hW hN hK
    exact ⟨h.sleeps_set i (by simp [Pc.sleeper]), by rwa [hW, hN, hK]⟩
  case enter i o pc hi hpc => exact hs.enter h hi hpc
  case notifyOne i j o w hi hj =>
    have hij : i ≠ j := fun hij => by simp [hij ▸ hi] at hj
    have hj' : (s.threads.set i (.next o))[j]? = some (.waiting w) := by rwa [List.getElem?_set_ne hij]
    obtain ⟨-, hN, hK, -⟩ := counts_set hi (.next o)
    obtain ⟨hW', hN', hK', -⟩ := counts_set hj' (.woken w)
    refine ⟨fun pc hpc v hv => ?_, ?_⟩
    · rcases List.mem_or_eq_of_mem_set hpc with hm | rfl
      · exact h.sleeps_set i (by simp) pc hm v hv
      · exact h.sleeps _ (List.mem_of_getElem? hj) v hv
    · rw [Pc.isNotifyOne_next] at hN
      rw [Pc.isWoken_next] at hK
      simp only [Pc.isWaiting, Pc.isNotifyOne, Pc.isWoken, Bool.toNat_false, Bool.toNat_true] at hN hK hW' hN' hK'
      have hpos : s.threads.countP Pc.isWaiting ≠ 0 := fun h0 =>
        List.countP_eq_zero.mp h0 _ (List.mem_of_getElem? hj) rfl
      refine .inr ?_
      show items s.data ≤ ((s.threads.set i _).set j _).countP _ + ((s.threads.set i _).set j _).countP _
      omega
  case notifyNone i o hi hw =>
    obtain ⟨hW, -⟩ := counts_set hi (.next o)
    rw [Pc.isWaiting_next] at hW
    simp only [Pc.isWaiting, Bool.toNat_false] at hW
    refine ⟨h.sleeps_set i (by simp), .inl ?_⟩
    show (s.threads.set i _).countP _ = 0
    omega
  case notifyAll i o hi =>
    refine ⟨fun pc hpc v hv => ?_, .inl (List.countP_eq_zero.mpr fun pc hpc => ?_)⟩
    · rcases List.mem_or_eq_of_mem_set hpc with hm | rfl
      · obtain ⟨pc', hm', rfl⟩ := List.mem_map.mp hm
        exact h.sleeps pc' hm' v (by rwa [Pc.sleeper_wake] at hv)
      · simp at hv
    · rcases List.mem_or_eq_of_mem_set hpc with hm | rfl
      · obtain ⟨pc', -, rfl⟩ := List.mem_map.mp hm
        simp
      · simp
  case spurious i w hi =>
    obtain ⟨hW, hN, hK, -⟩ := counts_set hi (.woken w)
    simp only [Pc.isWaiting, Pc.isNotifyOne, Pc.isWoken, Bool.toNat_false, Bool.toNat_true, Nat.add_zero] at hW hN hK
    refine ⟨h.sleeps_set i fun v hv => h.sleeps (.waiting w) (List.mem_of_getElem? hi) v hv, ?_⟩
    show (s.threads.set i _).countP _ = 0 ∨ items s.data ≤ (s.threads.set i _).countP _ + (s.threads.set i _).countP _
    omega

/-- **No signal is lost.** As long as a thread is waiting, each item has a
notification to come or a thread awake. -/
theorem Signals.items_le (hs : Signals sect items) {d : δ} {n : ℕ}
    (h : Trans.Reach (Monitor.step sect) (fun _ _ => True) (init d n) s) {o : O} (ho : .waiting o ∈ s.threads) :
    items s.data ≤ s.threads.countP Pc.isNotifyOne + s.threads.countP Pc.isWoken := by
  have hcov : Covered sect items s := by
    refine h.invariant ⟨fun pc hpc o ho => ?_, .inl (List.countP_eq_zero.mpr fun pc hpc => ?_)⟩
      fun _ _ _ h _ hs' => hs.step h (step_cases hs')
    · rw [List.eq_of_mem_replicate hpc] at ho
      cases ho
    · rw [List.eq_of_mem_replicate hpc]
      simp [Pc.isWaiting]
  exact hcov.items_le.resolve_left fun h0 => List.countP_eq_zero.mp h0 _ ho rfl

end Covered

/-! ### All at once -/

/-- The thread goes on to notify all. -/
def After.isNotifyAll : After O → Bool
  | notifyAll _ => true
  | _ => false

theorem After.isNotifyAll_pc (a : After O) (o : O) : (a.pc o).isNotifyAll = a.isNotifyAll := by
  cases a <;> rfl

/-- What the sections do to a predicate that lets every thread go on. -/
structure Broadcasts (sect : O → δ → δ × After O) (P : δ → Prop) : Prop where
  wait : ∀ o d, (sect o d).2 = .wait → ¬ P (sect o d).1
  makes : ∀ o d, ¬ P d → P (sect o d).1 → (sect o d).2.isNotifyAll = true

/-- Under the predicate nobody waits, or all are to be notified. -/
def Pending (P : δ → Prop) (s : State δ O) : Prop :=
  P s.data → s.threads.countP Pc.isWaiting = 0 ∨ 0 < s.threads.countP Pc.isNotifyAll

section Broadcasts

variable {P : δ → Prop} {s s' : State δ O} {a : Act O}

theorem Broadcasts.step (hb : Broadcasts sect P) (h : Pending P s) (hc : Case sect s a s') : Pending P s' := by
  intro hP
  cases hc
  case call i o hi =>
    obtain ⟨hW, -, -, hA⟩ := counts_set hi (.enter o)
    simp only [Pc.isWaiting, Pc.isNotifyAll, Bool.toNat_false, Nat.add_zero] at hW hA
    rw [hW, hA]
    exact h hP
  case enter i o pc hi hpc =>
    obtain ⟨hW, -, -, hA⟩ := counts_set hi ((sect o s.data).2.pc o)
    rw [After.isNotifyAll_pc] at hA
    have hpc' : pc.isWaiting = false ∧ pc.isNotifyAll = false := by rcases hpc with rfl | rfl <;> exact ⟨rfl, rfl⟩
    rw [hpc'.2] at hA
    show (s.threads.set i _).countP _ = 0 ∨ 0 < (s.threads.set i _).countP _
    by_cases hP' : P s.data
    · have hwait : (sect o s.data).2 ≠ .wait := fun hw => hb.wait o s.data hw hP
      rw [After.isWaiting_pc hwait, hpc'.1] at hW
      have hpend := h hP'
      simp only [Bool.toNat_false] at hW hA
      omega
    · rw [hb.makes o s.data hP' hP] at hA
      simp only [Bool.toNat_false, Bool.toNat_true] at hA
      omega
  case notifyOne i j o w hi hj =>
    have hij : i ≠ j := fun hij => by simp [hij ▸ hi] at hj
    have hj' : (s.threads.set i (.next o))[j]? = some (.waiting w) := by rwa [List.getElem?_set_ne hij]
    obtain ⟨hW, -, -, hA⟩ := counts_set hi (.next o)
    obtain ⟨hW', -, -, hA'⟩ := counts_set hj' (.woken w)
    rw [Pc.isWaiting_next] at hW
    rw [Pc.isNotifyAll_next] at hA
    simp only [Pc.isWaiting, Pc.isNotifyAll, Bool.toNat_false, Bool.toNat_true] at hW hA hW' hA'
    have hpend := h hP
    show ((s.threads.set i _).set j _).countP _ = 0 ∨ 0 < ((s.threads.set i _).set j _).countP _
    omega
  case notifyNone i o hi hw =>
    obtain ⟨hW, -⟩ := counts_set hi (.next o)
    rw [Pc.isWaiting_next] at hW
    simp only [Pc.isWaiting, Bool.toNat_false] at hW
    refine .inl ?_
    show (s.threads.set i _).countP _ = 0
    omega
  case notifyAll i o hi =>
    refine .inl (List.countP_eq_zero.mpr fun pc hpc => ?_)
    rcases List.mem_or_eq_of_mem_set hpc with hm | rfl
    · obtain ⟨pc', -, rfl⟩ := List.mem_map.mp hm
      simp
    · simp
  case spurious i w hi =>
    obtain ⟨hW, -, -, hA⟩ := counts_set hi (.woken w)
    simp only [Pc.isWaiting, Pc.isNotifyAll, Bool.toNat_false, Bool.toNat_true] at hW hA
    have hpend := h hP
    show (s.threads.set i _).countP _ = 0 ∨ 0 < (s.threads.set i _).countP _
    omega

/-- **No broadcast is lost.** As long as a thread is waiting under the
predicate, a thread is about to notify all. -/
theorem Broadcasts.pending (hb : Broadcasts sect P) {d : δ} {n : ℕ}
    (h : Trans.Reach (Monitor.step sect) (fun _ _ => True) (init d n) s) (hP : P s.data) {o : O}
    (ho : .waiting o ∈ s.threads) : 0 < s.threads.countP Pc.isNotifyAll := by
  have hpend : Pending P s := by
    refine h.invariant (fun _ => .inl (List.countP_eq_zero.mpr fun pc hpc => ?_))
      fun _ _ _ h _ hs' => hb.step h (step_cases hs')
    rw [List.eq_of_mem_replicate hpc]
    simp [Pc.isWaiting]
  exact (hpend hP).resolve_left fun h0 => List.countP_eq_zero.mp h0 _ ho rfl

end Broadcasts

/-! ### What the sections of a run put out -/

/-- What the section entered at a step puts out, if one is. -/
def log (f : O → δ → List β) (s : State δ O) : Act O → List β
  | .enter i => ((s.threads[i]?).bind Pc.ready).elim [] fun o => f o s.data
  | _ => []

/-- If each section takes from the front of a list what it puts out and adds
to its end what it takes in, so does a run. -/
theorem run_log {v : δ → List β} {inn out : O → δ → List β}
    (h : ∀ o d, v d ++ inn o d = out o d ++ v (sect o d).1) {as : List (Act O)} {s s' : State δ O}
    (hr : Trans.run (step sect) s as = some s') :
    v s.data ++ Trans.emits (step sect) (log inn) s as = Trans.emits (step sect) (log out) s as ++ v s'.data := by
  refine Trans.run_emits (fun s => v s.data) (fun s a s' hs => ?_) hr
  cases a
  case enter i =>
    obtain ⟨o, ho, rfl⟩ := Option.map_eq_some_iff.mp hs
    simpa only [log, ho, Option.elim_some] using h o s.data
  all_goals
    have hd : s'.data = s.data := by cases step_cases hs; rfl
    simp [log, hd]

end Monitor
