/-
# Threads that share data under one shared mutex

Each thread runs a program (`Code`) that takes and releases one mutex, shared
or exclusively, and reads and changes the data in between. An exclusive lock
waits until nobody holds the mutex; a shared one waits while the mutex is held
exclusively, and while somebody waits to hold it so (`State.step`).

A thread that holds the mutex shared and locks it shared again can be held up
by a thread that waits for it to release (`State.crossed`). For programs that
keep to the discipline of `Code.Fits` nothing else can go wrong: a state in
which no thread can move is one in which all are done, or a crossed one
(`crossed_of_stuck`). Two crossed threads never move again (`crossed_step`),
and since no run is infinite (`wf_step`) every crossed state ends in a stuck one
(`stuck_of_crossed`). Programs without such a second lock (`Code.Flat`) never
get stuck.

Key definitions: `RwLock.Code`, `RwLock.State.step`, `RwLock.Code.Fits`,
`RwLock.Code.Flat`, `RwLock.State.crossed`, `RwLock.State.Stuck`.
Key theorems: `RwLock.not_stuck`, `RwLock.exists_stuck`, `RwLock.not_stuck_of_flat`,
`RwLock.wf_step`, `RwLock.reach_eval`.
-/
import ScheduleCenter.Base.Trans
import ScheduleCenter.Base.Counting
import Mathlib.Logic.Hydra

namespace RwLock

universe u

/-- A program under the mutex. -/
inductive Code (σ : Type u) : Type u
  | done
  | lockShared (k : Code σ)
  | unlockShared (k : Code σ)
  | lock (k : Code σ)
  | unlock (k : Code σ)
  | get (k : σ → Code σ)
  | put (f : σ → σ) (k : Code σ)

variable {σ : Type u}

namespace Code

/-- What the program makes of the data if nobody interferes. -/
def eval : Code σ → σ → σ
  | .done, d => d
  | .lockShared k, d => eval k d
  | .unlockShared k, d => eval k d
  | .lock k, d => eval k d
  | .unlock k, d => eval k d
  | .get k, d => eval (k d) d
  | .put f k, d => eval k (f d)

/-- The shared locks the program takes if nobody interferes. -/
def sharedLocks : Code σ → σ → ℕ
  | .done, _ => 0
  | .lockShared k, d => sharedLocks k d + 1
  | .unlockShared k, d => sharedLocks k d
  | .lock k, d => sharedLocks k d
  | .unlock k, d => sharedLocks k d
  | .get k, d => sharedLocks (k d) d
  | .put f k, d => sharedLocks k (f d)

/-- The locks are released in the way they were taken, the exclusive one is
not taken by a thread that holds the mutex, and at the end nothing is held.
`h` and `x` are the shared and the exclusive locks held before. -/
def Fits : ℕ → Bool → Code σ → Prop
  | h, x, .done => h = 0 ∧ x = false
  | h, x, .lockShared k => x = false ∧ Fits (h + 1) false k
  | h, x, .unlockShared k => 0 < h ∧ Fits (h - 1) x k
  | h, x, .lock k => h = 0 ∧ x = false ∧ Fits 0 true k
  | h, x, .unlock k => x = true ∧ Fits h false k
  | h, x, .get k => ∀ d, Fits h x (k d)
  | h, x, .put _ k => Fits h x k

/-- No shared lock is taken while `h`, the number held, is not zero. -/
def Flat : ℕ → Code σ → Prop
  | _, .done => True
  | h, .lockShared k => h = 0 ∧ Flat 1 k
  | h, .unlockShared k => Flat (h - 1) k
  | h, .lock k => Flat h k
  | h, .unlock k => Flat h k
  | h, .get k => ∀ d, Flat h (k d)
  | h, .put _ k => Flat h k

def isDone : Code σ → Bool
  | .done => true
  | _ => false

/-- The next step is a shared lock. -/
def entersShared : Code σ → Bool
  | .lockShared _ => true
  | _ => false

def entersExclusive : Code σ → Bool
  | .lock _ => true
  | _ => false

theorem not_done_of_entersExclusive {c : Code σ} (h : c.entersExclusive = true) :
    c.isDone = false ∧ c.entersShared = false := by
  cases c <;> first | exact ⟨rfl, rfl⟩ | cases h

theorem not_done_of_entersShared {c : Code σ} (h : c.entersShared = true) : c.isDone = false := by
  cases c <;> first | rfl | cases h

/-- The program that is left after one step. -/
inductive Next : Code σ → Code σ → Prop
  | lockShared (k : Code σ) : Next k (.lockShared k)
  | unlockShared (k : Code σ) : Next k (.unlockShared k)
  | lock (k : Code σ) : Next k (.lock k)
  | unlock (k : Code σ) : Next k (.unlock k)
  | get (k : σ → Code σ) (d : σ) : Next (k d) (.get k)
  | put (f : σ → σ) (k : Code σ) : Next k (.put f k)

theorem wf_next : WellFounded (@Next σ) := by
  constructor
  intro c
  induction c with
  | done => exact ⟨_, fun _ h => nomatch h⟩
  | lockShared k ih => exact ⟨_, fun _ h => by cases h; exact ih⟩
  | unlockShared k ih => exact ⟨_, fun _ h => by cases h; exact ih⟩
  | lock k ih => exact ⟨_, fun _ h => by cases h; exact ih⟩
  | unlock k ih => exact ⟨_, fun _ h => by cases h; exact ih⟩
  | get k ih => exact ⟨_, fun _ h => by cases h; exact ih _⟩
  | put f k ih => exact ⟨_, fun _ h => by cases h; exact ih⟩

end Code

/-- A thread: what it has still to do, the shared locks it holds, whether it
holds the mutex exclusively, and whether it waits to. -/
structure Proc (σ : Type u) where
  code : Code σ
  shared : ℕ
  exclusive : Bool
  waiting : Bool

structure State (σ : Type u) where
  data : σ
  procs : List (Proc σ)

namespace State

/-- Nobody holds the mutex. -/
def free (s : State σ) : Bool := s.procs.all fun p => p.shared == 0 && !p.exclusive

/-- Nobody holds the mutex exclusively or waits to. -/
def admits (s : State σ) : Bool := s.procs.all fun p => !p.exclusive && !p.waiting

/-- The next step of a thread, `none` if it is done or has to wait. -/
def exec (s : State σ) (p : Proc σ) : Option (σ × Proc σ) :=
  match p.code with
  | .done => none
  | .lockShared k => if s.admits then some (s.data, { p with code := k, shared := p.shared + 1 }) else none
  | .unlockShared k => some (s.data, { p with code := k, shared := p.shared - 1 })
  | .lock k =>
    if s.free then some (s.data, { p with code := k, exclusive := true, waiting := false })
    else if p.waiting then none
    else some (s.data, { p with waiting := true })
  | .unlock k => some (s.data, { p with code := k, exclusive := false })
  | .get k => some (s.data, { p with code := k s.data })
  | .put f k => some (f s.data, { p with code := k })

/-- Thread `i` takes a step. -/
def step (s : State σ) (i : ℕ) : Option (State σ) :=
  (s.procs[i]?).bind fun p => (s.exec p).map fun r => ⟨r.1, s.procs.set i r.2⟩

/-- The threads before their first step. -/
def start (d : σ) (codes : List (Code σ)) : State σ := ⟨d, codes.map fun c => ⟨c, 0, false, false⟩⟩

/-- A thread is not done, and none can move. -/
def Stuck (s : State σ) : Prop := (∃ p ∈ s.procs, p.code.isDone = false) ∧ ∀ i, s.step i = none

/-- A thread that holds the mutex shared is about to lock it shared again while
another waits to hold it exclusively. -/
def crossed (s : State σ) : Bool :=
  (s.procs.any fun p => decide (0 < p.shared) && p.code.entersShared) && s.procs.any (·.waiting)

/-- The step of thread `i` leaves two threads crossed. -/
def crosses (s : State σ) (i : ℕ) : Bool := (s.step i).any crossed

theorem crossed_iff {s : State σ} : s.crossed = true ↔ ∃ i j : ℕ, ∃ p q,
    s.procs[i]? = some p ∧ s.procs[j]? = some q ∧ 0 < p.shared ∧ p.code.entersShared = true ∧ q.waiting = true := by
  simp only [crossed, Bool.and_eq_true, List.any_eq_true, decide_eq_true_eq]
  constructor
  · rintro ⟨⟨p, hp, hsh, henter⟩, q, hq, hwait⟩
    obtain ⟨i, hi⟩ := List.mem_iff_getElem?.mp hp
    obtain ⟨j, hj⟩ := List.mem_iff_getElem?.mp hq
    exact ⟨i, j, p, q, hi, hj, hsh, henter, hwait⟩
  · rintro ⟨i, j, p, q, hi, hj, hsh, henter, hwait⟩
    exact ⟨⟨p, List.mem_of_getElem? hi, hsh, henter⟩, q, List.mem_of_getElem? hj, hwait⟩

end State

/-! ### Steps -/

/-- What a step of a thread can do. -/
inductive Exec (s : State σ) : Proc σ → σ → Proc σ → Prop
  | lockShared (k : Code σ) (h : ℕ) (x w : Bool) : s.admits = true →
      Exec s ⟨.lockShared k, h, x, w⟩ s.data ⟨k, h + 1, x, w⟩
  | unlockShared (k : Code σ) (h : ℕ) (x w : Bool) : Exec s ⟨.unlockShared k, h, x, w⟩ s.data ⟨k, h - 1, x, w⟩
  | lock (k : Code σ) (h : ℕ) (x w : Bool) : s.free = true → Exec s ⟨.lock k, h, x, w⟩ s.data ⟨k, h, true, false⟩
  | wait (k : Code σ) (h : ℕ) (x : Bool) : s.free = false →
      Exec s ⟨.lock k, h, x, false⟩ s.data ⟨.lock k, h, x, true⟩
  | unlock (k : Code σ) (h : ℕ) (x w : Bool) : Exec s ⟨.unlock k, h, x, w⟩ s.data ⟨k, h, false, w⟩
  | get (k : σ → Code σ) (h : ℕ) (x w : Bool) : Exec s ⟨.get k, h, x, w⟩ s.data ⟨k s.data, h, x, w⟩
  | put (f : σ → σ) (k : Code σ) (h : ℕ) (x w : Bool) : Exec s ⟨.put f k, h, x, w⟩ (f s.data) ⟨k, h, x, w⟩

theorem exec_eq_some {s : State σ} {p p' : Proc σ} {d : σ} : s.exec p = some (d, p') ↔ Exec s p d p' := by
  constructor
  · intro h
    obtain ⟨c, sh, x, w⟩ := p
    cases c with
    | done => cases h
    | lockShared k =>
      simp only [State.exec] at h
      split_ifs at h with ha
      cases h
      exact .lockShared k sh x w ha
    | unlockShared k =>
      cases h
      exact .unlockShared k sh x w
    | lock k =>
      simp only [State.exec] at h
      split_ifs at h with hf hw
      · cases h
        exact .lock k sh x w hf
      · cases h
        simp only [Bool.not_eq_true] at hf hw
        subst hw
        exact .wait k sh x hf
    | unlock k =>
      cases h
      exact .unlock k sh x w
    | get k =>
      cases h
      exact .get k sh x w
    | put f k =>
      cases h
      exact .put f k sh x w
  · intro h
    cases h with
    | lockShared k sh x w ha => simp [State.exec, ha]
    | lock k sh x w hf => simp [State.exec, hf]
    | wait k sh x hf => simp [State.exec, hf]
    | unlockShared | unlock | get | put => rfl

theorem step_eq_some {s s' : State σ} {i : ℕ} :
    s.step i = some s' ↔ ∃ p d p', s.procs[i]? = some p ∧ Exec s p d p' ∧ s' = ⟨d, s.procs.set i p'⟩ := by
  unfold State.step
  rw [Option.bind_eq_some_iff]
  constructor
  · rintro ⟨p, hp, h⟩
    obtain ⟨⟨d, p'⟩, he, rfl⟩ := Option.map_eq_some_iff.mp h
    exact ⟨p, d, p', hp, exec_eq_some.mp he, rfl⟩
  · rintro ⟨p, d, p', hp, he, rfl⟩
    exact ⟨p, hp, by rw [exec_eq_some.mpr he]; rfl⟩

/-- The other threads are left alone. -/
theorem step_getElem? {s s' : State σ} {i j : ℕ} {p : Proc σ} (h : s.step i = some s') (hj : s.procs[j]? = some p)
    (hne : j ≠ i) : s'.procs[j]? = some p := by
  obtain ⟨_, _, _, _, _, rfl⟩ := step_eq_some.mp h
  show (s.procs.set i _)[j]? = some p
  rw [List.getElem?_set_ne hne.symm, hj]

/-- A property of threads that their steps keep is kept by a step of the
system. -/
theorem forall_step {P : Proc σ → Prop} (hP : ∀ (s : State σ) p d p', Exec s p d p' → P p → P p') {s s' : State σ}
    {i : ℕ} (h : s.step i = some s') (hs : ∀ p ∈ s.procs, P p) : ∀ p ∈ s'.procs, P p := by
  obtain ⟨p, d, p', hp, he, rfl⟩ := step_eq_some.mp h
  exact Counting.forall_mem_set hs (hP s p d p' he (hs p (List.mem_of_getElem? hp)))

/-! ### The discipline -/

/-- The thread keeps to the discipline, and waits only where it locks. -/
structure Proc.Ok (p : Proc σ) : Prop where
  fits : p.code.Fits p.shared p.exclusive
  waits : p.waiting = true → p.code.entersExclusive = true

theorem Exec.ok {s : State σ} {p p' : Proc σ} {d : σ} (h : Exec s p d p') (hp : p.Ok) : p'.Ok := by
  obtain ⟨hfits, hwaits⟩ := hp
  cases h with
  | lockShared k sh x w _ =>
    obtain ⟨hx, hk⟩ := hfits
    rw [show x = false from hx]
    exact ⟨hk, fun hw => nomatch hwaits hw⟩
  | unlockShared k sh x w => exact ⟨hfits.2, fun hw => nomatch hwaits hw⟩
  | lock k sh x w _ =>
    obtain ⟨hsh, _, hk⟩ := hfits
    rw [show sh = 0 from hsh]
    exact ⟨hk, fun hw => nomatch hw⟩
  | wait k sh x _ => exact ⟨hfits, fun _ => rfl⟩
  | unlock k sh x w => exact ⟨hfits.2, fun hw => nomatch hwaits hw⟩
  | get k sh x w => exact ⟨hfits _, fun hw => nomatch hwaits hw⟩
  | put f k sh x w => exact ⟨hfits, fun hw => nomatch hwaits hw⟩

/-- A thread that cannot move is done, or has to wait for one of its locks. -/
theorem blocked {s : State σ} {i : ℕ} {p : Proc σ} (hp : s.procs[i]? = some p) (h : s.step i = none) :
    p.code.isDone = true ∨ p.code.entersShared = true ∧ s.admits = false ∨
      p.code.entersExclusive = true ∧ s.free = false ∧ p.waiting = true := by
  have hexec : s.exec p = none := by
    unfold State.step at h
    rw [hp, Option.bind_some] at h
    exact Option.map_eq_none_iff.mp h
  obtain ⟨c, sh, x, w⟩ := p
  cases c with
  | done => exact .inl rfl
  | lockShared k =>
    simp only [State.exec] at hexec
    split_ifs at hexec with ha
    exact .inr (.inl ⟨rfl, by simpa using ha⟩)
  | lock k =>
    simp only [State.exec] at hexec
    split_ifs at hexec with hf hw
    exact .inr (.inr ⟨rfl, by simpa using hf, hw⟩)
  | unlockShared k | unlock k | get k | put f k => cases hexec

/-- Who holds the mutex exclusively can move. -/
theorem not_exclusive_of_blocked {s : State σ} {i : ℕ} {p : Proc σ} (hp : s.procs[i]? = some p) (hok : p.Ok)
    (h : s.step i = none) : p.exclusive = false := by
  obtain ⟨c, sh, x, w⟩ := p
  have hfits := hok.fits
  rcases blocked hp h with hc | ⟨hc, _⟩ | ⟨hc, _⟩
  all_goals cases c <;> try cases hc
  · exact hfits.2
  · exact hfits.1
  · exact hfits.2.1

/-- Who holds the mutex shared and cannot move is about to lock it again. -/
theorem enters_of_blocked {s : State σ} {i : ℕ} {p : Proc σ} (hp : s.procs[i]? = some p) (hok : p.Ok)
    (h : s.step i = none) (hsh : 0 < p.shared) : p.code.entersShared = true := by
  obtain ⟨c, sh, x, w⟩ := p
  have hfits := hok.fits
  rcases blocked hp h with hc | ⟨hc, _⟩ | ⟨hc, _⟩
  · cases c <;> try cases hc
    exact absurd hfits.1 hsh.ne'
  · exact hc
  · cases c <;> try cases hc
    exact absurd hfits.1 hsh.ne'

/-- **The only way to get stuck is to be crossed.** -/
theorem crossed_of_stuck {s : State σ} (hok : ∀ p ∈ s.procs, p.Ok) (h : s.Stuck) : s.crossed = true := by
  obtain ⟨⟨p, hp, hdone⟩, hnone⟩ := h
  obtain ⟨i, hi⟩ := List.mem_iff_getElem?.mp hp
  have hexcl : ∀ q ∈ s.procs, q.exclusive = false := by
    intro q hq
    obtain ⟨j, hj⟩ := List.mem_iff_getElem?.mp hq
    exact not_exclusive_of_blocked hj (hok q hq) (hnone j)
  -- someone waits to hold the mutex exclusively
  obtain ⟨w, hw, hwait⟩ : ∃ w ∈ s.procs, w.waiting = true := by
    rcases blocked hi (hnone i) with hd | ⟨_, hadm⟩ | ⟨_, _, hwait⟩
    · rw [hdone] at hd
      cases hd
    · simp only [State.admits, List.all_eq_false] at hadm
      obtain ⟨w, hw, hnot⟩ := hadm
      exact ⟨w, hw, by simpa [hexcl w hw] using hnot⟩
    · exact ⟨p, hp, hwait⟩
  -- and so someone holds it shared
  obtain ⟨j, hj⟩ := List.mem_iff_getElem?.mp hw
  have hfree : s.free = false := by
    obtain ⟨hdone, hshared⟩ := Code.not_done_of_entersExclusive ((hok w hw).waits hwait)
    rcases blocked hj (hnone j) with hd | ⟨hc, _⟩ | ⟨_, hfree, _⟩
    · exact absurd hd (by simp [hdone])
    · exact absurd hc (by simp [hshared])
    · exact hfree
  simp only [State.free, List.all_eq_false] at hfree
  obtain ⟨r, hr, hnot⟩ := hfree
  have hsh : 0 < r.shared := by
    have := hexcl r hr
    simp only [this, Bool.not_false, Bool.and_true, beq_iff_eq] at hnot
    omega
  obtain ⟨l, hl⟩ := List.mem_iff_getElem?.mp hr
  exact State.crossed_iff.mpr ⟨l, j, r, w, hl, hj, hsh, enters_of_blocked hl (hok r hr) (hnone l) hsh, hwait⟩

/-! ### Crossed threads -/

/-- Two crossed threads stay where they are. -/
theorem crossed_step {s s' : State σ} {i : ℕ} (hok : ∀ p ∈ s.procs, p.Ok) (hc : s.crossed = true)
    (h : s.step i = some s') : s'.crossed = true := by
  obtain ⟨a, b, p, q, ha, hb, hsh, henter, hwait⟩ := State.crossed_iff.mp hc
  obtain ⟨r, d, r', hr, he, -⟩ := step_eq_some.mp h
  have hlock := (hok q (List.mem_of_getElem? hb)).waits hwait
  have hna : a ≠ i := by
    rintro rfl
    have hpr : p = r := Option.some.inj (ha.symm.trans hr)
    subst hpr
    cases he <;> simp only [Code.entersShared, Bool.false_eq_true] at henter
    case lockShared k sh x w hadm =>
      have := List.all_eq_true.mp hadm q (List.mem_of_getElem? hb)
      simp [hwait] at this
  have hnb : b ≠ i := by
    rintro rfl
    have hqr : q = r := Option.some.inj (hb.symm.trans hr)
    subst hqr
    cases he <;> simp only [Code.entersExclusive, Bool.false_eq_true] at hlock hwait
    case lock k sh x w hfree =>
      have := List.all_eq_true.mp hfree p (List.mem_of_getElem? ha)
      simp only [Bool.and_eq_true, beq_iff_eq] at this
      omega
  exact State.crossed_iff.mpr ⟨a, b, p, q, step_getElem? h ha hna, step_getElem? h hb hnb, hsh, henter, hwait⟩

/-! ### Every run ends -/

/-- A thread that has taken a step: a shorter program, or the same one and it
waits. -/
def Proc.Less : Proc σ → Proc σ → Prop :=
  InvImage (Prod.Lex Code.Next (· < ·)) fun p => (p.code, (!p.waiting).toNat)

theorem Proc.wf_less : WellFounded (@Proc.Less σ) :=
  InvImage.wf _ (WellFounded.prod_lex Code.wf_next Nat.lt_wfRel.wf)

theorem Exec.less {s : State σ} {p p' : Proc σ} {d : σ} (h : Exec s p d p') : p'.Less p := by
  cases h with
  | lockShared k => exact .left _ _ (.lockShared k)
  | unlockShared k => exact .left _ _ (.unlockShared k)
  | lock k => exact .left _ _ (.lock k)
  | wait k => exact .right _ Nat.zero_lt_one
  | unlock k => exact .left _ _ (.unlock k)
  | get k => exact .left _ _ (.get k _)
  | put f k => exact .left _ _ (.put f k)

/-- **No run is infinite.** -/
theorem wf_step : WellFounded fun s' s : State σ => ∃ i, s.step i = some s' := by
  have hwf := InvImage.wf (fun s : State σ => (s.procs.map fun p => ({p} : Multiset (Proc σ))).sum)
    Proc.wf_less.cutExpand
  refine Subrelation.wf ?_ hwf
  rintro s' s ⟨i, h⟩
  obtain ⟨p, d, p', hp, he, rfl⟩ := step_eq_some.mp h
  refine ⟨{p'}, p, ?_, ?_⟩
  · rintro a ha
    rw [Multiset.mem_singleton.mp ha]
    exact he.less
  · exact Counting.sum_map_set_add _ _ hp

theorem exists_reach_end (s : State σ) :
    ∃ s', Trans.Reach State.step (fun _ _ => True) s s' ∧ ∀ i, s'.step i = none := by
  induction s using wf_step.induction with
  | h s ih =>
    by_cases hend : ∀ i, s.step i = none
    · exact ⟨s, .refl, hend⟩
    · obtain ⟨i, hi⟩ := not_forall.mp hend
      obtain ⟨s₁, h₁⟩ := Option.ne_none_iff_exists'.mp hi
      obtain ⟨s', hr, hs'⟩ := ih s₁ ⟨i, h₁⟩
      exact ⟨s', (Trans.Reach.single trivial h₁).trans hr, hs'⟩

/-- **Whoever is crossed gets stuck.** -/
theorem stuck_of_crossed {s : State σ} (hok : ∀ p ∈ s.procs, p.Ok) (hc : s.crossed = true) :
    ∃ s', Trans.Reach State.step (fun _ _ => True) s s' ∧ s'.Stuck := by
  obtain ⟨s', hr, hend⟩ := exists_reach_end s
  have hinv := hr.invariant (I := fun s => (∀ p ∈ s.procs, p.Ok) ∧ s.crossed = true) ⟨hok, hc⟩
    fun s a s' hI _ h => ⟨forall_step (fun _ _ _ _ he hp => he.ok hp) h hI.1, crossed_step hI.1 hI.2 h⟩
  obtain ⟨i, _, p, _, hp, _, _, henter, _⟩ := State.crossed_iff.mp hinv.2
  exact ⟨s', hr, ⟨p, List.mem_of_getElem? hp, Code.not_done_of_entersShared henter⟩, hend⟩

/-! ### Runs -/

section Runs

variable {d : σ} {codes : List (Code σ)} {s : State σ}

theorem start_ok (hfits : ∀ c ∈ codes, c.Fits 0 false) : ∀ p ∈ (State.start d codes).procs, p.Ok := by
  intro p hp
  obtain ⟨c, hc, rfl⟩ := List.mem_map.mp hp
  exact ⟨hfits c hc, fun hw => nomatch hw⟩

theorem start_not_crossed : (State.start d codes).crossed = false := by
  simp [State.start, State.crossed]

theorem reach_ok {ok : State σ → ℕ → Prop} (hfits : ∀ c ∈ codes, c.Fits 0 false)
    (h : Trans.Reach State.step ok (State.start d codes) s) : ∀ p ∈ s.procs, p.Ok :=
  h.invariant (start_ok hfits) fun _ _ _ hI _ hs => forall_step (fun _ _ _ _ he hp => he.ok hp) hs hI

/-- In a run that crosses no threads, nobody gets stuck. -/
theorem not_stuck (hfits : ∀ c ∈ codes, c.Fits 0 false)
    (h : Trans.Reach State.step (fun s i => s.crosses i = false) (State.start d codes) s) : ¬ s.Stuck := by
  have hcrossed : s.crossed = false :=
    h.invariant start_not_crossed fun s i s' _ hok hs => by
      simpa [State.crosses, hs] using hok
  intro hstuck
  rw [crossed_of_stuck (reach_ok hfits h) hstuck] at hcrossed
  cases hcrossed

/-- A run that crosses two threads goes on to a state in which they are
stuck. -/
theorem exists_stuck (hfits : ∀ c ∈ codes, c.Fits 0 false) {ok : State σ → ℕ → Prop}
    (h : Trans.Reach State.step ok (State.start d codes) s) {i : ℕ} (hi : s.crosses i = true) :
    ∃ s', Trans.Reach State.step (fun _ _ => True) s s' ∧ s'.Stuck := by
  obtain ⟨s₁, h₁, hc⟩ := (Option.any_eq_true _ _).mp hi
  have hok := forall_step (fun _ _ _ _ he hp => Exec.ok he hp) h₁ (reach_ok hfits h)
  obtain ⟨s', hr, hstuck⟩ := stuck_of_crossed hok hc
  exact ⟨s', (Trans.Reach.single trivial h₁).trans hr, hstuck⟩

theorem Exec.flat {s : State σ} {p p' : Proc σ} {d : σ} (h : Exec s p d p') (hp : p.code.Flat p.shared) :
    p'.code.Flat p'.shared := by
  cases h with
  | lockShared k sh x w _ =>
    obtain ⟨hsh, hk⟩ := hp
    rw [show sh = 0 from hsh]
    exact hk
  | get k sh x w => exact hp _
  | unlockShared | lock | wait | unlock | put => exact hp

/-- Programs that lock the mutex once at a time never get stuck. -/
theorem not_stuck_of_flat (hfits : ∀ c ∈ codes, c.Fits 0 false) (hflat : ∀ c ∈ codes, c.Flat 0)
    {ok : State σ → ℕ → Prop} (h : Trans.Reach State.step ok (State.start d codes) s) : ¬ s.Stuck := by
  have hinv : ∀ p ∈ s.procs, p.code.Flat p.shared := by
    refine h.invariant (fun p hp => ?_) fun _ _ _ hI _ hs => forall_step (fun _ _ _ _ he hp => he.flat hp) hs hI
    obtain ⟨c, hc, rfl⟩ := List.mem_map.mp hp
    exact hflat c hc
  intro hstuck
  obtain ⟨i, _, p, _, hp, _, hsh, henter, _⟩ := State.crossed_iff.mp (crossed_of_stuck (reach_ok hfits h) hstuck)
  have hflat := hinv p (List.mem_of_getElem? hp)
  cases hcode : p.code <;> rw [hcode] at henter hflat <;> try cases henter
  exact hsh.ne' hflat.1

/-- A thread that is alone computes what the program says. -/
theorem reach_eval : ∀ (c : Code σ) (d : σ) {h : ℕ} {x : Bool}, c.Fits h x →
    Trans.Reach State.step (fun _ _ => True) ⟨d, [⟨c, h, x, false⟩]⟩ ⟨c.eval d, [⟨.done, 0, false, false⟩]⟩
  | .done, d, h, x, hfits => by
    obtain ⟨rfl, rfl⟩ := hfits
    exact .refl
  | .lockShared k, d, h, x, hfits => by
    obtain ⟨rfl, hk⟩ := hfits
    exact (Trans.Reach.single (a := 0) trivial rfl).trans (reach_eval k d hk)
  | .unlockShared k, d, h, x, hfits => (Trans.Reach.single (a := 0) trivial rfl).trans (reach_eval k d hfits.2)
  | .lock k, d, h, x, hfits => by
    obtain ⟨rfl, rfl, hk⟩ := hfits
    exact (Trans.Reach.single (a := 0) trivial rfl).trans (reach_eval k d hk)
  | .unlock k, d, h, x, hfits => (Trans.Reach.single (a := 0) trivial rfl).trans (reach_eval k d hfits.2)
  | .get k, d, h, x, hfits => (Trans.Reach.single (a := 0) trivial rfl).trans (reach_eval (k d) d (hfits d))
  | .put f k, d, h, x, hfits => (Trans.Reach.single (a := 0) trivial rfl).trans (reach_eval k (f d) hfits)

end Runs
end RwLock
