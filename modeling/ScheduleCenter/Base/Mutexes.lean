/-
# Threads under several shared mutexes

Each mutex guards data of its own. A thread locks mutexes, shared or exclusively,
reads and changes what they guard, and releases them. As in `RwLock` an exclusive
lock waits until nobody holds the mutex, and a shared one while the mutex is held
exclusively or somebody waits to hold it so.

Programs that take their locks in the order of a rank, and none after they have
changed data or released a lock (`Code.Fits`), never get stuck (`not_stuck`); all
their runs end (`wf_step`), and go on until all threads are done (`exists_end`).

Key definitions: `Mutexes.Code`, `Mutexes.State.step`, `Mutexes.Code.Fits`, `Mutexes.State.Stuck`.
Key theorems: `Mutexes.not_stuck`, `Mutexes.wf_step`, `Mutexes.exists_end`.
-/
import ScheduleCenter.Base.Trans
import ScheduleCenter.Base.Counting
import Mathlib.Logic.Hydra
import Mathlib.Data.List.MinMax

namespace Mutexes

variable {ι : Type} {σ : ι → Type}

/-- A program under the mutexes `ι`; `m` guards data of type `σ m`. -/
inductive Code (σ : ι → Type)
  | done
  /-- Exclusively if `x`. -/
  | lock (m : ι) (x : Bool) (k : Code σ)
  | unlock (m : ι) (k : Code σ)
  | get (m : ι) (k : σ m → Code σ)
  | put (m : ι) (f : σ m → σ m) (k : Code σ)

/-- The mutexes held, and how. -/
abbrev Held (ι : Type) := List (ι × Bool)

variable [DecidableEq ι]

/-- Without the mutex `m`. -/
def Held.drop (H : Held ι) (m : ι) : Held ι := H.filter fun l => l.1 ≠ m

namespace Code

/-- Locks are taken in the order of `rank` and while the thread `grows`: it has not yet
changed anything or released a lock since it held nothing. Data is read under its
mutex and changed under the exclusive lock. At the end nothing is held. -/
def Fits (rank : ι → ℕ) : Held ι → Bool → Code σ → Prop
  | H, _, .done => H = []
  | H, grows, .lock m x k => grows = true ∧ (∀ l ∈ H, rank l.1 < rank m) ∧ Fits rank ((m, x) :: H) true k
  | H, _, .unlock m k => (∃ x, (m, x) ∈ H) ∧ Fits rank (H.drop m) (H.drop m).isEmpty k
  | H, grows, .get m k => (∃ x, (m, x) ∈ H) ∧ ∀ d, Fits rank H grows (k d)
  | H, _, .put m _ k => (m, true) ∈ H ∧ Fits rank H false k

/-- The mutex that the next step locks. -/
def wants : Code σ → Option ι
  | .lock m _ _ => some m
  | _ => none

/-- The program that is left after one step. -/
inductive Next : Code σ → Code σ → Prop
  | lock (m : ι) (x : Bool) (k : Code σ) : Next k (.lock m x k)
  | unlock (m : ι) (k : Code σ) : Next k (.unlock m k)
  | get (m : ι) (k : σ m → Code σ) (d : σ m) : Next (k d) (.get m k)
  | put (m : ι) (f : σ m → σ m) (k : Code σ) : Next k (.put m f k)

omit [DecidableEq ι] in
theorem wf_next : WellFounded (@Next ι σ) := by
  constructor
  intro c
  induction c with
  | done => exact ⟨_, fun _ h => nomatch h⟩
  | lock m x k ih => exact ⟨_, fun _ h => by cases h; exact ih⟩
  | unlock m k ih => exact ⟨_, fun _ h => by cases h; exact ih⟩
  | get m k ih => exact ⟨_, fun _ h => by cases h; exact ih _⟩
  | put m f k ih => exact ⟨_, fun _ h => by cases h; exact ih⟩

end Code

/-- A thread: what it has still to do, the mutexes it holds, whether it may still take
more, and the one that it waits to hold exclusively. -/
structure Proc (σ : ι → Type) where
  code : Code σ
  held : Held ι
  grows : Bool
  waiting : Option ι

structure State (σ : ι → Type) where
  data : ∀ m, σ m
  procs : List (Proc σ)

namespace State

/-- Nobody holds the mutex. -/
def free (s : State σ) (m : ι) : Bool := s.procs.all fun p => p.held.all fun l => l.1 ≠ m

/-- Nobody holds the mutex exclusively or waits to. -/
def admits (s : State σ) (m : ι) : Bool :=
  s.procs.all fun p => p.waiting ≠ some m && p.held.all fun l => l ≠ (m, true)

/-- The next step of a thread, `none` if it is done or has to wait. -/
def exec (s : State σ) (p : Proc σ) : Option ((∀ m, σ m) × Proc σ) :=
  match p.code with
  | .done => none
  | .lock m true k =>
    if s.free m then some (s.data, { p with code := k, held := (m, true) :: p.held, waiting := none })
    else if p.waiting = some m then none
    else some (s.data, { p with waiting := some m })
  | .lock m false k =>
    if s.admits m then some (s.data, { p with code := k, held := (m, false) :: p.held }) else none
  | .unlock m k => some (s.data, { p with code := k, held := p.held.drop m, grows := (p.held.drop m).isEmpty })
  | .get m k => some (s.data, { p with code := k (s.data m) })
  | .put m f k => some (Function.update s.data m (f (s.data m)), { p with code := k, grows := false })

/-- Thread `i` takes a step. -/
def step (s : State σ) (i : ℕ) : Option (State σ) :=
  (s.procs[i]?).bind fun p => (s.exec p).map fun r => ⟨r.1, s.procs.set i r.2⟩

/-- The threads before their first step. -/
def start (d : ∀ m, σ m) (codes : List (Code σ)) : State σ := ⟨d, codes.map fun c => ⟨c, [], true, none⟩⟩

/-- A thread is not done, and none can move. -/
def Stuck (s : State σ) : Prop := (∃ p ∈ s.procs, p.code ≠ .done) ∧ ∀ i, s.step i = none

/-- Nobody holds anything. -/
def quiet (s : State σ) : Bool := s.procs.all fun p => p.held.isEmpty

end State

/-! ### Steps -/

/-- What a step of a thread can do. -/
inductive Exec (s : State σ) : Proc σ → (∀ m, σ m) → Proc σ → Prop
  | lock (m : ι) (x : Bool) (k : Code σ) (H : Held ι) (g : Bool) (w : Option ι) :
      (∀ p ∈ s.procs, (m, true) ∉ p.held) → (x = true → ∀ p ∈ s.procs, ∀ y, (m, y) ∉ p.held) →
      Exec s ⟨.lock m x k, H, g, w⟩ s.data ⟨k, (m, x) :: H, g, if x then none else w⟩
  | wait (m : ι) (k : Code σ) (H : Held ι) (g : Bool) (w : Option ι) : w ≠ some m →
      Exec s ⟨.lock m true k, H, g, w⟩ s.data ⟨.lock m true k, H, g, some m⟩
  | unlock (m : ι) (k : Code σ) (H : Held ι) (g : Bool) (w : Option ι) :
      Exec s ⟨.unlock m k, H, g, w⟩ s.data ⟨k, H.drop m, (H.drop m).isEmpty, w⟩
  | get (m : ι) (k : σ m → Code σ) (H : Held ι) (g : Bool) (w : Option ι) :
      Exec s ⟨.get m k, H, g, w⟩ s.data ⟨k (s.data m), H, g, w⟩
  | put (m : ι) (f : σ m → σ m) (k : Code σ) (H : Held ι) (g : Bool) (w : Option ι) :
      Exec s ⟨.put m f k, H, g, w⟩ (Function.update s.data m (f (s.data m))) ⟨k, H, false, w⟩

theorem State.not_mem_of_free {s : State σ} {m : ι} (h : s.free m = true) :
    ∀ p ∈ s.procs, ∀ x, (m, x) ∉ p.held := by
  intro p hp x hx
  have := List.all_eq_true.mp (List.all_eq_true.mp h p hp) (m, x) hx
  simp at this

theorem State.not_mem_of_admits {s : State σ} {m : ι} (h : s.admits m = true) :
    ∀ p ∈ s.procs, (m, true) ∉ p.held := by
  intro p hp hx
  have := List.all_eq_true.mp h p hp
  rw [Bool.and_eq_true] at this
  simpa using List.all_eq_true.mp this.2 (m, true) hx

theorem exec_cases {s : State σ} {p p' : Proc σ} {d : ∀ m, σ m} (h : s.exec p = some (d, p')) : Exec s p d p' := by
  obtain ⟨c, H, g, w⟩ := p
  match c with
  | .done => cases h
  | .lock m true k =>
    simp only [State.exec] at h
    split_ifs at h with hfree hw
    · cases h
      have hnone := State.not_mem_of_free hfree
      exact .lock m true k H g w (fun p hp => hnone p hp true) fun _ => hnone
    · cases h
      exact .wait m k H g w hw
  | .lock m false k =>
    simp only [State.exec] at h
    split_ifs at h with hadmits
    cases h
    exact .lock m false k H g w (State.not_mem_of_admits hadmits) fun hx => nomatch hx
  | .unlock m k =>
    cases h
    exact .unlock m k H g w
  | .get m k =>
    cases h
    exact .get m k H g w
  | .put m f k =>
    cases h
    exact .put m f k H g w

theorem step_cases {s s' : State σ} {i : ℕ} (h : s.step i = some s') :
    ∃ p d p', s.procs[i]? = some p ∧ Exec s p d p' ∧ s' = ⟨d, s.procs.set i p'⟩ := by
  obtain ⟨p, hp, hmap⟩ := Option.bind_eq_some_iff.mp h
  obtain ⟨⟨d, p'⟩, he, rfl⟩ := Option.map_eq_some_iff.mp hmap
  exact ⟨p, d, p', hp, exec_cases he, rfl⟩

/-! ### The discipline -/

/-- The thread keeps to the discipline, and waits only where it locks. -/
structure Proc.Ok (rank : ι → ℕ) (p : Proc σ) : Prop where
  fits : p.code.Fits rank p.held p.grows
  waits : ∀ m, p.waiting = some m → ∃ k, p.code = .lock m true k
  grows : p.held = [] → p.grows = true

section Ok

variable {rank : ι → ℕ} {s s' : State σ} {p p' : Proc σ} {d : ∀ m, σ m} {i : ℕ}

theorem Exec.ok (h : Exec s p d p') (hp : p.Ok rank) : p'.Ok rank := by
  obtain ⟨hfits, hwaits, hgrows⟩ := hp
  cases h with
  | lock m x k H g w =>
    obtain ⟨rfl, -, hk⟩ : g = true ∧ (∀ l ∈ H, rank l.1 < rank m) ∧ k.Fits rank ((m, x) :: H) true := hfits
    refine ⟨hk, fun m' hw => ?_, fun hnil => nomatch hnil⟩
    cases x with
    | true => cases hw
    | false =>
      obtain ⟨k', hk'⟩ := hwaits m' hw
      cases hk'
  | wait m k H g w _ =>
    refine ⟨hfits, fun m' hw => ?_, hgrows⟩
    cases hw
    exact ⟨k, rfl⟩
  | unlock m k H g w =>
    refine ⟨hfits.2, fun m' hw => ?_, fun hnil => ?_⟩
    · obtain ⟨k', hk'⟩ := hwaits m' hw
      cases hk'
    · rw [show H.drop m = [] from hnil]
      rfl
  | get m k H g w =>
    refine ⟨hfits.2 _, fun m' hw => ?_, hgrows⟩
    obtain ⟨k', hk'⟩ := hwaits m' hw
    cases hk'
  | put m f k H g w =>
    refine ⟨hfits.2, fun m' hw => ?_, fun hnil => ?_⟩
    · obtain ⟨k', hk'⟩ := hwaits m' hw
      cases hk'
    · have hmem : (m, true) ∈ H := hfits.1
      rw [show H = [] from hnil] at hmem
      cases hmem

theorem ok_step (h : s.step i = some s') (hs : ∀ p ∈ s.procs, p.Ok rank) : ∀ p ∈ s'.procs, p.Ok rank := by
  obtain ⟨p, d, p', hp, he, rfl⟩ := step_cases h
  exact Counting.forall_mem_set hs (he.ok (hs p (List.mem_of_getElem? hp)))

theorem ok_start {d : ∀ m, σ m} {codes : List (Code σ)} (hfits : ∀ c ∈ codes, c.Fits rank [] true) :
    ∀ p ∈ (State.start d codes).procs, p.Ok rank := by
  intro p hp
  obtain ⟨c, hc, rfl⟩ := List.mem_map.mp hp
  exact ⟨hfits c hc, fun _ hw => (nomatch hw), fun _ => rfl⟩

/-! ### Nobody gets stuck -/

/-- The mutex is held by a thread. -/
def Taken (s : State σ) (m : ι) : Prop := ∃ q ∈ s.procs, ∃ x, (m, x) ∈ q.held

theorem taken_of_not_free {m : ι} (h : s.free m = false) : Taken s m := by
  obtain ⟨q, hq, hnot⟩ := List.all_eq_false.mp h
  rw [Bool.not_eq_true, List.all_eq_false] at hnot
  obtain ⟨⟨m', x⟩, hl, hm⟩ := hnot
  obtain rfl : m' = m := by simpa using hm
  exact ⟨q, hq, x, hl⟩

theorem taken_or_waiting_of_not_admits {m : ι} (h : s.admits m = false) :
    Taken s m ∨ ∃ q ∈ s.procs, q.waiting = some m := by
  obtain ⟨q, hq, hnot⟩ := List.all_eq_false.mp h
  rw [Bool.not_eq_true, Bool.and_eq_false_iff] at hnot
  rcases hnot with hw | hheld
  · exact Or.inr ⟨q, hq, by simpa using hw⟩
  · obtain ⟨l, hl, hm⟩ := List.all_eq_false.mp hheld
    obtain rfl : l = (m, true) := by simpa using hm
    exact Or.inl ⟨q, hq, true, hl⟩

/-- A thread that has to wait wants a mutex that somebody holds, or waits to hold. -/
theorem blocked (hp : s.procs[i]? = some p) (h : s.step i = none) (hdone : p.code ≠ .done) :
    ∃ m x k, p.code = .lock m x k ∧ (Taken s m ∨ x = false ∧ ∃ q ∈ s.procs, q.waiting = some m) := by
  have hexec : s.exec p = none := by
    unfold State.step at h
    rw [hp, Option.bind_some] at h
    exact Option.map_eq_none_iff.mp h
  obtain ⟨c, H, g, w⟩ := p
  match c with
  | .done => exact absurd rfl hdone
  | .lock m true k =>
    simp only [State.exec] at hexec
    split_ifs at hexec with hfree
    exact ⟨m, true, k, rfl, Or.inl (taken_of_not_free (by simpa using hfree))⟩
  | .lock m false k =>
    simp only [State.exec] at hexec
    split_ifs at hexec with hadmits
    rcases taken_or_waiting_of_not_admits (by simpa using hadmits) with htaken | hwaits
    · exact ⟨m, false, k, rfl, Or.inl htaken⟩
    · exact ⟨m, false, k, rfl, Or.inr ⟨rfl, hwaits⟩⟩
  | .unlock m k | .get m k | .put m f k => cases hexec

/-- Where none can move, a thread that is not done wants a mutex that is taken. -/
theorem wants_taken (hok : ∀ p ∈ s.procs, p.Ok rank) (hnone : ∀ i, s.step i = none) (hp : p ∈ s.procs)
    (hdone : p.code ≠ .done) : ∃ m, p.code.wants = some m ∧ Taken s m := by
  obtain ⟨i, hi⟩ := List.mem_iff_getElem?.mp hp
  obtain ⟨m, x, k, hcode, htaken | ⟨-, q, hq, hw⟩⟩ := blocked hi (hnone i) hdone
  · exact ⟨m, by rw [hcode]; rfl, htaken⟩
  · -- who waits for the exclusive lock is held up by whoever holds it
    obtain ⟨j, hj⟩ := List.mem_iff_getElem?.mp hq
    obtain ⟨k', hk'⟩ := (hok q hq).waits m hw
    obtain ⟨m', x', k'', hcode', htaken | ⟨rfl, -⟩⟩ := blocked hj (hnone j) (by rw [hk']; exact nofun)
    · rw [hk'] at hcode'
      cases hcode'
      exact ⟨m, by rw [hcode]; rfl, htaken⟩
    · rw [hk'] at hcode'
      cases hcode'

/-- Who holds a mutex and wants another wants one of a higher rank. -/
theorem rank_lt_of_wants (hp : p.Ok rank) {m m' : ι} {x : Bool} (hm : (m, x) ∈ p.held)
    (hw : p.code.wants = some m') : rank m < rank m' := by
  obtain ⟨c, H, g, w⟩ := p
  have hfits := hp.fits
  cases c <;> cases hw
  exact hfits.2.1 (m, x) hm

/-- **Nobody gets stuck.** Look at a wanted mutex of the highest rank: who holds it
wants one of a higher rank. -/
theorem not_stuck_of_ok (hok : ∀ p ∈ s.procs, p.Ok rank) : ¬s.Stuck := by
  rintro ⟨⟨p₀, hp₀, hdone₀⟩, hnone⟩
  obtain ⟨m₀, hm₀, -⟩ := wants_taken hok hnone hp₀ hdone₀
  have hmem₀ : m₀ ∈ s.procs.filterMap (·.code.wants) := List.mem_filterMap.mpr ⟨p₀, hp₀, hm₀⟩
  obtain ⟨m, hm⟩ : ∃ m, (s.procs.filterMap (·.code.wants)).argmax rank = some m := by
    apply Option.ne_none_iff_exists'.mp
    intro hnil
    rw [List.argmax_eq_none] at hnil
    rw [hnil] at hmem₀
    cases hmem₀
  obtain ⟨p, hp, hpm⟩ := List.mem_filterMap.mp (List.argmax_mem hm)
  have hdone : p.code ≠ .done := by
    intro hc
    rw [hc] at hpm
    cases hpm
  obtain ⟨m', hm', q, hq, x, hx⟩ := wants_taken hok hnone hp hdone
  obtain rfl : m = m' := Option.some.inj (hpm.symm.trans hm')
  have hqdone : q.code ≠ .done := by
    intro hc
    have hfits := (hok q hq).fits
    rw [hc] at hfits
    rw [show q.held = [] from hfits] at hx
    cases hx
  obtain ⟨m'', hm'', -⟩ := wants_taken hok hnone hq hqdone
  have hlt := rank_lt_of_wants (hok q hq) hx hm''
  have hle : rank m'' ≤ rank m := List.le_of_mem_argmax (List.mem_filterMap.mpr ⟨q, hq, hm''⟩) hm
  omega

theorem ok_of_reach {d : ∀ m, σ m} {codes : List (Code σ)} (hfits : ∀ c ∈ codes, c.Fits rank [] true)
    {ok : State σ → ℕ → Prop} (h : Trans.Reach State.step ok (State.start d codes) s) : ∀ p ∈ s.procs, p.Ok rank :=
  h.invariant (ok_start hfits) fun _ _ _ hI _ hs => ok_step hs hI

theorem not_stuck {d : ∀ m, σ m} {codes : List (Code σ)} (hfits : ∀ c ∈ codes, c.Fits rank [] true)
    {ok : State σ → ℕ → Prop} (h : Trans.Reach State.step ok (State.start d codes) s) : ¬s.Stuck :=
  not_stuck_of_ok (ok_of_reach hfits h)

end Ok

/-! ### Every run ends -/

section End

variable {s s' : State σ} {p p' : Proc σ} {d : ∀ m, σ m}

/-- A thread that has taken a step: a shorter program, or the same one and it waits where
it is to lock. -/
def Proc.Less : Proc σ → Proc σ → Prop :=
  InvImage (Prod.Lex Code.Next (· < ·)) fun p => (p.code, (p.waiting ≠ p.code.wants : Bool).toNat)

theorem Proc.wf_less : WellFounded (@Proc.Less ι σ _) :=
  InvImage.wf _ (WellFounded.prod_lex Code.wf_next Nat.lt_wfRel.wf)

theorem Exec.less (h : Exec s p d p') : p'.Less p := by
  cases h with
  | lock m x k => exact .left _ _ (.lock m x k)
  | wait m k H g w hw =>
    apply Prod.Lex.right
    simp [Code.wants, hw]
  | unlock m k => exact .left _ _ (.unlock m k)
  | get m k => exact .left _ _ (.get m k _)
  | put m f k => exact .left _ _ (.put m f k)

/-- **No run is infinite.** -/
theorem wf_step : WellFounded fun s' s : State σ => ∃ i, s.step i = some s' := by
  have hwf := InvImage.wf (fun s : State σ => (s.procs.map fun p => ({p} : Multiset (Proc σ))).sum)
    Proc.wf_less.cutExpand
  refine Subrelation.wf ?_ hwf
  rintro s' s ⟨i, h⟩
  obtain ⟨p, d, p', hp, he, rfl⟩ := step_cases h
  refine ⟨{p'}, p, fun a ha => ?_, Counting.sum_map_set_add _ _ hp⟩
  rw [Multiset.mem_singleton.mp ha]
  exact he.less

/-- **Every run goes on until all threads are done.** -/
theorem exists_end {rank : ι → ℕ} (hok : ∀ p ∈ s.procs, p.Ok rank) :
    ∃ s', Trans.Reach State.step (fun _ _ => True) s s' ∧ ∀ p ∈ s'.procs, p.code = .done := by
  have hwf := @wf_step ι σ _
  induction s using hwf.induction with
  | h s ih =>
    by_cases hend : ∀ p ∈ s.procs, p.code = .done
    · exact ⟨s, .refl, hend⟩
    · obtain ⟨p, hp, hdone⟩ : ∃ p ∈ s.procs, p.code ≠ .done := by simpa using hend
      obtain ⟨i, hi⟩ : ∃ i, s.step i ≠ none := by
        by_contra hall
        exact not_stuck_of_ok hok ⟨⟨p, hp, hdone⟩, fun i => by_contra fun hi => hall ⟨i, hi⟩⟩
      obtain ⟨s₁, h₁⟩ := Option.ne_none_iff_exists'.mp hi
      obtain ⟨s', hr, hs'⟩ := ih s₁ ⟨i, h₁⟩ (ok_step h₁ hok)
      exact ⟨s', (Trans.Reach.single trivial h₁).trans hr, hs'⟩

end End

end Mutexes
