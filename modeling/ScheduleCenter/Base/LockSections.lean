/-
# The sections of threads under one shared mutex

A section of a thread runs from a lock that it takes with nothing held to the step
after which it holds nothing again (`Code.settle`). `Sections.step` lets one thread
run one section and nobody else in between.

A data invariant `I` is kept by programs that read and change the data only while
they hold the mutex, change it under the shared lock in no way that shows where `I`
holds, and keep `I` under the exclusive lock (`Code.Keeps`). The lock steps of such
threads, in any order, come to what their sections come to one at a time, in the order
in which the threads have entered them (`run_sections`).

Key definitions: `RwLock.Code.settle`, `RwLock.Code.Keeps`, `RwLock.Sections.step`, `RwLock.State.enters`,
`RwLock.Agrees`.
Key theorems: `RwLock.settle_of_shared`, `RwLock.agrees_step`, `RwLock.run_sections`.
-/
import ScheduleCenter.Base.RwLock

namespace RwLock

universe u

variable {σ : Type u}

namespace Code

/-- The program goes on alone until it holds nothing: the data then, and what is left. -/
def settle (c : Code σ) (h : ℕ) (x : Bool) (d : σ) : σ × Code σ :=
  if h = 0 ∧ x = false then (d, c)
  else
    match c with
    | .done => (d, .done)
    | .lockShared k => settle k (h + 1) x d
    | .unlockShared k => settle k (h - 1) x d
    | .lock k => settle k h true d
    | .unlock k => settle k h false d
    | .get k => settle (k d) h x d
    | .put f k => settle k h x (f d)

/-- A whole section, from the lock that begins it. -/
def sect : Code σ → σ → Option (σ × Code σ)
  | .lockShared k, d => some (settle k 1 false d)
  | .lock k, d => some (settle k 0 true d)
  | _, _ => none

/-- The data is read and changed under the mutex only; a change keeps `I`, and is
none under the shared lock. -/
def Keeps (I : σ → Prop) : ℕ → Bool → Code σ → Prop
  | _, _, .done => True
  | h, x, .lockShared k => Keeps I (h + 1) x k
  | h, x, .unlockShared k => Keeps I (h - 1) x k
  | h, _, .lock k => Keeps I h true k
  | h, _, .unlock k => Keeps I h false k
  | h, x, .get k => ¬(h = 0 ∧ x = false) ∧ ∀ d, I d → Keeps I h x (k d)
  | h, x, .put f k => ¬(h = 0 ∧ x = false) ∧ (∀ d, I d → I (f d) ∧ (x = false → f d = d)) ∧ Keeps I h x k

theorem settle_free (c : Code σ) (d : σ) : settle c 0 false d = (d, c) := by
  unfold settle
  rw [if_pos ⟨rfl, rfl⟩]

section Settle

variable {h : ℕ} {x : Bool} (hheld : ¬(h = 0 ∧ x = false)) (d : σ)
include hheld

theorem settle_lockShared (k : Code σ) : settle (.lockShared k) h x d = settle k (h + 1) x d := by
  conv_lhs => unfold settle
  rw [if_neg hheld]

theorem settle_unlockShared (k : Code σ) : settle (.unlockShared k) h x d = settle k (h - 1) x d := by
  conv_lhs => unfold settle
  rw [if_neg hheld]

theorem settle_lock (k : Code σ) : settle (.lock k) h x d = settle k h true d := by
  conv_lhs => unfold settle
  rw [if_neg hheld]

theorem settle_unlock (k : Code σ) : settle (.unlock k) h x d = settle k h false d := by
  conv_lhs => unfold settle
  rw [if_neg hheld]

theorem settle_get (k : σ → Code σ) : settle (.get k) h x d = settle (k d) h x d := by
  conv_lhs => unfold settle
  rw [if_neg hheld]

theorem settle_put (f : σ → σ) (k : Code σ) : settle (.put f k) h x d = settle k h x (f d) := by
  conv_lhs => unfold settle
  rw [if_neg hheld]

end Settle

end Code

/-- Nothing is held. -/
def Proc.idle (p : Proc σ) : Prop := p.shared = 0 ∧ p.exclusive = false

/-- The data after the thread's section, and what is left of its program. -/
def Proc.rest (p : Proc σ) (d : σ) : σ × Code σ := p.code.settle p.shared p.exclusive d

theorem Proc.rest_idle {p : Proc σ} (hp : p.idle) (d : σ) : p.rest d = (d, p.code) := by
  unfold Proc.rest
  rw [hp.1, hp.2, Code.settle_free]

/-- Threads that run their sections one at a time. -/
structure Sections (σ : Type u) where
  data : σ
  codes : List (Code σ)

/-- Thread `i` runs a section. -/
def Sections.step (t : Sections σ) (i : ℕ) : Option (Sections σ) :=
  (t.codes[i]?).bind fun c => (c.sect t.data).map fun r => ⟨r.1, t.codes.set i r.2⟩

theorem Sections.step_of {t : Sections σ} {i : ℕ} {c : Code σ} {r : σ × Code σ} (hc : t.codes[i]? = some c)
    (hr : c.sect t.data = some r) : t.step i = some ⟨r.1, t.codes.set i r.2⟩ := by
  unfold Sections.step
  rw [hc, Option.bind_some, hr, Option.map_some]

/-- A section of a thread begins with its next step. -/
def State.enters (s : State σ) (i : ℕ) : Bool :=
  (s.procs[i]?).any fun p =>
    (p.shared == 0 && !p.exclusive) && (p.code.entersShared && s.admits || p.code.entersExclusive && s.free)

/-! ### One section -/

/-- A thread that keeps to the discipline, with what it does to the data. -/
structure Proc.Sound (I : σ → Prop) (p : Proc σ) : Prop extends p.Ok where
  keeps : p.code.Keeps I p.shared p.exclusive
  alone : p.exclusive = true → p.shared = 0

section Sound

variable {I : σ → Prop} {s : State σ} {p p' : Proc σ} {d : σ}

/-- **Under the shared lock the data stays as it is.** -/
theorem settle_of_shared : ∀ {c : Code σ} {h : ℕ} {d : σ}, c.Fits h false → c.Keeps I h false → I d →
    (c.settle h false d).1 = d
  | c, 0, d, _, _, _ => by rw [Code.settle_free]
  | .done, h + 1, d, hfits, _, _ => absurd hfits.1 h.succ_ne_zero
  | .lockShared k, h + 1, d, hfits, hkeeps, hd => by
    rw [Code.settle_lockShared (by simp)]
    exact settle_of_shared hfits.2 hkeeps hd
  | .unlockShared k, h + 1, d, hfits, hkeeps, hd => by
    rw [Code.settle_unlockShared (by simp)]
    exact settle_of_shared hfits.2 hkeeps hd
  | .lock k, h + 1, d, hfits, _, _ => absurd hfits.1 h.succ_ne_zero
  | .unlock k, h + 1, d, hfits, _, _ => nomatch hfits.1
  | .get k, h + 1, d, hfits, hkeeps, hd => by
    rw [Code.settle_get (by simp)]
    exact settle_of_shared (hfits d) (hkeeps.2 d hd) hd
  | .put f k, h + 1, d, hfits, hkeeps, hd => by
    have hf : f d = d := (hkeeps.2.1 d hd).2 rfl
    rw [Code.settle_put (by simp), hf]
    exact settle_of_shared hfits hkeeps.2.2 hd

/-- A thread that keeps to the discipline goes on doing so. -/
theorem Exec.sound (h : Exec s p d p') (hI : I s.data) (hp : p.Sound I) : p'.Sound I := by
  obtain ⟨hok, hkeeps, halone⟩ := hp
  refine ⟨h.ok hok, ?_, ?_⟩
  · cases h with
    | get k sh x w => exact hkeeps.2 _ hI
    | put f k sh x w => exact hkeeps.2.2
    | lockShared | unlockShared | lock | wait | unlock => exact hkeeps
  · cases h with
    | lockShared k sh x w _ => exact fun hx => nomatch hx.symm.trans hok.fits.1
    | unlockShared k sh x w => exact fun hx => by rw [show sh = 0 from halone hx]
    | lock k sh x w _ => exact fun _ => hok.fits.1
    | unlock k sh x w => exact fun hx => nomatch hx
    | wait | get | put => exact halone

theorem Exec.data (h : Exec s p d p') (hI : I s.data) (hp : p.Sound I) : I d := by
  cases h with
  | put f k sh x w => exact (hp.keeps.2.1 _ hI).1
  | lockShared | unlockShared | lock | wait | unlock | get => exact hI

/-- Only who holds the mutex exclusively changes the data. -/
theorem Exec.data_eq (h : Exec s p d p') (hI : I s.data) (hp : p.Sound I) (hx : p.exclusive = false) :
    d = s.data := by
  cases h with
  | put f k sh x w => exact (hp.keeps.2.1 _ hI).2 hx
  | lockShared | unlockShared | lock | wait | unlock | get => rfl

/-- **Inside a section a step brings the thread nearer to its end.** -/
theorem Exec.rest_eq (h : Exec s p d p') (hp : ¬p.idle) : p'.rest d = p.rest s.data := by
  cases h with
  | wait => rfl
  | lockShared k => exact (Code.settle_lockShared hp _ k).symm
  | unlockShared k => exact (Code.settle_unlockShared hp _ k).symm
  | lock k => exact (Code.settle_lock hp _ k).symm
  | unlock k => exact (Code.settle_unlock hp _ k).symm
  | get k => exact (Code.settle_get hp _ k).symm
  | put f k => exact (Code.settle_put hp _ f k).symm

/-- A thread that holds something takes no exclusive lock. -/
theorem Exec.exclusive_of (h : Exec s p d p') (hp : p.Sound I) (hheld : ¬p.idle) (hx : p'.exclusive = true) :
    p.exclusive = true := by
  cases h with
  | lock k sh x w _ => exact absurd ⟨hp.fits.1, hp.fits.2.1⟩ hheld
  | unlock => cases hx
  | lockShared | unlockShared | wait | get | put => exact hx

/-- A thread that no longer holds the mutex exclusively holds nothing. -/
theorem Exec.idle_of (h : Exec s p d p') (hp : p.Sound I) (hx : p.exclusive = true) (hx' : p'.exclusive = false) :
    p'.idle := by
  cases h with
  | unlock k sh x w => exact ⟨hp.alone hx, rfl⟩
  | lock => cases hx'
  | lockShared | unlockShared | wait | get | put => exact nomatch hx.symm.trans hx'

/-- What a thread that holds nothing can do. -/
inductive Entry (s : State σ) : Proc σ → Proc σ → Prop
  | shared (k : Code σ) (w : Bool) : s.admits = true → Entry s ⟨.lockShared k, 0, false, w⟩ ⟨k, 1, false, w⟩
  | exclusive (k : Code σ) (w : Bool) : s.free = true → Entry s ⟨.lock k, 0, false, w⟩ ⟨k, 0, true, false⟩
  | wait (k : Code σ) : s.free = false → Entry s ⟨.lock k, 0, false, false⟩ ⟨.lock k, 0, false, true⟩

theorem Exec.entry (h : Exec s p d p') (hp : p.Sound I) (hidle : p.idle) : d = s.data ∧ Entry s p p' := by
  obtain ⟨c, sh, x, w⟩ := p
  obtain ⟨rfl, rfl⟩ : sh = 0 ∧ x = false := hidle
  cases h with
  | lockShared k _ _ _ hadmits => exact ⟨rfl, .shared k w hadmits⟩
  | lock k _ _ _ hfree => exact ⟨rfl, .exclusive k w hfree⟩
  | wait k _ _ hfree => exact ⟨rfl, .wait k hfree⟩
  | unlockShared => exact absurd hp.fits.1 (Nat.lt_irrefl 0)
  | unlock => exact nomatch hp.fits.1
  | get => exact absurd ⟨rfl, rfl⟩ hp.keeps.1
  | put => exact absurd ⟨rfl, rfl⟩ hp.keeps.1

end Sound

theorem exclusive_of_admits {s : State σ} (h : s.admits = true) : ∀ p ∈ s.procs, p.exclusive = false := by
  intro p hp
  have := List.all_eq_true.mp h p hp
  simp only [Bool.and_eq_true, Bool.not_eq_true'] at this
  exact this.1

theorem idle_of_free {s : State σ} (h : s.free = true) : ∀ p ∈ s.procs, p.idle := by
  intro p hp
  have := List.all_eq_true.mp h p hp
  simp only [Bool.and_eq_true, beq_iff_eq, Bool.not_eq_true'] at this
  exact this

/-! ### The threads -/

/-- Threads that keep to the discipline, where the data is as `I` says and who holds
the mutex exclusively is the only one who holds it. -/
structure Valid (I : σ → Prop) (s : State σ) : Prop where
  sound : ∀ p ∈ s.procs, p.Sound I
  data : I s.data
  alone : ∀ (i j : ℕ) p q, s.procs[i]? = some p → s.procs[j]? = some q → p.exclusive = true → j ≠ i → q.idle

theorem valid_step {I : σ → Prop} {s s' : State σ} {i : ℕ} (hs : Valid I s) (h : s.step i = some s') : Valid I s' := by
  obtain ⟨p, d, p', hp, he, rfl⟩ := step_eq_some.mp h
  have hmem : p ∈ s.procs := List.mem_of_getElem? hp
  have hsound := hs.sound p hmem
  refine ⟨Counting.forall_mem_set hs.sound (he.sound hs.data hsound), he.data hs.data hsound, ?_⟩
  -- what becomes of the thread that has moved if another holds the mutex, and the other way round
  have hmoved : ∀ (j : ℕ) q, s.procs[j]? = some q → j ≠ i → (q.exclusive = true → p'.idle) ∧
      (p'.exclusive = true → q.idle) := by
    intro j q hq hj
    have hqmem : q ∈ s.procs := List.mem_of_getElem? hq
    by_cases hidle : p.idle
    · obtain ⟨-, hentry⟩ := he.entry hsound hidle
      cases hentry with
      | shared k w hadmits =>
        have hqx := exclusive_of_admits hadmits q hqmem
        exact ⟨fun hx => absurd (hx.symm.trans hqx) (by decide), fun hx => nomatch hx⟩
      | exclusive k w hfree =>
        have hqidle := idle_of_free hfree q hqmem
        exact ⟨fun hx => absurd (hx.symm.trans hqidle.2) (by decide), fun _ => hqidle⟩
      | wait k hfree => exact ⟨fun _ => ⟨rfl, rfl⟩, fun hx => nomatch hx⟩
    · exact ⟨fun hx => absurd (hs.alone j i q p hq hp hx hj.symm) hidle,
        fun hx => hs.alone i j p q hp hq (he.exclusive_of hsound hidle hx) hj⟩
  intro a b q r hq hr hx hne
  rcases Counting.getElem?_set_cases hq with ⟨ha, hq'⟩ | ⟨ha, hq'⟩
  · rcases Counting.getElem?_set_cases hr with ⟨hb, -⟩ | ⟨hb, hr'⟩
    · exact absurd (hb.trans ha.symm) hne
    · exact (hmoved b r hr' hb).2 (hq' ▸ hx)
  · rcases Counting.getElem?_set_cases hr with ⟨-, hr'⟩ | ⟨hb, hr'⟩
    · exact hr' ▸ (hmoved a q hq' ha).1 hx
    · exact hs.alone a b q r hq' hr' hx hne

/-- The threads of `t` have run the sections that those of `s` have entered. -/
structure Agrees (s : State σ) (t : Sections σ) : Prop where
  codes : ∀ j : ℕ, t.codes[j]? = (s.procs[j]?).map fun p => (p.rest s.data).2
  holder : ∀ p ∈ s.procs, p.exclusive = true → t.data = (p.rest s.data).1
  free : (∀ p ∈ s.procs, p.exclusive = false) → t.data = s.data

section Step

variable {I : σ → Prop} {s : State σ} {t : Sections σ} {i : ℕ} {p p' : Proc σ} {d : σ}

/-- A step of one thread does not change what the sections of the others come to. -/
theorem rest_of_ne (hs : Valid I s) (hp : s.procs[i]? = some p) (he : Exec s p d p') {j : ℕ} {q : Proc σ}
    (hq : s.procs[j]? = some q) (hj : j ≠ i) : (q.rest d).2 = (q.rest s.data).2 := by
  rcases hx : p.exclusive
  · rw [he.data_eq hs.data (hs.sound p (List.mem_of_getElem? hp)) hx]
  · have hidle := hs.alone i j p q hp hq hx hj
    rw [Proc.rest_idle hidle, Proc.rest_idle hidle]

/-- The programs that are left, after a step of thread `i`. -/
theorem codes_step (hs : Valid I s) (hp : s.procs[i]? = some p) (he : Exec s p d p') (hst : Agrees s t) (j : ℕ) :
    (t.codes.set i (p'.rest d).2)[j]? = ((s.procs.set i p')[j]?).map fun q => (q.rest d).2 := by
  by_cases hj : j = i
  · subst hj
    have hlt : j < s.procs.length := (List.getElem?_eq_some_iff.mp hp).1
    have hlt' : j < t.codes.length := by
      have := hst.codes j
      rw [hp, Option.map_some] at this
      exact (List.getElem?_eq_some_iff.mp this).1
    rw [List.getElem?_set_self hlt', List.getElem?_set_self hlt, Option.map_some]
  · rw [List.getElem?_set_ne (Ne.symm hj), List.getElem?_set_ne (Ne.symm hj), hst.codes j]
    rcases hq : s.procs[j]? with _ | q
    · rfl
    · rw [Option.map_some, Option.map_some, rest_of_ne hs hp he hq hj]

/-- The programs that are left stay as they are while no section is run. -/
theorem codes_stay (hs : Valid I s) (hp : s.procs[i]? = some p) (he : Exec s p d p')
    (hrest : p'.rest d = p.rest s.data) (hst : Agrees s t) (j : ℕ) :
    t.codes[j]? = ((s.procs.set i p')[j]?).map fun q => (q.rest d).2 := by
  have hcode : t.codes[i]? = some (p'.rest d).2 := by rw [hst.codes i, hp, hrest, Option.map_some]
  obtain ⟨hlt, hget⟩ := List.getElem?_eq_some_iff.mp hcode
  rw [← codes_step hs hp he hst j, ← hget, List.set_getElem_self]

theorem none_exclusive (hp : s.procs[i]? = some p) (hx : p.exclusive = false)
    (hall : ∀ q ∈ s.procs.set i p', q.exclusive = false) : ∀ q ∈ s.procs, q.exclusive = false := by
  intro q hq
  obtain ⟨j, hj⟩ := List.mem_iff_getElem?.mp hq
  by_cases hji : j = i
  · subst hji
    rw [Option.some.inj (hj.symm.trans hp), hx]
  · apply hall q
    apply List.mem_of_getElem?
    rw [List.getElem?_set_ne (Ne.symm hji), hj]

/-- A thread inside a section: the section has been run already. -/
theorem agrees_inside (hs : Valid I s) (hp : s.procs[i]? = some p) (he : Exec s p d p') (hheld : ¬p.idle)
    (hst : Agrees s t) : Agrees ⟨d, s.procs.set i p'⟩ t := by
  have hmem : p ∈ s.procs := List.mem_of_getElem? hp
  have hsound := hs.sound p hmem
  have hrest := he.rest_eq hheld
  refine ⟨codes_stay hs hp he hrest hst, ?_, ?_⟩
  · intro q hq hx
    obtain ⟨j, hj⟩ := List.mem_iff_getElem?.mp hq
    rcases Counting.getElem?_set_cases hj with ⟨rfl, rfl⟩ | ⟨hne, hj⟩
    · rw [hrest]
      exact hst.holder p hmem (he.exclusive_of hsound hheld hx)
    · exact absurd (hs.alone j i q p hj hp hx hne.symm) hheld
  · intro hall
    rcases hx : p.exclusive
    · rw [hst.free (none_exclusive hp hx hall), he.data_eq hs.data hsound hx]
    · -- the exclusive section has ended
      have hx' : p'.exclusive = false := hall p' (List.mem_set (List.getElem?_eq_some_iff.mp hp).1 p')
      have hidle := he.idle_of hsound hx hx'
      rw [hst.holder p hmem hx, ← hrest, Proc.rest_idle hidle]

/-- A thread that has to wait. -/
theorem agrees_wait (hs : Valid I s) (hp : s.procs[i]? = some p) (he : Exec s p s.data { p with waiting := true })
    (hx : p.exclusive = false) (hst : Agrees s t) : Agrees ⟨s.data, s.procs.set i { p with waiting := true }⟩ t := by
  refine ⟨codes_stay hs hp he rfl hst, ?_, fun hall => hst.free (none_exclusive hp hx hall)⟩
  intro q hq hqx
  rcases List.mem_or_eq_of_mem_set hq with hq | rfl
  · exact hst.holder q hq hqx
  · rw [hx] at hqx
    cases hqx

/-- A thread that enters a section: all of it is run at once. -/
theorem agrees_enter (hs : Valid I s) (hp : s.procs[i]? = some p) (he : Exec s p s.data p') (hidle : p.idle)
    (hsect : p.code.sect s.data = some (p'.rest s.data))
    (hfree : p'.exclusive = true ∧ s.free = true ∨ p'.exclusive = false ∧ s.admits = true) (hst : Agrees s t) :
    ∃ t', t.step i = some t' ∧ Agrees ⟨s.data, s.procs.set i p'⟩ t' := by
  have hmem : p ∈ s.procs := List.mem_of_getElem? hp
  have hnone : ∀ q ∈ s.procs, q.exclusive = false := by
    rcases hfree with ⟨-, hfree⟩ | ⟨-, hadmits⟩
    · exact fun q hq => (idle_of_free hfree q hq).2
    · exact exclusive_of_admits hadmits
  have hdata : t.data = s.data := hst.free hnone
  have hcode : t.codes[i]? = some p.code := by rw [hst.codes i, hp, Option.map_some, Proc.rest_idle hidle]
  refine ⟨_, Sections.step_of hcode (hdata ▸ hsect), codes_step hs hp he hst, ?_, ?_⟩
  · intro q hq hx
    rcases List.mem_or_eq_of_mem_set hq with hq | rfl
    · rw [hnone q hq] at hx
      cases hx
    · rfl
  · intro hall
    have hx' : p'.exclusive = false := hall p' (List.mem_set (List.getElem?_eq_some_iff.mp hp).1 p')
    have hsound := he.sound hs.data (hs.sound p hmem)
    obtain ⟨c, sh, x, w⟩ := p'
    rw [show x = false from hx'] at hsound ⊢
    exact settle_of_shared hsound.fits hsound.keeps hs.data

/-- **A step of a thread: it enters a section, or it goes on in one.** -/
theorem agrees_step {s' : State σ} (hs : Valid I s) (hst : Agrees s t) (h : s.step i = some s') :
    ∃ t', Trans.run Sections.step t (if s.enters i then [i] else []) = some t' ∧ Agrees s' t' := by
  obtain ⟨p, d, p', hp, he, rfl⟩ := step_eq_some.mp h
  have hsound := hs.sound p (List.mem_of_getElem? hp)
  have henters : s.enters i = ((p.shared == 0 && !p.exclusive) &&
      (p.code.entersShared && s.admits || p.code.entersExclusive && s.free)) := by
    rw [State.enters, hp, Option.any_some]
  by_cases hidle : p.idle
  · obtain ⟨rfl, hentry⟩ := he.entry hsound hidle
    cases hentry with
    | shared k w hadmits =>
      obtain ⟨t', ht', hst'⟩ := agrees_enter hs hp he hidle rfl (Or.inr ⟨rfl, hadmits⟩) hst
      have hyes : s.enters i = true := by
        rw [henters]
        simp [Code.entersShared, hadmits]
      rw [if_pos hyes]
      exact ⟨t', Trans.run_cons.mpr ⟨t', ht', rfl⟩, hst'⟩
    | exclusive k w hfree =>
      obtain ⟨t', ht', hst'⟩ := agrees_enter hs hp he hidle rfl (Or.inl ⟨rfl, hfree⟩) hst
      have hyes : s.enters i = true := by
        rw [henters]
        simp [Code.entersExclusive, hfree]
      rw [if_pos hyes]
      exact ⟨t', Trans.run_cons.mpr ⟨t', ht', rfl⟩, hst'⟩
    | wait k hfree =>
      have hno : s.enters i = false := by
        rw [henters]
        simp [Code.entersShared, hfree]
      rw [if_neg (by simp [hno])]
      exact ⟨t, rfl, agrees_wait hs hp he rfl hst⟩
  · have hno : s.enters i = false := by
      rw [henters]
      have hheld : (p.shared == 0 && !p.exclusive) = false := by
        by_contra hc
        simp only [Bool.not_eq_false, Bool.and_eq_true, beq_iff_eq, Bool.not_eq_true'] at hc
        exact hidle hc
      rw [hheld, Bool.false_and]
    rw [if_neg (by simp [hno])]
    exact ⟨t, rfl, agrees_inside hs hp he hidle hst⟩

end Step

/-! ### Runs -/

section Runs

variable {I : σ → Prop} {d : σ} {codes : List (Code σ)}

theorem valid_start (hd : I d) (hfits : ∀ c ∈ codes, c.Fits 0 false) (hkeeps : ∀ c ∈ codes, c.Keeps I 0 false) :
    Valid I (State.start d codes) where
  sound p hp := by
    obtain ⟨c, hc, rfl⟩ := List.mem_map.mp hp
    exact ⟨⟨hfits c hc, fun hw => nomatch hw⟩, hkeeps c hc, fun hx => nomatch hx⟩
  data := hd
  alone i j p q hp _ hx _ := by
    obtain ⟨c, -, rfl⟩ := List.mem_map.mp (List.mem_of_getElem? hp)
    cases hx

theorem agrees_start : Agrees (State.start d codes) ⟨d, codes⟩ where
  codes j := by
    simp only [State.start, List.getElem?_map, Option.map_map]
    rcases codes[j]? with _ | c
    · rfl
    · simp [Proc.rest, Code.settle_free]
  holder p hp hx := by
    obtain ⟨c, -, rfl⟩ := List.mem_map.mp hp
    cases hx
  free _ := rfl

/-- **Sections are atomic.** A run of the lock steps is a run of sections, one at a
time, in the order in which the threads enter them. -/
theorem run_sections (hd : I d) (hfits : ∀ c ∈ codes, c.Fits 0 false) (hkeeps : ∀ c ∈ codes, c.Keeps I 0 false)
    {as : List ℕ} {s : State σ} (h : Trans.run State.step (State.start d codes) as = some s) :
    ∃ t, Trans.run Sections.step ⟨d, codes⟩
        (Trans.emits State.step (fun s i => if s.enters i then [i] else []) (State.start d codes) as) = some t ∧
      Valid I s ∧ Agrees s t := by
  have hstep : ∀ (s : State σ) (i : ℕ) (s' : State σ) (t : Sections σ), Valid I s ∧ Agrees s t →
      s.step i = some s' → ∃ t', Trans.run Sections.step t (if s.enters i then [i] else []) = some t' ∧
        Valid I s' ∧ Agrees s' t' := by
    intro s i s' t hst h
    obtain ⟨t', ht', hst'⟩ := agrees_step hst.1 hst.2 h
    exact ⟨t', ht', valid_step hst.1 h, hst'⟩
  exact Trans.run_answer hstep ⟨valid_start hd hfits hkeeps, agrees_start⟩ h

/-- Where nobody holds the mutex, the threads are where their sections have brought them. -/
theorem Agrees.of_free {s : State σ} {t : Sections σ} (h : Agrees s t) (hs : s.free = true) :
    t.data = s.data ∧ t.codes = s.procs.map (·.code) := by
  have hidle := idle_of_free hs
  refine ⟨h.free fun p hp => (hidle p hp).2, List.ext_getElem? fun j => ?_⟩
  rw [h.codes j, List.getElem?_map]
  rcases hp : s.procs[j]? with _ | p
  · rfl
  · rw [Option.map_some, Option.map_some, Proc.rest_idle (hidle p (List.mem_of_getElem? hp))]

end Runs
end RwLock
