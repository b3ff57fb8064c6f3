/-
# Two-phase programs are serial

A section of a thread of `Mutexes` runs from a lock that it takes with nothing held to
the step after which it holds nothing again (`Code.settle`). Under the discipline of
`Code.Fits` it takes all its locks before it changes anything or releases a lock; its
first change or release is where it commits (`State.commits`).

The steps of any threads, in any order, come to what their sections come to one at a
time, in the order in which they commit (`run_sections`). Until a thread commits, what it
has read stays as it was, since it holds the mutexes; afterwards nobody reads what it has
still to change.

Key definitions: `Mutexes.Code.settle`, `Mutexes.Sections.step`, `Mutexes.State.commits`, `Mutexes.Agrees`.
Key theorems: `Mutexes.settle_congr`, `Mutexes.agrees_step`, `Mutexes.run_sections`, `Mutexes.Agrees.of_quiet`.
-/
import ScheduleCenter.Base.Mutexes

namespace Mutexes

variable {ι : Type} {σ : ι → Type} [DecidableEq ι]

namespace Code

/-- The program goes on alone until it holds nothing: the data then, and what is left. -/
def settle (c : Code σ) (H : Held ι) (d : ∀ m, σ m) : (∀ m, σ m) × Code σ :=
  if H.isEmpty then (d, c)
  else
    match c with
    | .done => (d, .done)
    | .lock m x k => settle k ((m, x) :: H) d
    | .unlock m k => settle k (H.drop m) d
    | .get m k => settle (k (d m)) H d
    | .put m f k => settle k H (Function.update d m (f (d m)))

/-- A whole section, from the lock that begins it. -/
def sect : Code σ → (∀ m, σ m) → Option ((∀ m, σ m) × Code σ)
  | .lock m x k, d => some (settle k [(m, x)] d)
  | _, _ => none

theorem settle_nil (c : Code σ) (d : ∀ m, σ m) : settle c [] d = (d, c) := by
  unfold settle
  rfl

section Settle

variable {H : Held ι} (hH : H ≠ []) (m : ι) (d : ∀ m, σ m)
include hH

theorem settle_lock (x : Bool) (k : Code σ) : settle (.lock m x k) H d = settle k ((m, x) :: H) d := by
  conv_lhs => unfold settle
  rw [if_neg (by simpa using hH)]

theorem settle_unlock (k : Code σ) : settle (.unlock m k) H d = settle k (H.drop m) d := by
  conv_lhs => unfold settle
  rw [if_neg (by simpa using hH)]

theorem settle_get (k : σ m → Code σ) : settle (.get m k) H d = settle (k (d m)) H d := by
  conv_lhs => unfold settle
  rw [if_neg (by simpa using hH)]

theorem settle_put (f : σ m → σ m) (k : Code σ) :
    settle (.put m f k) H d = settle k H (Function.update d m (f (d m))) := by
  conv_lhs => unfold settle
  rw [if_neg (by simpa using hH)]

end Settle

end Code

/-- The data after the thread's section, and what is left of its program. -/
def Proc.rest (p : Proc σ) (d : ∀ m, σ m) : (∀ m, σ m) × Code σ := p.code.settle p.held d

theorem Proc.rest_of_nil {p : Proc σ} (hp : p.held = []) (d : ∀ m, σ m) : p.rest d = (d, p.code) := by
  unfold Proc.rest
  rw [hp, Code.settle_nil]

/-- Threads that run their sections one at a time. -/
structure Sections (σ : ι → Type) where
  data : ∀ m, σ m
  codes : List (Code σ)

/-- Thread `i` runs a section. -/
def Sections.step (t : Sections σ) (i : ℕ) : Option (Sections σ) :=
  (t.codes[i]?).bind fun c => (c.sect t.data).map fun r => ⟨r.1, t.codes.set i r.2⟩

theorem Sections.step_of {t : Sections σ} {i : ℕ} {c : Code σ} {r : (∀ m, σ m) × Code σ}
    (hc : t.codes[i]? = some c) (hr : c.sect t.data = some r) : t.step i = some ⟨r.1, t.codes.set i r.2⟩ := by
  unfold Sections.step
  rw [hc, Option.bind_some, hr, Option.map_some]

/-- The next step is a change or a release. -/
def Code.ends : Code σ → Bool
  | .unlock _ _ => true
  | .put _ _ _ => true
  | _ => false

/-- Thread `i` commits: it takes no more locks in its section. -/
def State.commits (s : State σ) (i : ℕ) : Bool := (s.procs[i]?).any fun p => p.grows && p.code.ends

/-! ### What a section reads and changes -/

section Settle

variable {rank : ι → ℕ} {H : Held ι} {d d' : ∀ m, σ m} {m : ι}

theorem mem_of_mem_drop {l : ι × Bool} (h : l ∈ H.drop m) : l ∈ H := (List.mem_filter.mp h).1

theorem ne_of_mem_drop {l : ι × Bool} (h : l ∈ H.drop m) : l.1 ≠ m := by
  simpa using (List.mem_filter.mp h).2

theorem mem_drop {l : ι × Bool} (h : l ∈ H) (hne : l.1 ≠ m) : l ∈ H.drop m :=
  List.mem_filter.mpr ⟨h, by simpa using hne⟩

/-- A thread that takes no more locks changes nothing but what it holds exclusively. -/
theorem settle_of_not_mem : ∀ {c : Code σ} {H : Held ι} {g : Bool} {d : ∀ m, σ m}, c.Fits rank H g → g = false →
    (m, true) ∉ H → (c.settle H d).1 m = d m
  | c, [], _, d, _, _, _ => by rw [Code.settle_nil]
  | .done, l :: H, _, d, hfits, _, _ => nomatch hfits
  | .lock m' x k, l :: H, _, d, hfits, hg, _ => nomatch hfits.1.symm.trans hg
  | .unlock m' k, l :: H, _, d, hfits, _, hm => by
    rw [Code.settle_unlock (List.cons_ne_nil l H)]
    rcases hdrop : Held.drop (l :: H) m' with _ | ⟨l', H'⟩
    · rw [Code.settle_nil]
    · refine settle_of_not_mem (g := false) ?_ rfl fun hmem => hm (mem_of_mem_drop (hdrop ▸ hmem))
      have := hfits.2
      rw [hdrop] at this
      exact this
  | .get m' k, l :: H, _, d, hfits, hg, hm => by
    rw [Code.settle_get (List.cons_ne_nil l H)]
    exact settle_of_not_mem (hfits.2 (d m')) hg hm
  | .put m' f k, l :: H, _, d, hfits, _, hm => by
    have hne : m ≠ m' := fun h => hm (h ▸ hfits.1)
    rw [Code.settle_put (List.cons_ne_nil l H), settle_of_not_mem hfits.2 rfl hm, Function.update_of_ne hne]

/-- **A thread that takes no more locks reads nothing but what it holds.** -/
theorem settle_congr : ∀ {c : Code σ} {H : Held ι} {g : Bool} {d d' : ∀ m, σ m}, c.Fits rank H g → g = false →
    (∀ l ∈ H, d l.1 = d' l.1) →
    (c.settle H d).2 = (c.settle H d').2 ∧ ∀ l ∈ H, (c.settle H d).1 l.1 = (c.settle H d').1 l.1
  | c, [], _, d, d', _, _, _ => by
    rw [Code.settle_nil, Code.settle_nil]
    exact ⟨rfl, fun _ h => nomatch h⟩
  | .done, l :: H, _, d, d', hfits, _, _ => nomatch hfits
  | .lock m' x k, l :: H, _, d, d', hfits, hg, _ => nomatch hfits.1.symm.trans hg
  | .unlock m' k, l :: H, _, d, d', hfits, _, hd => by
    rw [Code.settle_unlock (List.cons_ne_nil l H), Code.settle_unlock (List.cons_ne_nil l H)]
    rcases hdrop : Held.drop (l :: H) m' with _ | ⟨l', H'⟩
    · rw [Code.settle_nil, Code.settle_nil]
      exact ⟨rfl, hd⟩
    have hk : k.Fits rank (l' :: H') false := by
      have := hfits.2
      rw [hdrop] at this
      exact this
    have hsub : ∀ l₁ ∈ l' :: H', l₁ ∈ l :: H ∧ l₁.1 ≠ m' := by
      intro l₁ hl₁
      rw [← hdrop] at hl₁
      exact ⟨mem_of_mem_drop hl₁, ne_of_mem_drop hl₁⟩
    obtain ⟨hcode, hdata⟩ := settle_congr hk rfl fun l₁ hl₁ => hd l₁ (hsub l₁ hl₁).1
    refine ⟨hcode, fun l₁ hl₁ => ?_⟩
    by_cases hne : l₁.1 = m'
    · -- nobody reads or changes any more what has been released
      have hout : (l₁.1, true) ∉ l' :: H' := fun hmem => (hsub _ hmem).2 hne
      rw [settle_of_not_mem hk rfl hout, settle_of_not_mem hk rfl hout, hd l₁ hl₁]
    · exact hdata l₁ (hdrop ▸ mem_drop hl₁ hne)
  | .get m' k, l :: H, _, d, d', hfits, hg, hd => by
    obtain ⟨x, hx⟩ := hfits.1
    have hval : d m' = d' m' := hd (m', x) hx
    rw [Code.settle_get (List.cons_ne_nil l H), Code.settle_get (List.cons_ne_nil l H), hval]
    exact settle_congr (hfits.2 (d' m')) hg hd
  | .put m' f k, l :: H, _, d, d', hfits, _, hd => by
    have hval : d m' = d' m' := hd (m', true) hfits.1
    rw [Code.settle_put (List.cons_ne_nil l H), Code.settle_put (List.cons_ne_nil l H)]
    refine settle_congr hfits.2 rfl fun l' hl' => ?_
    by_cases hne : l'.1 = m'
    · rw [hne, Function.update_self, Function.update_self, hval]
    · rw [Function.update_of_ne hne, Function.update_of_ne hne, hd l' hl']

end Settle

/-! ### The threads -/

/-- Threads that keep to the discipline, where who holds a mutex exclusively is the only
one who holds it. -/
structure Valid (rank : ι → ℕ) (s : State σ) : Prop where
  ok : ∀ p ∈ s.procs, p.Ok rank
  alone : ∀ (i j : ℕ) p q m x, s.procs[i]? = some p → s.procs[j]? = some q → j ≠ i → (m, true) ∈ p.held →
    (m, x) ∉ q.held

/-- Where a thread stands that has run its sections up to `c`. Until it commits, `c` is the
section it is in; it goes on from where it is with any data that is the same
where it holds the mutex. -/
structure Stands (d : ∀ m, σ m) (p : Proc σ) (c : Code σ) : Prop where
  before : p.grows = true → p.held ≠ [] → ∀ d', (∀ l ∈ p.held, d' l.1 = d l.1) → c.sect d' = some (p.rest d')
  out : p.held = [] → c = p.code
  after : p.grows = false → c = (p.rest d).2

/-- The threads of `t` have run the sections in which those of `s` have committed. -/
structure Agrees (s : State σ) (t : Sections σ) : Prop where
  codes : ∀ (j : ℕ) p, s.procs[j]? = some p → ∃ c, t.codes[j]? = some c ∧ Stands s.data p c
  held : ∀ p ∈ s.procs, p.grows = false → ∀ m, (m, true) ∈ p.held → t.data m = (p.rest s.data).1 m
  free : ∀ m, (∀ p ∈ s.procs, p.grows = false → (m, true) ∉ p.held) → t.data m = s.data m

section Step

variable {rank : ι → ℕ} {s : State σ} {t : Sections σ} {i : ℕ} {p p' : Proc σ} {d : ∀ m, σ m}

/-- Only what a thread holds exclusively is changed. -/
theorem Exec.data_eq (h : Exec s p d p') (hp : p.Ok rank) {m : ι} (hm : (m, true) ∉ p.held) : d m = s.data m := by
  cases h with
  | put m' f k H g w =>
    have hne : m ≠ m' := fun h => hm (h ▸ hp.fits.1)
    rw [Function.update_of_ne hne]
  | lock | wait | unlock | get => rfl

/-- Where a thread holds something, a step brings it nearer to where it holds nothing. -/
theorem Exec.rest_eq (h : Exec s p d p') (hheld : p.held ≠ []) : p'.rest d = p.rest s.data := by
  cases h with
  | wait => rfl
  | lock m x k => exact (Code.settle_lock hheld m _ x k).symm
  | unlock m k => exact (Code.settle_unlock hheld m _ k).symm
  | get m k => exact (Code.settle_get hheld m _ k).symm
  | put m f k => exact (Code.settle_put hheld m _ f k).symm

/-- What a thread holds after its step. -/
theorem Exec.held_cases (h : Exec s p d p') {m : ι} {x : Bool} (hm : (m, x) ∈ p'.held) :
    (m, x) ∈ p.held ∨ (∀ q ∈ s.procs, (m, true) ∉ q.held) ∧ (x = true → ∀ q ∈ s.procs, ∀ y, (m, y) ∉ q.held) := by
  cases h with
  | lock m' x' k H g w hshared hexcl =>
    rcases List.mem_cons.mp hm with heq | hm
    · cases heq
      exact Or.inr ⟨hshared, hexcl⟩
    · exact Or.inl hm
  | unlock m' k H g w => exact Or.inl (mem_of_mem_drop hm)
  | wait | get | put => exact Or.inl hm

theorem valid_step {s' : State σ} (hs : Valid rank s) (h : s.step i = some s') : Valid rank s' := by
  refine ⟨ok_step h hs.ok, ?_⟩
  obtain ⟨p, d, p', hp, he, rfl⟩ := step_cases h
  intro a b q r m x hq hr hne hqm hrm
  rcases Counting.getElem?_set_cases hq with ⟨ha, hq'⟩ | ⟨ha, hq'⟩
  · rcases Counting.getElem?_set_cases hr with ⟨hb, -⟩ | ⟨hb, hr'⟩
    · exact hne (hb.trans ha.symm)
    · subst hq'
      rcases he.held_cases hqm with hold | ⟨-, hnew⟩
      · exact hs.alone i b p r m x hp hr' hb hold hrm
      · exact hnew rfl r (List.mem_of_getElem? hr') x hrm
  · rcases Counting.getElem?_set_cases hr with ⟨hb, hr'⟩ | ⟨-, hr'⟩
    · subst hr'
      rcases he.held_cases hrm with hold | ⟨hnew, -⟩
      · exact hs.alone a i q p m x hq' hp (Ne.symm ha) hqm hold
      · exact hnew q (List.mem_of_getElem? hq') hqm
    · exact hs.alone a b q r m x hq' hr' hne hqm hrm

/-- What another thread holds stays as it is. -/
theorem data_of_ne (hs : Valid rank s) (hp : s.procs[i]? = some p) (he : Exec s p d p') {j : ℕ} {q : Proc σ}
    (hq : s.procs[j]? = some q) (hj : j ≠ i) : ∀ l ∈ q.held, d l.1 = s.data l.1 := by
  intro l hl
  apply he.data_eq (hs.ok p (List.mem_of_getElem? hp))
  exact fun hm => hs.alone i j p q l.1 l.2 hp hq hj hm hl

theorem fits_false {q : Proc σ} (hq : q.Ok rank) (hg : q.grows = false) : q.code.Fits rank q.held false :=
  hg ▸ hq.fits

/-- The step of one thread leaves the others where they stand. -/
theorem stands_of_ne (hs : Valid rank s) (hp : s.procs[i]? = some p) (he : Exec s p d p') {j : ℕ} {q : Proc σ}
    (hq : s.procs[j]? = some q) (hj : j ≠ i) {c : Code σ} (hst : Stands s.data q c) : Stands d q c where
  before hg hheld d' hd' := hst.before hg hheld d' fun l hl => (hd' l hl).trans (data_of_ne hs hp he hq hj l hl)
  out := hst.out
  after hg := by
    have hfits := fits_false (hs.ok q (List.mem_of_getElem? hq)) hg
    rw [hst.after hg]
    exact (settle_congr hfits rfl fun l hl => (data_of_ne hs hp he hq hj l hl).symm).1

/-- And what they have still to change is the same. -/
theorem rest_of_ne (hs : Valid rank s) (hp : s.procs[i]? = some p) (he : Exec s p d p') {j : ℕ} {q : Proc σ}
    (hq : s.procs[j]? = some q) (hj : j ≠ i) (hg : q.grows = false) {m : ι} {x : Bool} (hm : (m, x) ∈ q.held) :
    (q.rest d).1 m = (q.rest s.data).1 m :=
  (settle_congr (fits_false (hs.ok q (List.mem_of_getElem? hq)) hg) rfl (data_of_ne hs hp he hq hj)).2 (m, x) hm

/-- **Before it commits** a thread reads what nobody changes. -/
theorem agrees_before (hp : s.procs[i]? = some p) (hg : p.grows = true) (hg' : p'.grows = true)
    (hst : Agrees s t) (hstands : ∀ c, Stands s.data p c → Stands s.data p' c) : Agrees ⟨s.data, s.procs.set i p'⟩ t := by
  refine ⟨fun j q hq => ?_, fun q hq hqg m hm => ?_, fun m hm => ?_⟩
  · rcases Counting.getElem?_set_cases hq with ⟨rfl, rfl⟩ | ⟨-, hq⟩
    · obtain ⟨c, hc, hpc⟩ := hst.codes j p hp
      exact ⟨c, hc, hstands c hpc⟩
    · exact hst.codes j q hq
  · rcases List.mem_or_eq_of_mem_set hq with hq | rfl
    · exact hst.held q hq hqg m hm
    · rw [hg'] at hqg
      cases hqg
  · apply hst.free m
    intro q hq hqg hqm
    obtain ⟨j, hj⟩ := List.mem_iff_getElem?.mp hq
    by_cases hji : j = i
    · subst hji
      rw [Option.some.inj (hj.symm.trans hp), hg] at hqg
      cases hqg
    · refine hm q (List.mem_of_getElem? (i := j) ?_) hqg hqm
      rw [List.getElem?_set_ne (Ne.symm hji), hj]

/-- **Afterwards** nobody reads what it has still to change. -/
theorem agrees_after {t' : Sections σ} (hs : Valid rank s) (hp : s.procs[i]? = some p) (he : Exec s p d p')
    (hheld : p.held ≠ []) (hsub : ∀ l ∈ p'.held, l ∈ p.held) (hg' : p'.held ≠ [] → p'.grows = false) (hst : Agrees s t)
    (hcode : t'.codes[i]? = some (p.rest s.data).2) (hcodes : ∀ j, j ≠ i → t'.codes[j]? = t.codes[j]?)
    (hin : ∀ m, (m, true) ∈ p.held → t'.data m = (p.rest s.data).1 m)
    (hout : ∀ m, (m, true) ∉ p.held → t'.data m = t.data m) : Agrees ⟨d, s.procs.set i p'⟩ t' := by
  have hok := hs.ok p (List.mem_of_getElem? hp)
  have hok' := he.ok hok
  have hrest := he.rest_eq hheld
  refine ⟨fun j q hq => ?_, fun q hq hqg m hm => ?_, fun m hm => ?_⟩
  · rcases Counting.getElem?_set_cases hq with ⟨rfl, rfl⟩ | ⟨hj, hq⟩
    · refine ⟨_, hcode, ?_, ?_, ?_⟩
      · intro hg hne
        rw [hg' hne] at hg
        cases hg
      · intro hnil
        rw [← hrest, Proc.rest_of_nil hnil]
      · intro _
        rw [hrest]
    · obtain ⟨c, hc, hqc⟩ := hst.codes j q hq
      exact ⟨c, (hcodes j hj).trans hc, stands_of_ne hs hp he hq hj hqc⟩
  · obtain ⟨j, hj⟩ := List.mem_iff_getElem?.mp hq
    rcases Counting.getElem?_set_cases hj with ⟨rfl, rfl⟩ | ⟨hji, hj⟩
    · rw [hrest]
      exact hin m (hsub _ hm)
    · have hpm : (m, true) ∉ p.held := fun hpm => hs.alone j i q p m true hj hp (Ne.symm hji) hm hpm
      rw [hout m hpm, hst.held q (List.mem_of_getElem? hj) hqg m hm]
      exact (rest_of_ne hs hp he hj hji hqg hm).symm
  · by_cases hpm : (m, true) ∈ p.held
    · rw [hin m hpm, ← hrest]
      by_cases hnil : p'.held = []
      · rw [Proc.rest_of_nil hnil]
      · have hg := hg' hnil
        have hmem : p' ∈ s.procs.set i p' := List.mem_set (List.getElem?_eq_some_iff.mp hp).1 p'
        exact settle_of_not_mem (fits_false hok' hg) rfl (hm p' hmem hg)
    · refine (hout m hpm).trans (Eq.trans ?_ (he.data_eq hok hpm).symm)
      apply hst.free m
      intro q hq hqg hqm
      obtain ⟨j, hj⟩ := List.mem_iff_getElem?.mp hq
      by_cases hji : j = i
      · subst hji
        exact hpm (Option.some.inj (hj.symm.trans hp) ▸ hqm)
      · refine hm q (List.mem_of_getElem? (i := j) ?_) hqg hqm
        rw [List.getElem?_set_ne (Ne.symm hji), hj]

/-- A thread that gets a lock. -/
theorem stands_lock {m : ι} {x : Bool} {k : Code σ} {H : Held ι} {w w' : Option ι} {c : Code σ}
    (hst : Stands d ⟨.lock m x k, H, true, w⟩ c) : Stands d ⟨k, (m, x) :: H, true, w'⟩ c where
  before _ _ d' hd' := by
    by_cases hnil : H = []
    · rw [hst.out hnil]
      subst hnil
      rfl
    · rw [hst.before rfl hnil d' fun l hl => hd' l (List.mem_cons_of_mem _ hl)]
      exact congrArg some (Code.settle_lock hnil m d' x k)
  out hnil := nomatch hnil
  after hg := nomatch hg

/-- A thread that reads what it holds. -/
theorem stands_get {m : ι} {x : Bool} {k : σ m → Code σ} {H : Held ι} {w : Option ι} {c : Code σ} (hm : (m, x) ∈ H)
    (hst : Stands d ⟨.get m k, H, true, w⟩ c) : Stands d ⟨k (d m), H, true, w⟩ c where
  before _ hne d' hd' := by
    rw [hst.before rfl hne d' hd']
    unfold Proc.rest
    rw [Code.settle_get hne, show d' m = d m from hd' (m, x) hm]
  out hnil := absurd hm (by rw [show H = [] from hnil]; exact List.not_mem_nil)
  after hg := nomatch hg

/-- A thread that goes on after it has committed. -/
theorem agrees_inside (hs : Valid rank s) (hp : s.procs[i]? = some p) (he : Exec s p d p') (hheld : p.held ≠ [])
    (hsub : ∀ l ∈ p'.held, l ∈ p.held) (hg : p.grows = false) (hg' : p'.held ≠ [] → p'.grows = false)
    (hst : Agrees s t) : Agrees ⟨d, s.procs.set i p'⟩ t := by
  obtain ⟨c, hc, hpc⟩ := hst.codes i p hp
  apply agrees_after hs hp he hheld hsub hg' hst (hpc.after hg ▸ hc) (fun _ _ => rfl) ?_ fun _ _ => rfl
  exact hst.held p (List.mem_of_getElem? hp) hg

/-- **A thread that commits**: its section is run at once. -/
theorem agrees_commit (hs : Valid rank s) (hp : s.procs[i]? = some p) (he : Exec s p d p') (hheld : p.held ≠ [])
    (hsub : ∀ l ∈ p'.held, l ∈ p.held) (hg : p.grows = true) (hfits : p.code.Fits rank p.held false)
    (hg' : p'.held ≠ [] → p'.grows = false) (hst : Agrees s t) :
    ∃ t', t.step i = some t' ∧ Agrees ⟨d, s.procs.set i p'⟩ t' := by
  obtain ⟨c, hc, hpc⟩ := hst.codes i p hp
  have hsame : ∀ l ∈ p.held, t.data l.1 = s.data l.1 := by
    intro l hl
    apply hst.free
    intro q hq hqg hqm
    obtain ⟨j, hj⟩ := List.mem_iff_getElem?.mp hq
    by_cases hji : j = i
    · subst hji
      rw [Option.some.inj (hj.symm.trans hp), hg] at hqg
      cases hqg
    · exact hs.alone j i q p l.1 l.2 hj hp (Ne.symm hji) hqm hl
  have hsect := hpc.before hg hheld t.data hsame
  obtain ⟨hcode, hdata⟩ := settle_congr hfits rfl hsame
  have hlt : i < t.codes.length := (List.getElem?_eq_some_iff.mp hc).1
  refine ⟨_, Sections.step_of hc hsect, agrees_after hs hp he hheld hsub hg' hst ?_ ?_ ?_ ?_⟩
  · rw [List.getElem?_set_self hlt]
    exact congrArg some hcode
  · exact fun j hj => List.getElem?_set_ne (Ne.symm hj)
  · exact fun m hm => hdata (m, true) hm
  · exact fun m hm => settle_of_not_mem hfits rfl hm

/-- **A step of a thread.** -/
theorem agrees_step {s' : State σ} (hs : Valid rank s) (hst : Agrees s t) (h : s.step i = some s') :
    ∃ t', Trans.run Sections.step t (if s.commits i then [i] else []) = some t' ∧ Agrees s' t' := by
  obtain ⟨p, d, p', hp, he, rfl⟩ := step_cases h
  have hok := hs.ok p (List.mem_of_getElem? hp)
  have hcommits : s.commits i = (p.grows && p.code.ends) := by rw [State.commits, hp, Option.any_some]
  obtain ⟨hfits, hwaits, hgrows⟩ := hok
  cases he with
  | lock m x k H g w hshared hexcl =>
    obtain rfl : g = true := hfits.1
    rw [if_neg (by simp [hcommits, Code.ends])]
    exact ⟨t, rfl, agrees_before hp rfl rfl hst fun c hc => stands_lock hc⟩
  | wait m k H g w hw =>
    obtain rfl : g = true := hfits.1
    rw [if_neg (by simp [hcommits, Code.ends])]
    exact ⟨t, rfl, agrees_before hp rfl rfl hst fun c hc => ⟨hc.before, hc.out, hc.after⟩⟩
  | get m k H g w =>
    rw [if_neg (by simp [hcommits, Code.ends])]
    obtain ⟨x, hx⟩ : ∃ x, (m, x) ∈ H := hfits.1
    have hne : H ≠ [] := List.ne_nil_of_mem hx
    cases g with
    | true => exact ⟨t, rfl, agrees_before hp rfl rfl hst fun c hc => stands_get hx hc⟩
    | false =>
      exact ⟨t, rfl, agrees_inside hs hp (.get m k H false w) hne (fun _ hl => hl) rfl (fun _ => rfl) hst⟩
  | unlock m k H g w =>
    have hne : H ≠ [] := by
      obtain ⟨x, hx⟩ := hfits.1
      exact List.ne_nil_of_mem hx
    have hsub : ∀ l ∈ H.drop m, l ∈ H := fun l hl => mem_of_mem_drop hl
    have hg' : H.drop m ≠ [] → (H.drop m).isEmpty = false := by simp
    cases g with
    | true =>
      rw [if_pos (by simp [hcommits, Code.ends])]
      obtain ⟨t', ht', hst'⟩ := agrees_commit hs hp (.unlock m k H true w) hne hsub rfl hfits hg' hst
      exact ⟨t', Trans.run_cons.mpr ⟨t', ht', rfl⟩, hst'⟩
    | false =>
      rw [if_neg (by simp [hcommits])]
      exact ⟨t, rfl, agrees_inside hs hp (.unlock m k H false w) hne hsub rfl hg' hst⟩
  | put m f k H g w =>
    have hne : H ≠ [] := List.ne_nil_of_mem hfits.1
    cases g with
    | true =>
      rw [if_pos (by simp [hcommits, Code.ends])]
      obtain ⟨t', ht', hst'⟩ :=
        agrees_commit hs hp (.put m f k H true w) hne (fun _ hl => hl) rfl hfits (fun _ => rfl) hst
      exact ⟨t', Trans.run_cons.mpr ⟨t', ht', rfl⟩, hst'⟩
    | false =>
      rw [if_neg (by simp [hcommits])]
      exact ⟨t, rfl, agrees_inside hs hp (.put m f k H false w) hne (fun _ hl => hl) rfl (fun _ => rfl) hst⟩

end Step

/-! ### Runs -/

section Runs

variable {rank : ι → ℕ} {d : ∀ m, σ m} {codes : List (Code σ)}

theorem valid_start (hfits : ∀ c ∈ codes, c.Fits rank [] true) : Valid rank (State.start d codes) where
  ok := ok_start hfits
  alone i j p q m x hp _ _ hm := by
    obtain ⟨c, -, rfl⟩ := List.mem_map.mp (List.mem_of_getElem? hp)
    cases hm

theorem agrees_start : Agrees (State.start d codes) ⟨d, codes⟩ where
  codes j p hp := by
    rw [State.start, List.getElem?_map] at hp
    obtain ⟨c, hc, rfl⟩ := Option.map_eq_some_iff.mp hp
    exact ⟨c, hc, fun _ hne => absurd rfl hne, fun _ => rfl, fun hg => nomatch hg⟩
  held p hp hg := by
    obtain ⟨c, -, rfl⟩ := List.mem_map.mp hp
    cases hg
  free _ _ := rfl

/-- **Two-phase programs are serial.** A run of the threads is a run of sections, one at a
time, in the order in which they commit. -/
theorem run_sections (hfits : ∀ c ∈ codes, c.Fits rank [] true) {as : List ℕ} {s : State σ}
    (h : Trans.run State.step (State.start d codes) as = some s) :
    ∃ t, Trans.run Sections.step ⟨d, codes⟩
        (Trans.emits State.step (fun s i => if s.commits i then [i] else []) (State.start d codes) as) = some t ∧
      Valid rank s ∧ Agrees s t := by
  have hstep : ∀ (s : State σ) (i : ℕ) (s' : State σ) (t : Sections σ), Valid rank s ∧ Agrees s t →
      s.step i = some s' → ∃ t', Trans.run Sections.step t (if s.commits i then [i] else []) = some t' ∧
        Valid rank s' ∧ Agrees s' t' := by
    intro s i s' t hst h
    obtain ⟨t', ht', hst'⟩ := agrees_step hst.1 hst.2 h
    exact ⟨t', ht', valid_step hst.1 h, hst'⟩
  exact Trans.run_answer hstep ⟨valid_start hfits, agrees_start⟩ h

/-- Where nobody holds anything, the threads are where their sections have brought them. -/
theorem Agrees.of_quiet {s : State σ} {t : Sections σ} (h : Agrees s t) (hs : s.quiet = true) :
    t.data = s.data ∧ ∀ (j : ℕ) p, s.procs[j]? = some p → t.codes[j]? = some p.code := by
  have hnil : ∀ p ∈ s.procs, p.held = [] := fun p hp => by simpa using List.all_eq_true.mp hs p hp
  refine ⟨funext fun m => h.free m fun p hp _ hm => ?_, fun j p hp => ?_⟩
  · rw [hnil p hp] at hm
    cases hm
  · obtain ⟨c, hc, hpc⟩ := h.codes j p hp
    rw [hc, hpc.out (hnil p (List.mem_of_getElem? hp))]

end Runs

end Mutexes
