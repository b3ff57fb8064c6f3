/-
# One instance at a time

`main` creates a message queue of a fixed name before anything else, and gives
up if there is one already; it removes the queue after `task_processor::start`
has returned. Any number of processes may be launched, and they run side by
side. In a release build the processes are admitted in turn: none is admitted
until the last one has removed the queue (`instances_in_turn`).

The queue outlives its process. Whoever is admitted and does not come to the
end of `main`, because an `init` fails, an exception is not caught or the
process is killed, leaves it behind, and from then on every launch is refused.
With `_DEBUG` each launch first removes the queue, so a launch that is alone is
always admitted, whoever is running (`debug_admitted`).

Not modelled: `tasks_mgr`, of which only the result of `init` matters here, and
a launch for which the queue cannot be created for another reason.

Key definitions: `Place`, `System`, `step`, `turns`, `System.Stuck`, `Leaves`.
Key theorems: `step_cases`, `Kept.step`, `stuck_step`, `instances_in_turn`, `debug_admitted`.
-/
import ScheduleCenter.Base.Trans
import ScheduleCenter.Base.Counting

namespace ScheduleCenter

namespace Instances

/-- The managers, in the order of their `init`. -/
inductive Manager
  | config | device | account | tasks
deriving DecidableEq

def Manager.next : Manager → Option Manager
  | .config => some .device
  | .device => some .account
  | .account => some .tasks
  | .tasks => none

/-- Where a process is in `main`: before `message_queue::remove` of `_DEBUG`;
before it creates the queue; before an `init`; before `main_task s`; in
`task_processor::start`; before the last `message_queue::remove`; past `main`, or
ended by an exception or from outside. -/
inductive Place
  | remove
  | create
  | init (m : Manager)
  | construct
  | running
  | cleanUp
  | returned (code : ℤ)
  | died
deriving DecidableEq

/-- Admitted, and still in `main`. -/
def Place.holds : Place → Bool
  | .init _ | .construct | .running | .cleanUp => true
  | _ => false

def Place.ended : Place → Bool
  | .returned _ | .died => true
  | _ => false

/-- How a call of `main` ends: an `init` may return false. -/
inductive Result
  | ok | fails | throws
deriving DecidableEq

/-- Whether the message queue exists, and the processes in the order of their launch. -/
structure System where
  queue : Bool
  procs : List Place
deriving DecidableEq

def System.init : System := ⟨false, []⟩

/-- A process is launched, goes on in `main`, or is killed. -/
inductive Act
  | launch
  | go (i : ℕ) (r : Result)
  | kill (i : ℕ)
deriving DecidableEq

/-- The next call of `main`: where it goes on, and whether the queue exists then. -/
def next (queue : Bool) : Place → Result → Option (Place × Bool)
  | .remove, .ok => some (.create, false)
  | .create, .ok => some (if queue then .returned (-1) else .init .config, true)
  | .init m, .ok => some (m.next.elim .construct .init, queue)
  | .init _, .fails => some (.returned (-1), queue)
  | .construct, .ok => some (.running, queue)
  | .running, .ok => some (.cleanUp, queue)
  | .cleanUp, .ok => some (.returned 0, false)
  | .init _, .throws | .construct, .throws | .running, .throws => some (.died, queue)
  | _, _ => none

def step (debug : Bool) (s : System) : Act → Option System
  | .launch => some { s with procs := s.procs ++ [if debug then .remove else .create] }
  | .go i r => do
    let p ← s.procs[i]?
    let (p', queue) ← next s.queue p r
    return ⟨queue, s.procs.set i p'⟩
  | .kill i => do
    let p ← s.procs[i]?
    if p.ended then none else some { s with procs := s.procs.set i .died }

/-! ### Turns -/

/-- A process is admitted; it has removed the queue at its end. -/
inductive Turn
  | admitted (i : ℕ)
  | removed (i : ℕ)
deriving DecidableEq

/-- What a step adds. -/
def outs (s : System) : Act → List Turn
  | .go i .ok =>
    match s.procs[i]? with
    | some .create => if s.queue then [] else [.admitted i]
    | some .cleanUp => [.removed i]
    | _ => []
  | _ => []

/-- The turns of processes that came to the end of `main`. -/
def turns (is : List ℕ) : List Turn := is.flatMap fun i => [.admitted i, .removed i]

/-- The queue exists, and nobody is left to remove it. -/
def System.Stuck (s : System) : Prop := s.queue = true ∧ ∀ p ∈ s.procs, p.holds = false

instance (s : System) : Decidable s.Stuck := inferInstanceAs (Decidable (_ ∧ _))

/-- Some process is admitted, now or later. -/
def AdmitsAgain (debug : Bool) (s : System) : Prop :=
  ∃ s₁ i, Trans.Reach (step debug) (fun _ _ => True) s s₁ ∧ .admitted i ∈ outs s₁ (.go i .ok)

/-- An admitted process ends without having removed the queue. -/
def Leaves (s : System) : Act → Prop
  | .go i r => r ≠ .ok ∧ ∃ p ∈ s.procs[i]?, p.holds
  | .kill i => ∃ p ∈ s.procs[i]?, p.holds
  | .launch => False

/-- A place of the release build. -/
def NoRemove (s : System) : Prop := ∀ p ∈ s.procs, p ≠ .remove

variable {s s' : System} {a : Act} {i j : ℕ} {p p' : Place}

/-- What a step of the release build can be, and what it adds. -/
inductive StepCase (s : System) : Act → List Turn → System → Prop
  | launch : StepCase s .launch [] { s with procs := s.procs ++ [.create] }
  | enter {i : ℕ} (hi : s.procs[i]? = some .create) (hqueue : s.queue = false) :
    StepCase s (.go i .ok) [.admitted i] ⟨true, s.procs.set i (.init .config)⟩
  | refuse {i : ℕ} (hi : s.procs[i]? = some .create) (hqueue : s.queue = true) :
    StepCase s (.go i .ok) [] ⟨true, s.procs.set i (.returned (-1))⟩
  | go {i : ℕ} {p p' : Place} (hi : s.procs[i]? = some p) (hp : p.holds = true) (hp' : p'.holds = true)
      (hrank : p ≠ .cleanUp) : StepCase s (.go i .ok) [] { s with procs := s.procs.set i p' }
  | removed {i : ℕ} (hi : s.procs[i]? = some .cleanUp) :
    StepCase s (.go i .ok) [.removed i] ⟨false, s.procs.set i (.returned 0)⟩
  | leave {i : ℕ} {r : Result} {p p' : Place} (hi : s.procs[i]? = some p) (hp : p.holds = true) (hr : r ≠ .ok)
      (hp' : p'.ended = true) : StepCase s (.go i r) [] { s with procs := s.procs.set i p' }
  | kill {i : ℕ} {p : Place} (hi : s.procs[i]? = some p) (hp : p.ended = false) :
    StepCase s (.kill i) [] { s with procs := s.procs.set i .died }

theorem step_cases (hno : NoRemove s) (hs : step false s a = some s') : StepCase s a (outs s a) s' := by
  cases a with
  | launch =>
    simp only [step, Bool.false_eq_true, if_false, Option.some.injEq] at hs
    subst hs
    exact .launch
  | go i r =>
    simp only [step, Option.bind_eq_bind, Option.bind_eq_some_iff, Option.pure_def, Option.some.injEq] at hs
    obtain ⟨p, hi, ⟨p', queue⟩, hnext, rfl⟩ := hs
    have hremove : p ≠ .remove := hno p (List.mem_of_getElem? hi)
    cases p with
    | remove => exact absurd rfl hremove
    | create =>
      cases r with
      | ok =>
        simp only [next, Option.some.injEq, Prod.mk.injEq] at hnext
        obtain ⟨rfl, rfl⟩ := hnext
        rcases hqueue : s.queue with _ | _
        · have houts : outs s (.go i .ok) = [.admitted i] := by simp [outs, hi, hqueue]
          rw [houts]
          exact .enter hi hqueue
        · have houts : outs s (.go i .ok) = [] := by simp [outs, hi, hqueue]
          rw [houts]
          exact .refuse hi hqueue
      | fails | throws => cases hnext
    | init m =>
      cases r with
      | ok =>
        simp only [next, Option.some.injEq, Prod.mk.injEq] at hnext
        obtain ⟨rfl, rfl⟩ := hnext
        have houts : outs s (.go i .ok) = [] := by simp [outs, hi]
        rw [houts]
        refine .go hi rfl ?_ (by simp)
        cases m <;> rfl
      | fails | throws =>
        simp only [next, Option.some.injEq, Prod.mk.injEq] at hnext
        obtain ⟨rfl, rfl⟩ := hnext
        exact .leave hi rfl (by simp) rfl
    | construct | running =>
      cases r with
      | ok =>
        simp only [next, Option.some.injEq, Prod.mk.injEq] at hnext
        obtain ⟨rfl, rfl⟩ := hnext
        have houts : outs s (.go i .ok) = [] := by simp [outs, hi]
        rw [houts]
        exact .go hi rfl rfl (by simp)
      | fails => cases hnext
      | throws =>
        simp only [next, Option.some.injEq, Prod.mk.injEq] at hnext
        obtain ⟨rfl, rfl⟩ := hnext
        exact .leave hi rfl (by simp) rfl
    | cleanUp =>
      cases r with
      | ok =>
        simp only [next, Option.some.injEq, Prod.mk.injEq] at hnext
        obtain ⟨rfl, rfl⟩ := hnext
        have houts : outs s (.go i .ok) = [.removed i] := by simp [outs, hi]
        rw [houts]
        exact .removed hi
      | fails | throws => cases hnext
    | returned code => cases r <;> cases hnext
    | died => cases r <;> cases hnext
  | kill i =>
    simp only [step, Option.bind_eq_bind, Option.bind_eq_some_iff] at hs
    obtain ⟨p, hi, hs⟩ := hs
    split_ifs at hs with hended
    obtain rfl := Option.some.inj hs
    exact .kill hi (by simpa using hended)

/-! ### One holder -/

/-- Nobody but `i` is past the creation of the queue. -/
def OnlyHolder (s : System) (i : ℕ) : Prop := ∀ j p, s.procs[j]? = some p → p.holds = true → j = i

/-- The queue, the holder and the turns so far agree. -/
inductive Kept (s : System) : List Turn → Prop
  | free (is : List ℕ) (hno : NoRemove s) (hqueue : s.queue = false) (hnone : ∀ p ∈ s.procs, p.holds = false) :
    Kept s (turns is)
  | held (is : List ℕ) (i : ℕ) (hno : NoRemove s) (hqueue : s.queue = true) (honly : OnlyHolder s i) :
    Kept s (turns is ++ [.admitted i])

theorem noRemove_set {q : Bool} (h : NoRemove s) (hp : p' ≠ .remove) : NoRemove ⟨q, s.procs.set i p'⟩ :=
  Counting.forall_mem_set h hp

theorem OnlyHolder.set {q : Bool} (h : OnlyHolder s i) (hp : p'.holds = true → j = i) :
    OnlyHolder ⟨q, s.procs.set j p'⟩ i := by
  intro k p hk hholds
  rcases Counting.getElem?_set_cases hk with ⟨rfl, rfl⟩ | ⟨-, hk⟩
  · exact hp hholds
  · exact h k p hk hholds

/-- The holder is gone. -/
theorem OnlyHolder.none_left (h : OnlyHolder s i) (hp : p'.holds = false) : ∀ p ∈ s.procs.set i p', p.holds = false := by
  intro p hmem
  obtain ⟨k, hk⟩ := List.mem_iff_getElem?.mp hmem
  rcases Counting.getElem?_set_cases hk with ⟨-, rfl⟩ | ⟨hne, hk⟩
  · exact hp
  · by_contra hholds
    exact hne (h k p hk (by simpa using hholds))

theorem turns_snoc (is : List ℕ) (i : ℕ) : turns is ++ [.admitted i] ++ [.removed i] = turns (is ++ [i]) := by
  unfold turns
  rw [List.flatMap_append, List.flatMap_singleton, List.append_assoc]
  rfl

theorem Kept.noRemove {g : List Turn} (h : Kept s g) : NoRemove s := by
  cases h with
  | free _ hno | held _ _ hno => exact hno

/-- Who is past the creation of the queue is its holder. -/
theorem Kept.holder {g : List Turn} (h : Kept s g) (hi : s.procs[i]? = some p) (hp : p.holds = true) :
    s.queue = true ∧ OnlyHolder s i ∧ ∃ is, g = turns is ++ [.admitted i] := by
  cases h with
  | free _ _ _ hnone =>
    rw [hnone p (List.mem_of_getElem? hi)] at hp
    cases hp
  | held is k _ hqueue honly =>
    obtain rfl := honly i p hi hp
    exact ⟨hqueue, honly, is, rfl⟩

/-- A process that is not the holder, and is not to be, goes on. -/
theorem Kept.aside {g : List Turn} (h : Kept s g) (hp' : p'.holds = false) (hno : p' ≠ .remove) :
    Kept { s with procs := s.procs.set i p' } g := by
  cases h with
  | free is hno' hqueue hnone => exact .free is (noRemove_set hno' hno) hqueue (Counting.forall_mem_set hnone hp')
  | held is k hno' hqueue honly =>
    exact .held is k (noRemove_set hno' hno) hqueue (honly.set fun h => absurd h (by simp [hp']))

theorem Kept.launch {g : List Turn} (h : Kept s g) : Kept { s with procs := s.procs ++ [.create] } g := by
  have hno : NoRemove { s with procs := s.procs ++ [.create] } := by
    intro p hp
    rcases List.mem_append.mp hp with hp | hp
    · exact h.noRemove p hp
    · rw [List.mem_singleton.mp hp]
      simp
  cases h with
  | free is _ hqueue hnone =>
    refine .free is hno hqueue fun p hp => ?_
    rcases List.mem_append.mp hp with hp | hp
    · exact hnone p hp
    · rw [List.mem_singleton.mp hp]
      rfl
  | held is k _ hqueue honly =>
    refine .held is k hno hqueue fun j p hj hp => ?_
    rw [List.getElem?_append] at hj
    split_ifs at hj with hlt
    · exact honly j p hj hp
    · obtain rfl := List.mem_singleton.mp (List.mem_of_getElem? hj)
      cases hp

/-- **One step.** -/
theorem Kept.step {g : List Turn} (h : Kept s g) (hs : Instances.step false s a = some s') :
    Kept s' (g ++ outs s a) := by
  have hcase := step_cases h.noRemove hs
  generalize outs s a = o at hcase
  cases hcase with
  | launch =>
    rw [List.append_nil]
    exact h.launch
  | @enter i hi hqueue =>
    cases h with
    | free is hno _ hnone =>
      refine .held is i (noRemove_set hno (by simp)) rfl fun j p hj hp => ?_
      rcases Counting.getElem?_set_cases hj with ⟨rfl, -⟩ | ⟨-, hj⟩
      · rfl
      · rw [hnone p (List.mem_of_getElem? hj)] at hp
        cases hp
    | held _ _ _ hqueue' =>
      rw [hqueue] at hqueue'
      cases hqueue'
  | refuse hi hqueue =>
    rw [List.append_nil, ← hqueue]
    exact h.aside rfl (by simp)
  | @go i p p' hi hp hp' =>
    obtain ⟨hqueue, honly, is, rfl⟩ := h.holder hi hp
    rw [List.append_nil]
    refine .held is i (noRemove_set h.noRemove ?_) hqueue (honly.set fun _ => rfl)
    rintro rfl
    cases hp'
  | @removed i hi =>
    obtain ⟨-, honly, is, rfl⟩ := h.holder hi rfl
    rw [turns_snoc]
    exact .free _ (noRemove_set h.noRemove (by simp)) rfl (honly.none_left rfl)
  | @leave i r p p' hi hp hr hp' =>
    rw [List.append_nil]
    cases p' with
    | returned | died => exact h.aside rfl (by simp)
    | _ => cases hp'
  | kill =>
    rw [List.append_nil]
    exact h.aside rfl (by simp)

theorem kept_of_run {as : List Act} (hrun : Trans.run (Instances.step false) .init as = some s) :
    Kept s (Trans.emits (Instances.step false) outs .init as) := by
  have hinit : Kept .init (turns []) := .free [] (by simp [NoRemove, System.init]) rfl (by simp [System.init])
  exact Trans.emits_invariant (P := fun _ _ => True) (I := Kept) (fun s g a s' h _ hs => h.step hs) hinit
    (Trans.along_of_forall (fun _ _ => trivial) as _) hrun

/-! ### The queue that is left behind -/

theorem exists_holder (h : ¬ s.Stuck) (hqueue : s.queue = true) :
    ∃ (i : ℕ) (p : Place), s.procs[i]? = some p ∧ p.holds = true := by
  have hsome : ∃ p ∈ s.procs, p.holds = true := by
    by_contra hnone
    push Not at hnone
    exact h ⟨hqueue, fun p hp => by simpa using hnone p hp⟩
  obtain ⟨p, hp, hholds⟩ := hsome
  obtain ⟨i, hi⟩ := List.mem_iff_getElem?.mp hp
  exact ⟨i, p, hi, hholds⟩

theorem not_stuck_of_holder (hi : s.procs[i]? = some p) (hp : p.holds = true) : ¬ s.Stuck := by
  intro h
  rw [h.2 p (List.mem_of_getElem? hi)] at hp
  cases hp

/-- Another process goes on: the holder stays. -/
theorem not_stuck_aside (h : ¬ s.Stuck) (hi : s.procs[i]? = some p) (hp : p.holds = false) :
    ¬ ({ s with procs := s.procs.set i p' } : System).Stuck := by
  intro hstuck
  obtain ⟨j, q, hj, hq⟩ := exists_holder h hstuck.1
  have hne : i ≠ j := by
    rintro rfl
    rw [Option.some.inj (hi.symm.trans hj), hq] at hp
    cases hp
  have hstill : (s.procs.set i p')[j]? = some q := by rwa [List.getElem?_set_ne hne]
  exact not_stuck_of_holder (s := { s with procs := s.procs.set i p' }) hstill hq hstuck

/-- The queue is left behind by a step exactly if its holder leaves. -/
theorem stuck_step {g : List Turn} (h : Kept s g) (hs : Instances.step false s a = some s') (hstuck : ¬ s.Stuck) :
    s'.Stuck ↔ Leaves s a := by
  have hcase := step_cases h.noRemove hs
  generalize outs s a = o at hcase
  cases hcase with
  | launch =>
    refine iff_of_false (fun hs' => hstuck ⟨hs'.1, fun p hp => hs'.2 p (List.mem_append_left _ hp)⟩) id
  | @enter i hi =>
    refine iff_of_false (not_stuck_of_holder (i := i) (p := .init .config) ?_ rfl) fun hl => hl.1 rfl
    exact List.getElem?_set_self (List.getElem?_eq_some_iff.mp hi).1
  | refuse hi hqueue =>
    rw [← hqueue]
    exact iff_of_false (not_stuck_aside hstuck hi rfl) fun hl => hl.1 rfl
  | @go i p p' hi hp hp' =>
    refine iff_of_false (not_stuck_of_holder (i := i) ?_ hp') fun hl => hl.1 rfl
    exact List.getElem?_set_self (List.getElem?_eq_some_iff.mp hi).1
  | removed => exact iff_of_false (fun hs' => by cases hs'.1) fun hl => hl.1 rfl
  | @leave i r p p' hi hp hr hp' =>
    obtain ⟨hqueue, honly, -⟩ := h.holder hi hp
    refine iff_of_true ⟨hqueue, honly.none_left ?_⟩ ⟨hr, p, hi, hp⟩
    cases p' <;> first | rfl | cases hp'
  | @kill i p hi =>
    by_cases hp : p.holds = true
    · obtain ⟨hqueue, honly, -⟩ := h.holder hi hp
      exact iff_of_true ⟨hqueue, honly.none_left rfl⟩ ⟨p, hi, hp⟩
    · refine iff_of_false (not_stuck_aside hstuck hi (by simpa using hp)) ?_
      rintro ⟨q, hq, hholds⟩
      exact hp (Option.some.inj (hi.symm.trans hq) ▸ hholds)

/-- Then every launch is refused. -/
theorem stuck_stays (h : s.Stuck) (hno : NoRemove s) (hs : Instances.step false s a = some s') :
    s'.Stuck ∧ NoRemove s' ∧ ∀ i, .admitted i ∉ outs s a := by
  have hcase := step_cases hno hs
  generalize outs s a = o at hcase
  have hholder : ∀ {i : ℕ} {p : Place}, s.procs[i]? = some p → p.holds = true → False :=
    fun hi hp => not_stuck_of_holder hi hp h
  cases hcase with
  | launch =>
    refine ⟨⟨h.1, fun p hp => ?_⟩, fun p hp => ?_, by simp⟩
    · rcases List.mem_append.mp hp with hp | hp
      · exact h.2 p hp
      · rw [List.mem_singleton.mp hp]
        rfl
    · rcases List.mem_append.mp hp with hp | hp
      · exact hno p hp
      · rw [List.mem_singleton.mp hp]
        simp
  | enter _ hqueue =>
    rw [h.1] at hqueue
    cases hqueue
  | refuse => exact ⟨⟨rfl, Counting.forall_mem_set h.2 rfl⟩, noRemove_set hno (by simp), by simp⟩
  | go hi hp | leave hi hp => exact (hholder hi hp).elim
  | removed hi => exact (hholder hi rfl).elim
  | kill => exact ⟨⟨h.1, Counting.forall_mem_set h.2 rfl⟩, noRemove_set hno (by simp), by simp⟩

/-- How far a process is from the end of `main`. -/
def rank : Place → ℕ
  | .init .config => 7
  | .init .device => 6
  | .init .account => 5
  | .init .tasks => 4
  | .construct => 3
  | .running => 2
  | .cleanUp => 1
  | _ => 0

theorem rank_pos (hp : p.holds = true) : 0 < rank p := by
  cases p with
  | init m => cases m <;> decide
  | construct | running | cleanUp => decide
  | _ => cases hp

/-- The holder can go on, towards the removal of the queue. -/
theorem holder_goes_on (hp : p.holds = true) :
    (∃ p', next s.queue p .ok = some (p', s.queue) ∧ p'.holds = true ∧ rank p' < rank p) ∨
      next s.queue p .ok = some (.returned 0, false) := by
  cases p with
  | init m =>
    refine Or.inl ⟨_, rfl, ?_, ?_⟩
    · cases m <;> rfl
    · cases m <;> decide
  | construct => exact Or.inl ⟨_, rfl, rfl, by decide⟩
  | running => exact Or.inl ⟨_, rfl, rfl, by decide⟩
  | cleanUp => exact Or.inr rfl
  | _ => cases hp

theorem go_eq {q : Bool} {r : Result} (debug : Bool) (hi : s.procs[i]? = some p)
    (hnext : next s.queue p r = some (p', q)) :
    Instances.step debug s (.go i r) = some ⟨q, s.procs.set i p'⟩ := by
  simp [Instances.step, hi, hnext]

theorem queue_removed (hi : s.procs[i]? = some p) (hp : p.holds = true) :
    ∃ s', Trans.Reach (Instances.step false) (fun _ _ => True) s s' ∧ s'.queue = false := by
  refine Trans.Reach.eventually (I := fun s => s.queue = false ∨ ∃ p ∈ s.procs[i]?, p.holds = true)
    (fun s => ((s.procs[i]?).map rank).getD 0) ?_ (Or.inr ⟨p, hi, hp⟩)
  rintro s (hqueue | ⟨p, hi, hp⟩)
  · exact Or.inl hqueue
  have hlt : i < s.procs.length := (List.getElem?_eq_some_iff.mp hi).1
  have hself : ∀ q, (s.procs.set i q)[i]? = some q := fun q => List.getElem?_set_self hlt
  refine Or.inr ?_
  rcases holder_goes_on (s := s) hp with ⟨p', hnext, hp', hrank⟩ | hnext
  · refine ⟨.go i .ok, _, trivial, go_eq false hi hnext, Or.inr ⟨p', hself p', hp'⟩, ?_⟩
    simp only [hself, Option.mem_def.mp hi, Option.map_some, Option.getD_some]
    exact hrank
  · refine ⟨.go i .ok, _, trivial, go_eq false hi hnext, Or.inl rfl, ?_⟩
    simp only [hself, Option.mem_def.mp hi, Option.map_some, Option.getD_some]
    exact rank_pos hp

theorem admitted_of_free (hi : s.procs[i]? = some .create) (hqueue : s.queue = false) :
    .admitted i ∈ outs s (.go i .ok) := by
  simp [outs, hi, hqueue]

/-- Who is admitted has found no queue. -/
theorem free_of_admitted (h : .admitted i ∈ outs s (.go i .ok)) : s.queue = false := by
  by_contra hqueue
  simp only [outs] at h
  split at h
  · simp [hqueue] at h
  · simp at h
  · simp at h

/-- A launch is admitted once more exactly if the queue has not been left behind. -/
theorem admitsAgain_iff (hno : NoRemove s) : AdmitsAgain false s ↔ ¬ s.Stuck := by
  constructor
  · rintro ⟨s₁, i, hreach, hadmitted⟩ hstuck
    have hstill : s₁.Stuck ∧ NoRemove s₁ := by
      apply hreach.invariant (I := fun s => s.Stuck ∧ NoRemove s) ⟨hstuck, hno⟩
      rintro s a s' ⟨hstuck, hno⟩ - hs
      obtain ⟨hstuck', hno', -⟩ := stuck_stays hstuck hno hs
      exact ⟨hstuck', hno'⟩
    have hqueue := free_of_admitted hadmitted
    rw [hstill.1.1] at hqueue
    cases hqueue
  · intro hstuck
    have hfree : ∃ s₁, Trans.Reach (step false) (fun _ _ => True) s s₁ ∧ s₁.queue = false := by
      rcases hqueue : s.queue with _ | _
      · exact ⟨s, .refl, hqueue⟩
      · obtain ⟨i, p, hi, hp⟩ := exists_holder hstuck hqueue
        exact queue_removed hi hp
    obtain ⟨s₁, hreach, hqueue⟩ := hfree
    refine ⟨{ s₁ with procs := s₁.procs ++ [.create] }, s₁.procs.length, hreach.tail (a := .launch) trivial rfl, ?_⟩
    exact admitted_of_free (by simp) hqueue

/-- **In turn.** In every run of a release build the processes are admitted one after
another, each after the last has removed the queue, and at most one is past the
creation of the queue; a launch can be admitted again exactly if the queue has
not been left behind, and it has not, all along, exactly if no step of the run let
an admitted process end without removing it. -/
theorem instances_in_turn {as : List Act} (hrun : Trans.run (step false) .init as = some s) :
    ((∃ is, Trans.emits (step false) outs .init as = turns is ∧ ∀ p ∈ s.procs, p.holds = false) ∨
      ∃ is i, Trans.emits (step false) outs .init as = turns is ++ [.admitted i] ∧ OnlyHolder s i) ∧
    (AdmitsAgain false s ↔ ¬ s.Stuck) ∧
    (Trans.Always (step false) (fun s => ¬ s.Stuck) .init as ↔
      Trans.Along (step false) (fun s a => ¬ Leaves s a) .init as) := by
  have hkept := kept_of_run hrun
  refine ⟨?_, admitsAgain_iff hkept.noRemove, ?_⟩
  · generalize Trans.emits (step false) outs .init as = g at hkept
    cases hkept with
    | free is _ _ hnone => exact Or.inl ⟨is, rfl, hnone⟩
    | held is i _ _ honly => exact Or.inr ⟨is, i, rfl, honly⟩
  · have hinit : Kept .init (turns []) := .free [] (by simp [NoRemove, System.init]) rfl (by simp [System.init])
    refine Trans.always_iff_along (I := fun s => ∃ g, Kept s g) ?_ ?_ ⟨_, hinit⟩ (by decide) hrun
    · rintro s a s' ⟨g, h⟩ hs
      exact ⟨_, h.step hs⟩
    · rintro s a s' ⟨g, h⟩ hstuck hs
      exact not_congr (stuck_step h hs hstuck)

/-- **With `_DEBUG`** a launch that nothing comes between is admitted in every state. -/
theorem debug_admitted (s : System) :
    ∃ s', Trans.run (step true) s [.launch, .go s.procs.length .ok, .go s.procs.length .ok] = some s' ∧
      s'.procs = s.procs ++ [.init .config] ∧
      .admitted s.procs.length ∈
        Trans.emits (step true) outs s [.launch, .go s.procs.length .ok, .go s.procs.length .ok] := by
  have hlast : ∀ p : Place, (s.procs ++ [p])[s.procs.length]? = some p := by simp
  have hset : ∀ p p' : Place, (s.procs ++ [p]).set s.procs.length p' = s.procs ++ [p'] := by simp
  have hlaunch : step true s .launch = some ⟨s.queue, s.procs ++ [.remove]⟩ := rfl
  have hremove : step true ⟨s.queue, s.procs ++ [.remove]⟩ (.go s.procs.length .ok) =
      some ⟨false, s.procs ++ [.create]⟩ := by
    rw [go_eq true (hlast .remove) rfl, hset]
  have hcreate : step true ⟨false, s.procs ++ [.create]⟩ (.go s.procs.length .ok) =
      some ⟨true, s.procs ++ [.init .config]⟩ := by
    rw [go_eq true (hlast .create) rfl, hset]
    rfl
  refine ⟨⟨true, s.procs ++ [.init .config]⟩, ?_, rfl, ?_⟩
  · simp only [Trans.run, hlaunch, hremove, hcreate, Option.bind_some]
  · rw [Trans.emits_cons hlaunch, Trans.emits_cons hremove, Trans.emits_cons hcreate]
    simp [outs]

/-- A process whose second `init` fails; then one more is launched. -/
def failedStart : List Act :=
  [.launch, .go 0 .ok, .go 0 .ok, .go 0 .fails, .launch, .go 1 .ok]

theorem instances_in_turn_failedStart :
    ∃ s, Trans.run (step false) .init failedStart = some s ∧ s.procs = [.returned (-1), .returned (-1)] ∧
      ¬ AdmitsAgain false s := by
  have hend : (Trans.run (step false) .init failedStart) = some ⟨true, [.returned (-1), .returned (-1)]⟩ := by
    decide
  have hstuck : ¬ AdmitsAgain false ⟨true, [.returned (-1), .returned (-1)]⟩ := by
    rw [(instances_in_turn hend).2.1]
    decide
  exact ⟨_, hend, rfl, hstuck⟩

end Instances

end ScheduleCenter
