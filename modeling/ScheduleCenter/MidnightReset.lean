/-
# The midnight reset among other calls

`reset_all_everyday_task` is not atomic: it takes the lock once for each account,
and `set_everyday_task`, `set_vote_status` and `set_acc_status` come in between.
What a run does to the table is a sequence of sections under the lock
(`sections`), each of which changes one record, so a record is what the sections
of its account make of it, in order (`record_run`). The reset's iterator passes
every account once, as none is added (`Resetting`). So an account is finished
afterwards only if it was set so after the reset had been there, and what the
reset does not write is as if there had been none (`reset_kept`).

Key definitions: `AccountCalls.Section`, `AccountCalls.sections`, `AccountCalls.Resetting`.
Key theorems: `AccountCalls.record_run`, `AccountCalls.resetting_step`, `AccountCalls.returns`,
`AccountCalls.reset_kept`.
-/
import ScheduleCenter.AccountCalls

namespace ScheduleCenter
namespace AccountCalls

open AccountMgr

/-! ### Sections that change a record -/

/-- A section under the exclusive lock. -/
inductive Section
  | setVoteStatus (acc url : Str)
  | setAccStatus (acc : Str) (status : Int)
  | setEverydayTask (acc : Str) (done : Int)
  /-- `set_everyday_task`, called by the reset. -/
  | reset (acc : Str)
deriving DecidableEq

namespace Section

def acc : Section → Str
  | .setVoteStatus acc _ => acc
  | .setAccStatus acc _ => acc
  | .setEverydayTask acc _ => acc
  | .reset acc => acc

/-- What it makes of the record of its account. -/
def change : Section → AccountPro → AccountPro
  | .setVoteStatus _ url, p => { p with votedUrl := insert url p.votedUrl }
  | .setAccStatus _ status, p => { p with status := status }
  | .setEverydayTask _ done, p => { p with everydayTaskCompleted := done }
  | .reset _, p => { p with everydayTaskCompleted := dailytaskNotFinished }

/-- What it makes of the record of `a`. -/
def on (a : Str) (p : AccountPro) (c : Section) : AccountPro := if a = c.acc then c.change p else p

end Section

/-- The section of a setter's call. -/
def setterSection : Op → Option Section
  | .setVoteStatus acc url => some (.setVoteStatus acc url)
  | .setAccStatus acc status => some (.setAccStatus acc status)
  | .setEverydayTask acc done => some (.setEverydayTask acc done)
  | _ => none

/-- The section that the step is, if it changes a record. -/
def sections (s : State) : Act → List Section
  | .call _ (.op op) => (setterSection op).toList
  | .call _ .resetAllEverydayTask => []
  | .go i =>
    match s.pcs i with
    | .reset acc => [.reset acc]
    | _ => []

/-- The call of a setter. -/
def Act.sets : Act → Bool
  | .call _ (.op op) => (setterSection op).isSome
  | _ => false

/-- The call of the reset. -/
def Act.resets : Act → Bool
  | .call _ .resetAllEverydayTask => true
  | _ => false

/-- The call of a setter or of the reset, or a step in a call. -/
def Act.updates : Act → Bool
  | .call _ (.op op) => (setterSection op).isSome
  | _ => true

variable {m : AccountMgr} {s s' : State} {a : Act} {i : ℕ} {acc : Str}

theorem isShared_of_setter {op : Op} {c : Section} (h : setterSection op = some c) : op.isShared = false := by
  cases op <;> first | rfl | cases h

theorem apply_setter {op : Op} {c : Section} (h : setterSection op = some c) : op.apply m = m.update c.acc c.change := by
  cases op with
  | setVoteStatus | setAccStatus | setEverydayTask => cases h; rfl
  | _ => cases h

theorem lookup_change (m : AccountMgr) (c : Section) (acc : Str) :
    (m.update c.acc c.change).accountsPro.lookup acc = (m.accountsPro.lookup acc).map fun p => c.on acc p := by
  rw [lookup_update]
  by_cases hacc : acc = c.acc
  · rw [if_pos hacc, hacc]
    simp [Section.on]
  · rw [if_neg hacc]
    simp [Section.on, hacc]

/-- What a setter, the reset, or a step in a call can do. -/
inductive UpdateCase (s : State) : Act → State → Prop
  | set {i : ℕ} {op : Op} {c : Section} (hpc : s.pcs i = .out) (hc : setterSection op = some c) :
      UpdateCase s (.call i (.op op)) { s with mgr := s.mgr.update c.acc c.change }
  | begin {i : ℕ} (hpc : s.pcs i = .out) : UpdateCase s (.call i .resetAllEverydayTask) (s.loopAt i (first s.mgr))
  | erase {i : ℕ} {n : Node} (hpc : s.pcs i = .erase n) : UpdateCase s (.go i) (s.eraseNode i n)
  | reset {i : ℕ} {acc : Str} (hpc : s.pcs i = .reset acc) : UpdateCase s (.go i) (s.resetOne i acc)
  | advance {i : ℕ} {acc : Str} (hpc : s.pcs i = .advance acc) : UpdateCase s (.go i) (s.loopAt i (next s.mgr acc))

theorem update_cases (ha : a.updates = true) (h : step s a = some s') : UpdateCase s a s' := by
  cases step_cases h with
  | @shared i op hpc hop =>
    obtain ⟨c, hc⟩ := Option.isSome_iff_exists.mp ha
    exact absurd ((isShared_of_setter hc).symm.trans hop) (by decide)
  | @exclusive i op hpc hop =>
    obtain ⟨c, hc⟩ := Option.isSome_iff_exists.mp ha
    unfold State.change
    rw [apply_setter hc]
    exact .set hpc hc
  | begin hpc => exact .begin hpc
  | erase hpc => exact .erase hpc
  | reset hpc => exact .reset hpc
  | advance hpc => exact .advance hpc

/-! ### What a run makes of a record -/

/-- A step makes of each record what its section does. -/
theorem record_step (ha : a.updates = true) (h : step s a = some s') (acc : Str) :
    s'.mgr.accountsPro.lookup acc =
      (s.mgr.accountsPro.lookup acc).map fun p => (sections s a).foldl (Section.on acc) p := by
  cases update_cases ha h with
  | @set i op c hpc hc =>
    rw [sections, hc]
    exact lookup_change _ c acc
  | begin => simp [sections, State.loopAt]
  | erase hpc => simp [sections, hpc, State.eraseNode, eraseIdle]
  | @reset i acc' hpc =>
    rw [sections, hpc]
    exact lookup_change s.mgr (.reset acc') acc
  | advance hpc => simp [sections, hpc, State.loopAt]

/-- **The records.** Each is what the sections of the run make of it, in order. -/
theorem record_run {as : List Act} (has : ∀ a ∈ as, a.updates = true) (h : Trans.run step s as = some s') (acc : Str) :
    s'.mgr.accountsPro.lookup acc =
      (s.mgr.accountsPro.lookup acc).map fun p => (Trans.emits step sections s as).foldl (Section.on acc) p := by
  have hinv := Trans.emits_invariant (f := sections) (P := fun _ a => Act.updates a = true) (g := [])
    (I := fun t g => t.mgr.accountsPro.lookup acc =
      (s.mgr.accountsPro.lookup acc).map fun p => g.foldl (Section.on acc) p) ?_ ?_ (Trans.along_of_mem has) h
  · simpa using hinv
  · intro t g a t' ht ha hs
    rw [record_step ha hs, ht, Option.map_map]
    simp [Function.comp_def]
  · simp

/-- Only one section makes an account finished. -/
theorem eq_set_of_finished {c : Section} {p : AccountPro} (hp : p.everydayTaskCompleted ≠ dailytaskFinished)
    (h : (c.on acc p).everydayTaskCompleted = dailytaskFinished) : c = .setEverydayTask acc dailytaskFinished := by
  unfold Section.on at h
  split_ifs at h with hacc
  · cases c with
    | setEverydayTask acc' done =>
      change done = dailytaskFinished at h
      change acc = acc' at hacc
      rw [h, hacc]
    | setVoteStatus | setAccStatus => exact absurd h hp
    | reset =>
      change dailytaskNotFinished = dailytaskFinished at h
      exact absurd h (by decide)
  · exact absurd h hp

theorem set_of_finished : ∀ {log : List Section} {p : AccountPro}, p.everydayTaskCompleted ≠ dailytaskFinished →
    (log.foldl (Section.on acc) p).everydayTaskCompleted = dailytaskFinished →
    .setEverydayTask acc dailytaskFinished ∈ log
  | [], _, hp, h => absurd h hp
  | c :: log, p, hp, h => by
    by_cases hc : (c.on acc p).everydayTaskCompleted = dailytaskFinished
    · rw [eq_set_of_finished hp hc]
      exact List.mem_cons_self
    · exact List.mem_cons_of_mem c (set_of_finished hc h)

/-- After a section of the reset the account is finished only by a later section. -/
theorem set_after_reset {l₁ l₂ : List Section} {p : AccountPro}
    (h : ((l₁ ++ .reset acc :: l₂).foldl (Section.on acc) p).everydayTaskCompleted = dailytaskFinished) :
    .setEverydayTask acc dailytaskFinished ∈ l₂ := by
  rw [List.foldl_append, List.foldl_cons] at h
  apply set_of_finished ?_ h
  simp [Section.on, Section.acc, Section.change, dailytaskNotFinished, dailytaskFinished]

/-! ### The way of the reset -/

/-- The account where the reset stands. -/
def Pc.account : Pc → Option Str
  | .reset acc => some acc
  | .advance acc => some acc
  | _ => none

/-- The accounts that the reset has set, of a table with the accounts `keys`. -/
def Passed (keys : List Str) : Pc → Str → Prop
  | .reset c, acc => OrderedKeys.Behind rank keys (some c) acc
  | .advance c, acc => OrderedKeys.Behind rank keys (some c) acc ∨ acc = c
  | _, acc => acc ∈ keys

theorem passed_loop {keys : List Str} (it : Option Str) :
    Passed keys (it.elim .out .reset) acc ↔ OrderedKeys.Behind rank keys it acc := by
  cases it with
  | none => simp [Passed, OrderedKeys.Behind]
  | some c => rfl

/-- Thread `i` runs the reset, or has run it, and nobody else is in a call; `log` has
the reset's section for the accounts that it has passed, once. -/
structure Resetting (keys : List Str) (i : ℕ) (s : State) (log : List Section) : Prop where
  table : ∀ acc, acc ∈ s.mgr.accountsPro ↔ acc ∈ keys
  others : ∀ j, j ≠ i → s.pcs j = .out
  inReset : ∀ n, s.pcs i ≠ .erase n
  stands : ∀ c ∈ (s.pcs i).account, c ∈ keys
  once : ∀ acc, Passed keys (s.pcs i) acc → log.count (.reset acc) = 1
  never : ∀ acc, ¬ Passed keys (s.pcs i) acc → log.count (.reset acc) = 0

variable {keys : List Str} {log : List Section}

/-- Only thread `i` is in a call. -/
theorem Resetting.thread_eq (h : Resetting keys i s log) {j : ℕ} (hj : s.pcs j ≠ .out) : j = i := by
  by_contra hne
  exact hj (h.others j hne)

theorem count_set {op : Op} {c : Section} (hc : setterSection op = some c) (acc : Str) :
    (log ++ [c]).count (.reset acc) = log.count (.reset acc) := by
  have hne : c ≠ .reset acc := by
    rintro rfl
    cases op <;> cases hc
  rw [List.count_append, List.count_singleton, if_neg (by simpa using hne), Nat.add_zero]

theorem count_reset (log : List Section) (c acc : Str) :
    (log ++ [Section.reset c]).count (.reset acc) = log.count (.reset acc) + if acc = c then 1 else 0 := by
  rw [List.count_append, List.count_singleton]
  by_cases hacc : acc = c
  · rw [hacc, if_pos rfl, if_pos (by simp)]
  · rw [if_neg hacc, if_neg (by simpa using Ne.symm hacc)]

/-- A setter is called. -/
theorem Resetting.set (h : Resetting keys i s log) {op : Op} {c : Section} (hc : setterSection op = some c) :
    Resetting keys i { s with mgr := s.mgr.update c.acc c.change } (log ++ [c]) where
  table acc := mem_update.trans (h.table acc)
  others := h.others
  inReset := h.inReset
  stands := h.stands
  once acc hacc := (count_set hc acc).trans (h.once acc hacc)
  never acc hacc := (count_set hc acc).trans (h.never acc hacc)

/-- The reset sets an account. -/
theorem Resetting.reset (h : Resetting keys i s log) {c : Str} (hpc : s.pcs i = .reset c) :
    Resetting keys i (s.resetOne i c) (log ++ [.reset c]) := by
  have hpc' : (s.resetOne i c).pcs i = .advance c := State.goTo_pcs_self _ i _
  have honce := h.once
  have hnever := h.never
  rw [hpc] at honce hnever
  refine
    { table := fun acc => mem_update.trans (h.table acc)
      others := ?_
      inReset := ?_
      stands := ?_
      once := ?_
      never := ?_ }
  · intro j hj
    exact (State.goTo_pcs_ne _ _ hj).trans (h.others j hj)
  · simp [hpc']
  · rw [hpc']
    intro d hd
    exact h.stands d (by rw [hpc]; exact hd)
  · rw [hpc']
    rintro acc (hacc | rfl)
    · have hne : acc ≠ c := fun heq => OrderedKeys.not_behind_self (heq ▸ hacc)
      rw [count_reset, honce acc hacc, if_neg hne]
    · rw [count_reset, hnever acc OrderedKeys.not_behind_self, if_pos rfl]
  · rw [hpc']
    intro acc hacc
    obtain ⟨hbehind, hne⟩ := not_or.mp hacc
    rw [count_reset, hnever acc hbehind, if_neg hne]

/-- The reset's iterator goes to `it`. -/
theorem resetting_loopAt {it : Option Str} (htable : ∀ acc, acc ∈ s.mgr.accountsPro ↔ acc ∈ keys)
    (hothers : ∀ j, j ≠ i → s.pcs j = .out) (hit : ∀ c ∈ it, c ∈ keys)
    (honce : ∀ acc, OrderedKeys.Behind rank keys it acc → log.count (.reset acc) = 1)
    (hnever : ∀ acc, ¬ OrderedKeys.Behind rank keys it acc → log.count (.reset acc) = 0) :
    Resetting keys i (s.loopAt i it) log := by
  have hpc : (s.loopAt i it).pcs i = it.elim .out .reset := State.goTo_pcs_self s i _
  refine
    { table := htable
      others := ?_
      inReset := ?_
      stands := ?_
      once := ?_
      never := ?_ }
  · intro j hj
    exact (State.goTo_pcs_ne s _ hj).trans (hothers j hj)
  · rw [hpc]
    intro n hn
    cases it <;> cases hn
  · rw [hpc]
    intro c hc
    cases it with
    | none => cases hc
    | some d => exact hit c hc
  · intro acc hacc
    rw [hpc, passed_loop] at hacc
    exact honce acc hacc
  · intro acc hacc
    rw [hpc, passed_loop] at hacc
    exact hnever acc hacc

/-- **One step.** -/
theorem resetting_step (h : Resetting keys i s log) (ha : a.updates = true) (hr : a.resets = false)
    (hs : step s a = some s') : Resetting keys i s' (log ++ sections s a) := by
  cases update_cases ha hs with
  | @set j op c hpc hc =>
    rw [sections, hc]
    exact h.set hc
  | begin => cases hr
  | @erase j n hpc =>
    obtain rfl := h.thread_eq (j := j) (by rw [hpc]; exact fun h => nomatch h)
    exact absurd hpc (h.inReset n)
  | @reset j c hpc =>
    obtain rfl := h.thread_eq (j := j) (by rw [hpc]; exact fun h => nomatch h)
    rw [sections, hpc]
    exact h.reset hpc
  | @advance j c hpc =>
    obtain rfl := h.thread_eq (j := j) (by rw [hpc]; exact fun h => nomatch h)
    have hc : c ∈ keys := h.stands c (by rw [hpc]; rfl)
    have hkeys : ∀ k, k ∈ s.mgr.accountsPro.keys ↔ k ∈ keys := h.table
    have hpassed : ∀ acc, OrderedKeys.Behind rank keys (next s.mgr c) acc ↔ Passed keys (s.pcs j) acc := by
      intro acc
      rw [hpc, Passed, ← OrderedKeys.behind_congr hkeys, ← OrderedKeys.behind_congr hkeys]
      exact OrderedKeys.behind_next rank_injective ((hkeys c).mpr hc)
    rw [sections, hpc, List.append_nil]
    apply resetting_loopAt h.table h.others
    · exact fun d hd => (hkeys d).mp (OrderedKeys.mem_of_next hd)
    · exact fun acc hacc => h.once acc ((hpassed acc).mp hacc)
    · exact fun acc hacc => h.never acc (mt (hpassed acc).mpr hacc)

/-- Nobody is in a call, and the reset has not been called. -/
structure Before (keys : List Str) (s : State) (log : List Section) : Prop where
  table : ∀ acc, acc ∈ s.mgr.accountsPro ↔ acc ∈ keys
  out : ∀ j, s.pcs j = .out
  never : ∀ acc, log.count (.reset acc) = 0

theorem before_step (h : Before keys s log) (ha : a.updates = true) (hr : a.resets = false)
    (hs : step s a = some s') : Before keys s' (log ++ sections s a) := by
  cases update_cases ha hs with
  | @set j op c hpc hc =>
    rw [sections, hc]
    exact
      { table := fun acc => mem_update.trans (h.table acc)
        out := h.out
        never := fun acc => (count_set hc acc).trans (h.never acc) }
  | begin => cases hr
  | @erase j n hpc => exact nomatch hpc.symm.trans (h.out j)
  | @reset j c hpc => exact nomatch hpc.symm.trans (h.out j)
  | @advance j c hpc => exact nomatch hpc.symm.trans (h.out j)

/-- The reset is called. -/
theorem Before.begin (h : Before keys s log) (i : ℕ) : Resetting keys i (s.loopAt i (first s.mgr)) log := by
  have hkeys : ∀ k, k ∈ s.mgr.accountsPro.keys ↔ k ∈ keys := h.table
  apply resetting_loopAt h.table
  · exact fun j _ => h.out j
  · exact fun c hc => (hkeys c).mp (OrderedKeys.mem_of_first hc)
  · intro acc hacc
    rw [← OrderedKeys.behind_congr hkeys] at hacc
    exact absurd hacc OrderedKeys.not_behind_first
  · exact fun acc _ => h.never acc

/-! ### The calls return -/

/-- How many steps thread `i` has before it at most. -/
def left (s : State) (i : ℕ) : ℕ :=
  match s.pcs i with
  | .out => 0
  | .erase _ => 1
  | .reset c => 2 * OrderedKeys.ahead rank s.mgr.accountsPro.keys c + 2
  | .advance c => 2 * OrderedKeys.ahead rank s.mgr.accountsPro.keys c + 1

theorem keys_update_perm (m : AccountMgr) (acc : Str) (f : AccountPro → AccountPro) :
    (m.update acc f).accountsPro.keys.Perm m.accountsPro.keys :=
  (List.perm_ext_iff_of_nodup (AList.keys_nodup _) (AList.keys_nodup _)).mpr fun _ => mem_update

/-- A thread that goes on in its call comes nearer to the end of it. -/
theorem left_go (hpc : s.pcs i ≠ .out) : ∃ s', step s (.go i) = some s' ∧ left s' i < left s i := by
  rcases h : s.pcs i with _ | n | c | c
  · exact absurd h hpc
  · refine ⟨s.eraseNode i n, by simp [step, h], ?_⟩
    simp [left, h, State.eraseNode]
  · refine ⟨s.resetOne i c, by simp [step, h], ?_⟩
    have hahead : OrderedKeys.ahead rank (s.mgr.setEverydayTask c dailytaskNotFinished).accountsPro.keys c =
        OrderedKeys.ahead rank s.mgr.accountsPro.keys c :=
      OrderedKeys.ahead_perm (keys_update_perm s.mgr c _)
    simp only [left, h, State.resetOne, State.goTo_pcs_self, State.goTo_mgr, hahead]
    omega
  · refine ⟨s.loopAt i (next s.mgr c), by simp [step, h], ?_⟩
    rcases hd : next s.mgr c with _ | d
    · simp [left, h, State.loopAt]
    · have hlt := OrderedKeys.ahead_next hd
      simp only [left, h, State.loopAt, State.goTo_pcs_self, State.goTo_mgr, Option.elim]
      omega

/-- **Every call returns**: in any state a thread comes out of its call by steps of
its own, the reset too. -/
theorem returns (s : State) (i : ℕ) :
    ∃ s', Trans.Reach step (fun _ a => a = .go i) s s' ∧ s'.pcs i = .out := by
  apply Trans.Reach.eventually (I := fun _ => True) (fun s => left s i) ?_ trivial
  intro s _
  by_cases hpc : s.pcs i = .out
  · exact Or.inl hpc
  · obtain ⟨s', hs, hlt⟩ := left_go hpc
    exact Or.inr ⟨.go i, s', rfl, hs, trivial, hlt⟩

/-! ### The reset among the others -/

/-- The sections of a run that starts with the table of `m`, in order. -/
def sectionsOf (m : AccountMgr) (as : List Act) : List Section := Trans.emits step sections (start m) as

/-- A run with one reset: before it, its call, after it. -/
theorem exists_reset {as : List Act} (h : as.countP Act.resets = 1) :
    ∃ as₁ i as₂, as = as₁ ++ .call i .resetAllEverydayTask :: as₂ ∧ (∀ a ∈ as₁, a.resets = false) ∧
      ∀ a ∈ as₂, a.resets = false := by
  obtain ⟨a, ha, hreset⟩ := List.countP_pos_iff.mp (h ▸ Nat.one_pos)
  obtain ⟨as₁, as₂, rfl⟩ := List.append_of_mem ha
  rw [List.countP_append, List.countP_cons_of_pos hreset] at h
  have h₁ : as₁.countP Act.resets = 0 := by omega
  have h₂ : as₂.countP Act.resets = 0 := by omega
  match a with
  | .call i .resetAllEverydayTask =>
    refine ⟨as₁, i, as₂, rfl, fun a ha => ?_, fun a ha => ?_⟩
    · simpa using List.countP_eq_zero.mp h₁ a ha
    · simpa using List.countP_eq_zero.mp h₂ a ha

/-- **The run with the reset**: in the end it has been everywhere where it comes. -/
theorem resetting_run {as : List Act} (has : ∀ a ∈ as, a.updates = true) (hone : as.countP Act.resets = 1)
    (hrun : Trans.run step (start m) as = some s) :
    ∃ i, Resetting m.accountsPro.keys i s (sectionsOf m as) := by
  obtain ⟨as₁, i, as₂, rfl, hr₁, hr₂⟩ := exists_reset hone
  obtain ⟨s₁, hrun₁, hrun'⟩ := Trans.run_append.mp hrun
  obtain ⟨s₂, hcall, hrun₂⟩ := Trans.run_cons.mp hrun'
  let ok := fun (_ : State) (a : Act) => a.updates = true ∧ a.resets = false
  have halong₁ : Trans.Along step ok (start m) as₁ :=
    Trans.along_of_mem fun a ha => ⟨has a (List.mem_append_left _ ha), hr₁ a ha⟩
  have halong₂ : Trans.Along step ok s₂ as₂ :=
    Trans.along_of_mem fun a ha => ⟨has a (List.mem_append_right _ (List.mem_cons_of_mem _ ha)), hr₂ a ha⟩
  have hstart : Before m.accountsPro.keys (start m) [] := ⟨fun _ => Iff.rfl, fun _ => rfl, fun _ => rfl⟩
  have hbefore : Before m.accountsPro.keys s₁ ([] ++ Trans.emits step sections (start m) as₁) :=
    Trans.emits_invariant (fun _ _ _ _ h ha hs => before_step h ha.1 ha.2 hs) hstart halong₁ hrun₁
  have hbegin : Resetting m.accountsPro.keys i s₂ ([] ++ Trans.emits step sections (start m) as₁) := by
    cases step_cases hcall
    exact hbefore.begin i
  refine ⟨i, ?_⟩
  have hlog : sectionsOf m (as₁ ++ .call i .resetAllEverydayTask :: as₂) =
      [] ++ Trans.emits step sections (start m) as₁ ++ Trans.emits step sections s₂ as₂ := by
    rw [sectionsOf, Trans.emits_append hrun₁, Trans.emits_cons hcall]
    rfl
  rw [hlog]
  exact Trans.emits_invariant (fun _ _ _ _ h ha hs => resetting_step h ha.1 ha.2 hs) hbegin halong₂ hrun₂

/-- What the reset does not write of a record. -/
def unwritten (p : AccountPro) : Int × Finset Str := (p.status, p.votedUrl)

/-- It changes by sections that are not the reset's, and by itself. -/
theorem unwritten_set {op : Op} {c : Section} (hc : setterSection op = some c) {p q : AccountPro}
    (h : unwritten p = unwritten q) : unwritten (c.on acc p) = unwritten (c.on acc q) := by
  obtain ⟨hstatus, hurl⟩ := Prod.mk.inj h
  unfold Section.on
  split_ifs
  · cases op with
    | setVoteStatus | setAccStatus | setEverydayTask => cases hc; simp [Section.change, unwritten, hstatus, hurl]
    | _ => cases hc
  · exact h

theorem map_unwritten_set {op : Op} {c : Section} (hc : setterSection op = some c) :
    ∀ {o o' : Option AccountPro}, o.map unwritten = o'.map unwritten →
      (o.map fun p => c.on acc p).map unwritten = (o'.map fun p => c.on acc p).map unwritten
  | none, none, _ => rfl
  | some _, some _, h => congrArg some (unwritten_set hc (Option.some.inj h))
  | none, some _, h => nomatch h
  | some _, none, h => nomatch h

theorem unwritten_reset (c : Str) (p : AccountPro) : unwritten ((Section.reset c).on acc p) = unwritten p := by
  unfold Section.on
  split_ifs <;> rfl

/-- A table that differs in what the reset writes, and nobody in a call. -/
structure Without (s t : State) : Prop where
  out : ∀ j, t.pcs j = .out
  same : ∀ acc, (s.mgr.accountsPro.lookup acc).map unwritten = (t.mgr.accountsPro.lookup acc).map unwritten

/-- **Without the reset** the run goes as it does with it, and makes the same of what
the reset does not write. -/
theorem run_without {as : List Act} (has : ∀ a ∈ as, a.updates = true)
    (hrun : Trans.run step (start m) as = some s) :
    ∃ t, Trans.run step (start m) (as.filter Act.sets) = some t ∧ Without s t := by
  refine Trans.run_filter (P := fun _ a => Act.updates a = true) ?_ ?_ ⟨fun _ => rfl, fun _ => rfl⟩
    (Trans.along_of_mem has) hrun
  · intro s a s' t hR ha hkeep hs
    cases update_cases ha hs with
    | @set i op c hpc hc =>
      refine ⟨t.change op, step_exclusive (hR.out i) (isShared_of_setter hc), hR.out, fun acc => ?_⟩
      rw [State.change, apply_setter hc, lookup_change, lookup_change]
      exact map_unwritten_set hc (hR.same acc)
    | begin | erase | reset | advance => cases hkeep
  · intro s a s' t hR ha hdrop hs
    refine ⟨hR.out, fun acc => ?_⟩
    rw [record_step ha hs acc, Option.map_map, ← hR.same acc]
    congr 1
    funext p
    cases update_cases ha hs with
    | @set i op c hpc hc => exact absurd hdrop (by simp [Act.sets, hc])
    | begin => rfl
    | erase hpc => simp [sections, hpc]
    | reset hpc =>
      rw [Function.comp_apply, sections, hpc]
      exact unwritten_reset _ p
    | advance hpc => simp [sections, hpc]

/-- When the reset has returned, it has been once at every account. -/
theorem Resetting.count_eq (h : Resetting keys i s log) (hout : s.pcs i = .out) (acc : Str) :
    log.count (.reset acc) = if acc ∈ keys then 1 else 0 := by
  have hpassed : Passed keys (s.pcs i) acc ↔ acc ∈ keys := by
    rw [hout]
    rfl
  split_ifs with hacc
  · exact h.once acc (hpassed.mpr hacc)
  · exact h.never acc (mt hpassed.mp hacc)

/-- An account where the reset has been is finished only if it was set so afterwards. -/
theorem finished_later {as : List Act} (has : ∀ a ∈ as, a.updates = true)
    (hrun : Trans.run step (start m) as = some s) (hreset : .reset acc ∈ sectionsOf m as) {p : AccountPro}
    (hp : s.mgr.accountsPro.lookup acc = some p) (hfinished : p.everydayTaskCompleted = dailytaskFinished) :
    ∃ l₁ l₂, sectionsOf m as = l₁ ++ .reset acc :: l₂ ∧ .setEverydayTask acc dailytaskFinished ∈ l₂ := by
  obtain ⟨l₁, l₂, hlog⟩ := List.append_of_mem hreset
  have hrecord := record_run has hrun acc
  rw [hp] at hrecord
  obtain ⟨p₀, -, hfold⟩ := Option.map_eq_some_iff.mp hrecord.symm
  change (sectionsOf m as).foldl (Section.on acc) p₀ = p at hfold
  rw [← hfold, hlog] at hfinished
  exact ⟨l₁, l₂, hlog, set_after_reset hfinished⟩

/-- **The reset is not lost.** One reset with any calls of the setters between its
sections, from any table: when all have returned, every account of the table has been
reset once; an account is finished only if it was set so after that; and the status
and the voted urls are those of the run without the reset. -/
theorem reset_kept (m : AccountMgr) {as : List Act} (has : ∀ a ∈ as, a.updates = true)
    (hone : as.countP Act.resets = 1) (hrun : Trans.run step (start m) as = some s) (hout : ∀ j, s.pcs j = .out) :
    (∀ acc, (sectionsOf m as).count (.reset acc) = if acc ∈ m.accountsPro then 1 else 0) ∧
    (∀ acc p, s.mgr.accountsPro.lookup acc = some p → p.everydayTaskCompleted = dailytaskFinished →
      ∃ l₁ l₂, sectionsOf m as = l₁ ++ .reset acc :: l₂ ∧ .setEverydayTask acc dailytaskFinished ∈ l₂) ∧
    ∃ t, Trans.run step (start m) (as.filter Act.sets) = some t ∧ (∀ j, t.pcs j = .out) ∧
      ∀ acc, (s.mgr.accountsPro.lookup acc).map (fun p => (p.status, p.votedUrl)) =
        (t.mgr.accountsPro.lookup acc).map fun p => (p.status, p.votedUrl) := by
  obtain ⟨i, hreset⟩ := resetting_run has hone hrun
  have hcount : ∀ acc, (sectionsOf m as).count (.reset acc) = if acc ∈ m.accountsPro then 1 else 0 := by
    intro acc
    rw [hreset.count_eq (hout i)]
    exact if_congr Iff.rfl rfl rfl
  refine ⟨hcount, ?_, ?_⟩
  · intro acc p hp hfinished
    have hacc : acc ∈ m.accountsPro := by
      apply (hreset.table acc).mp
      rw [← AList.lookup_isSome, hp]
      rfl
    have hpos : 0 < (sectionsOf m as).count (.reset acc) := by
      rw [hcount, if_pos hacc]
      exact Nat.one_pos
    exact finished_later has hrun (List.count_pos_iff.mp hpos) hp hfinished
  · obtain ⟨t, ht, hwithout⟩ := run_without has hrun
    exact ⟨t, ht, hwithout.out, hwithout.same⟩

/-- Two accounts. -/
def twoAccounts : AccountMgr := loadData [(Str.of "a", default), (Str.of "b", default)]

/-- Both are finished while the reset is on its way, the first one behind it. -/
def between : List Act :=
  [.call 0 .resetAllEverydayTask, .go 0, .call 1 (.op (.setEverydayTask (Str.of "a") dailytaskFinished)),
    .call 1 (.op (.setEverydayTask (Str.of "b") dailytaskFinished)), .go 0, .go 0,
    .call 2 (.op (.setVoteStatus (Str.of "b") (Str.of "u"))), .go 0]

def afterBetween : State := (Trans.run step (start twoAccounts) between).get (by decide)

theorem reset_kept_between : (afterBetween.mgr.accountsPro.at (Str.of "a")).everydayTaskCompleted = dailytaskFinished ∧
    ∃ l₁ l₂, sectionsOf twoAccounts between = l₁ ++ .reset (Str.of "a") :: l₂ ∧
      .setEverydayTask (Str.of "a") dailytaskFinished ∈ l₂ := by
  have hfinished : (afterBetween.mgr.accountsPro.at (Str.of "a")).everydayTaskCompleted = dailytaskFinished := by
    decide
  refine ⟨hfinished, ?_⟩
  have hout : ∀ j, afterBetween.pcs j = .out
    | 0 => by decide
    | _ + 1 => rfl
  exact (reset_kept twoAccounts (by decide) (by decide) (Option.some_get _).symm hout).2.1 (Str.of "a")
    (afterBetween.mgr.accountsPro.at (Str.of "a")) (by decide) hfinished

end AccountCalls
end ScheduleCenter
