/-
# No work is repeated

An account is tested when it is drawn and worked on later, after any number
of other sessions' steps. Between the two nobody else is concerned with it
(`Server.Apart`), so what the draw found still holds when the command is sent
(`ready_step`); and what a reply records stays recorded: voted urls and
`ABNORMAL` for good, `FINISHED` until `reset_all_everyday_task` comes to the
account (`lookup_step`). So in every run from distinct rows in which no draw
chooses a node that another one has chosen and not erased, no command is sent
for what is recorded as done (`never_again`). Where two sessions come by one
account, by such a draw or by two rows of one name, it is
(`done_again`).

Key definitions: `Kind.recorded`, `Kind.mayWork`, `Server.Ready`, `Server.records`,
`Server.sends`, `Server.resets`.
Key theorems: `Server.lookup_step`, `Server.ready_step`, `Server.recorded_kept`, `Server.never_again`,
`Server.done_again`.
-/
import ScheduleCenter.Ownership
import ScheduleCenter.VoteTask

namespace ScheduleCenter

/-- The account waits for its command or for the record of the reply. -/
def Pc.pending : Pc → Option Str
  | .count _ | .putBack _ => none
  | pc => pc.concerns

/-- What a session's setter makes of the account's record. -/
def Kind.recorded : Kind → Verdict → AccountPro → AccountPro
  | .vote _ url, .success, p => { p with votedUrl := insert url p.votedUrl }
  | .daily, .success, p => { p with everydayTaskCompleted := dailytaskFinished }
  | _, .fatal, p => { p with status := statusAbnormal }
  | _, .other, p => p

/-- The test a draw makes, read off the account's record. -/
def Kind.mayWork : Kind → AccountPro → Prop
  | .vote _ url, p => url ∉ p.votedUrl ∧ p.status ≠ statusAbnormal
  | .daily, p => p.everydayTaskCompleted ≠ dailytaskFinished ∧ p.status ≠ statusAbnormal

namespace AccountMgr

/-! ### The table -/

theorem lookup_recordReply (m : AccountMgr) (kind : Kind) (acc acc' : Str) (v : Verdict) :
    (m.recordReply kind acc v).accountsPro.lookup acc' =
      if acc' = acc then (m.accountsPro.lookup acc).map (kind.recorded v) else m.accountsPro.lookup acc' := by
  cases v with
  | success => cases kind <;> exact lookup_update m acc acc' _
  | fatal => cases kind <;> exact lookup_update m acc acc' _
  | other =>
    have hid : kind.recorded .other = id := by cases kind <;> rfl
    rw [hid, Option.map_id]
    split
    · subst_vars; rfl
    · rfl

/-- A read through `operator[]` changes no record that is there. -/
theorem lookup_touch {m : AccountsPro} {acc : Str} {p : AccountPro} (h : m.lookup acc = some p) (acc' : Str) :
    (m.touch acc').lookup acc = some p := by
  unfold AccountsPro.touch
  split
  · exact h
  · rename_i hacc
    rw [AList.lookup_insert_ne, h]
    rintro rfl
    exact hacc (AList.lookup_isSome.mp (by simp [h]))

theorem mem_touch (m : AccountsPro) (acc : Str) : acc ∈ m.touch acc := by
  unfold AccountsPro.touch
  split
  · assumption
  · exact (AList.mem_insert _).mpr (Or.inl rfl)

theorem lookup_scanDaily {acc : Str} {p : AccountPro} : ∀ (l : List Node) {m : AccountsPro},
    m.lookup acc = some p → (scanDaily m l).2.lookup acc = some p
  | [], _, h => h
  | n :: l, m, h => by
    unfold scanDaily
    split
    · exact lookup_scanDaily l (lookup_touch h _)
    · exact lookup_touch h _

/-- The account the daily draw stops at is in the table. -/
theorem mem_scanDaily {n : Node} : ∀ {l : List Node} {m : AccountsPro},
    (scanDaily m l).1 = some n → n.acc ∈ (scanDaily m l).2
  | [], _, h => by cases h
  | n' :: l, m, h => by
    unfold scanDaily at h ⊢
    split
    · rename_i hskip
      rw [if_pos hskip] at h
      exact mem_scanDaily h
    · rename_i hstop
      rw [if_neg hstop] at h
      obtain rfl := Option.some.inj h
      exact mem_touch _ _

/-- A draw leaves the records that are there. -/
theorem lookup_pick {m : AccountMgr} {acc : Str} {p : AccountPro} (h : m.accountsPro.lookup acc = some p)
    (kind : Kind) : (m.pick kind).2.accountsPro.lookup acc = some p := by
  cases kind with
  | vote k url => exact h
  | daily => exact lookup_scanDaily m.idle h

theorem at_of_lookup {m : AccountsPro} {acc : Str} {p : AccountPro} (h : m.lookup acc = some p) : m.at acc = p := by
  simp [AccountsPro.at, h]

/-- What a draw stops at may be worked on. -/
theorem pick_mayWork {m : AccountMgr} {kind : Kind} {n : Node} (h : (m.pick kind).1 = some n) :
    ∃ p, (m.pick kind).2.accountsPro.lookup n.acc = some p ∧ kind.mayWork p := by
  cases kind with
  | vote k url =>
    have h : (m.idle.find? fun n => m.votable url n.acc) = some n := h
    have hv := List.find?_some h
    unfold votable getVoteStatus at hv
    cases hp : m.accountsPro.lookup n.acc with
    | none => simp [hp] at hv
    | some p =>
      refine ⟨p, hp, ?_⟩
      simp only [hp, at_of_lookup hp] at hv
      by_cases hu : url ∈ p.votedUrl
      · simp [hu] at hv
      · exact ⟨hu, by simpa [hu, statusVoted, statusNotVote] using hv⟩
  | daily =>
    have hmem : n.acc ∈ m.pickNotDaily.2.accountsPro := mem_scanDaily (l := m.idle) h
    obtain ⟨p, hp⟩ := Option.isSome_iff_exists.mp (AList.lookup_isSome.mpr hmem)
    refine ⟨p, hp, ?_⟩
    have h : m.pickNotDaily.1 = some n := h
    rw [pickNotDaily_fst] at h
    have hd := List.find?_some h
    rw [dailyable, ← pickNotDaily_at, at_of_lookup hp] at hd
    simpa [Kind.mayWork] using hd

end AccountMgr

namespace Server

/-- The step runs the setter for the verdict `v` on `acc`. -/
def records (s : Server) (a : Act) (kind : Kind) (acc : Str) (v : Verdict) : Prop :=
  ∃ i t, a = .thread i .go ∧ s.threads[i]? = some t ∧ t.pc = .record acc v ∧ t.kind = kind

/-- The step sends a command of this kind for `acc`. -/
def sends (s : Server) (a : Act) (kind : Kind) (acc : Str) : Prop :=
  ∃ i t, a = .thread i .ok ∧ s.threads[i]? = some t ∧ t.pc = .write acc ∧ t.kind = kind

/-- The step is the section of `reset_all_everyday_task` that resets `acc`. -/
def resets (s : Server) (a : Act) (acc : Str) : Prop := a = .main ∧ ∃ todo, s.main = .resetting (acc :: todo)

/-- `reset_all_everyday_task`, on one record. -/
def resetPro (p : AccountPro) : AccountPro := { p with everydayTaskCompleted := dailytaskNotFinished }

/-! ### What a step does to a record -/

section Lookup

variable {s s' s₁ : Server} {a : Act} {acc : Str} {p : AccountPro} {t : Thread} {inp : Input} {pc : Pc} {b : Bool}

theorem SessionCase.lookup (hc : SessionCase s t t.pc inp pc b s₁) (hp : s.accounts.accountsPro.lookup acc = some p) :
    ∃ p', s₁.accounts.accountsPro.lookup acc = some p' ∧
      (p' = p ∨ ∃ v, t.pc = .record acc v ∧ inp = .go ∧ p' = t.kind.recorded v p) := by
  have hrec : ∀ acc' v, ∃ p', (s.accounts.recordReply t.kind acc' v).accountsPro.lookup acc = some p' ∧
      (p' = p ∨ acc' = acc ∧ p' = t.kind.recorded v p) := by
    intro acc' v
    rw [AccountMgr.lookup_recordReply]
    by_cases hacc : acc = acc'
    · subst hacc
      exact ⟨t.kind.recorded v p, by simp [hp], Or.inr ⟨rfl, rfl⟩⟩
    · exact ⟨p, by rw [if_neg hacc]; exact hp, Or.inl rfl⟩
  generalize hpc : t.pc = pc₀ at hc
  cases hc
  case pick n hn => exact ⟨p, AccountMgr.lookup_pick hp t.kind, Or.inl rfl⟩
  case empty hn => exact ⟨p, AccountMgr.lookup_pick hp t.kind, Or.inl rfl⟩
  case recordVote acc' hk =>
    obtain ⟨p', hp', h⟩ := hrec acc' .success
    refine ⟨p', hp', h.imp_right ?_⟩
    rintro ⟨rfl, rfl⟩
    exact ⟨.success, rfl, rfl, rfl⟩
  case record acc' v hv =>
    obtain ⟨p', hp', h⟩ := hrec acc' v
    refine ⟨p', hp', h.imp_right ?_⟩
    rintro ⟨rfl, rfl⟩
    exact ⟨v, rfl, rfl, rfl⟩
  all_goals exact ⟨p, hp, Or.inl rfl⟩

/-- A record that is there stays there; it changes where a session records
what a reply says, and where it is reset. -/
theorem lookup_step (h : s.step a = some s') (hp : s.accounts.accountsPro.lookup acc = some p) :
    ∃ p', s'.accounts.accountsPro.lookup acc = some p' ∧
      (p' = p ∨ (∃ kind v, s.records a kind acc v ∧ p' = kind.recorded v p) ∨ s.resets a acc ∧ p' = resetPro p) := by
  cases (step_cases h).2
  case thread i inp t pc b s₁ ht hc =>
    obtain ⟨p', hp', h⟩ := hc.lookup hp
    refine ⟨p', hp', h.imp_right fun ⟨v, hpc, hinp, hrec⟩ => Or.inl ⟨t.kind, v, ⟨i, t, ?_, ht, hpc, rfl⟩, hrec⟩⟩
    rw [hinp]
  case reset acc' todo hm =>
    have hl := s.accounts.lookup_update acc' acc resetPro
    by_cases hacc : acc = acc'
    · subst hacc
      rw [if_pos rfl, hp] at hl
      exact ⟨resetPro p, hl, Or.inr (Or.inr ⟨⟨rfl, todo, hm⟩, rfl⟩)⟩
    · rw [if_neg hacc, hp] at hl
      exact ⟨p, hl, Or.inl rfl⟩
  all_goals exact ⟨p, hp, Or.inl rfl⟩

end Lookup

/-- What is recorded of an account stays so if the setters, and the resets that
are made, keep it. -/
theorem recorded_kept {P : AccountPro → Prop} {ok : Server → Act → Prop} {acc : Str}
    (hP : ∀ kind v p, P p → P (Kind.recorded kind v p))
    (hreset : ∀ s a, ok s a → s.resets a acc → ∀ p, P p → P (resetPro p)) {s s' : Server}
    (hr : Trans.Reach step ok s s') (h : ∃ p, s.accounts.accountsPro.lookup acc = some p ∧ P p) :
    ∃ p, s'.accounts.accountsPro.lookup acc = some p ∧ P p := by
  refine hr.invariant (I := fun s => ∃ p, s.accounts.accountsPro.lookup acc = some p ∧ P p) h
    fun s a s' h hok hs => ?_
  obtain ⟨p, hp, hPp⟩ := h
  obtain ⟨p', hp', rfl | ⟨kind, v, -, rfl⟩ | ⟨hres, rfl⟩⟩ := lookup_step hs hp
  · exact ⟨p', hp', hPp⟩
  · exact ⟨_, hp', hP kind v p hPp⟩
  · exact ⟨_, hp', hreset s a hok hres p hPp⟩

/-! ### From the draw to the command -/

/-- The account the thread is about to work on may be worked on. -/
def Ready (s : Server) (t : Thread) : Prop :=
  ∀ acc, t.pc.pending = some acc → ∃ p, s.accounts.accountsPro.lookup acc = some p ∧ t.kind.mayWork p

theorem mayWork_resetPro {kind : Kind} {p : AccountPro} (h : kind.mayWork p) : kind.mayWork (resetPro p) := by
  cases kind with
  | vote k url => exact h
  | daily => exact ⟨by simp [resetPro, dailytaskNotFinished, dailytaskFinished], h.2⟩

theorem concerns_of_pending {pc : Pc} {acc : Str} (h : pc.pending = some acc) : pc.concerns = some acc := by
  cases pc <;> first | exact h | cases h

/-- The moving thread: its account is the one it was concerned with, or one
its draw has just found. -/
theorem SessionCase.pending {s s₁ : Server} {t : Thread} {inp : Input} {pc : Pc} {b : Bool} {acc : Str}
    (hc : SessionCase s t t.pc inp pc b s₁) (h : pc.pending = some acc) :
    (t.pc.pending = some acc ∧ ∀ acc v, t.pc ≠ .record acc v) ∨
      ∃ p, s₁.accounts.accountsPro.lookup acc = some p ∧ t.kind.mayWork p := by
  generalize hpc : t.pc = pc₀ at hc
  cases hc
  case pick n hn =>
    obtain rfl := Option.some.inj h
    exact Or.inr (AccountMgr.pick_mayWork hn)
  case letOn acc' k hk hw hpcs =>
    refine Or.inl ⟨?_, ?_⟩ <;> rcases hpcs with rfl | rfl <;> first | exact h | simp
  case hold acc' k hk hw hpcs =>
    refine Or.inl ⟨?_, ?_⟩ <;> rcases hpcs with rfl | rfl <;> first | exact h | simp
  all_goals
    first
      | exact Or.inl ⟨h, by simp⟩
      | cases h

theorem SessionCase.ready {s s₁ : Server} {t : Thread} {inp : Input} {pc : Pc} {b : Bool}
    (hc : SessionCase s t t.pc inp pc b s₁) (h : s.Ready t) : s₁.Ready { t with pc := pc, sock := b } := by
  intro acc hacc
  rcases hc.pending hacc with ⟨hold, hrec⟩ | hnew
  · obtain ⟨p, hp, hw⟩ := h acc hold
    obtain ⟨p', hp', rfl | ⟨v, hpc, -⟩⟩ := hc.lookup hp
    · exact ⟨p', hp', hw⟩
    · exact absurd hpc (hrec acc v)
  · exact hnew

theorem ready_thread {s s₁ : Server} {i : ℕ} {t : Thread} {inp : Input} {pc : Pc} {b : Bool}
    (hR : ∀ t ∈ s.threads, s.Ready t) (hA : Apart s) (ht : s.threads[i]? = some t)
    (hc : SessionCase s t t.pc inp pc b s₁) (u : Thread) (hu : u ∈ s.threads.set i { t with pc := pc, sock := b }) :
    s₁.Ready u := by
  obtain ⟨j, hj⟩ := List.mem_iff_getElem?.mp hu
  rcases Counting.getElem?_set_cases hj with ⟨rfl, rfl⟩ | ⟨hji, hj⟩
  · exact hc.ready (hR t (List.mem_of_getElem? ht))
  · intro acc hacc
    obtain ⟨p, hp, hw⟩ := hR u (List.mem_of_getElem? hj) acc hacc
    obtain ⟨p', hp', rfl | ⟨v, hpc, -⟩⟩ := hc.lookup hp
    · exact ⟨p', hp', hw⟩
    · -- the moving thread would be concerned with the same account
      exact absurd (hA j i u t acc hj ht (concerns_of_pending hacc) (by rw [hpc]; rfl)) hji

theorem ready_of_init {s : Server} {t : Thread} (h : t.pc = .init) : s.Ready t := by
  intro acc hacc
  rw [h] at hacc
  cases hacc

/-- What one step keeps: everybody's account may still be worked on. -/
theorem ready_step {s s' : Server} {a : Act} (hR : ∀ t ∈ s.threads, s.Ready t) (hA : Apart s)
    (h : s.step a = some s') : ∀ t ∈ s'.threads, s'.Ready t := by
  cases (step_cases h).2
  case thread i inp t pc b s₁ ht hc =>
    intro u hu
    have hu' : s₁.Ready u := ready_thread hR hA ht hc u hu
    exact hu'
  case restart ses t hm ht =>
    intro u hu
    rcases List.mem_append.mp hu with hu | hu
    · exact hR u hu
    · rw [List.mem_singleton.mp hu]
      exact ready_of_init rfl
  case dailyTask =>
    intro u hu
    rcases mem_mapIdx_spawn hu with hu | ⟨-, hpc, -⟩
    · exact hR u hu
    · exact ready_of_init hpc
  case voteSpawn =>
    intro u hu
    rcases mem_mapIdx_spawn hu with hu | ⟨-, hpc, -⟩
    · exact hR u hu
    · exact ready_of_init hpc
  case reset acc' todo hm =>
    intro u hu acc hacc
    obtain ⟨p, hp, hw⟩ := hR u hu acc hacc
    obtain ⟨p', hp', rfl | ⟨kind, v, ⟨i, t, ha, -⟩, -⟩ | ⟨-, rfl⟩⟩ := lookup_step h hp
    · exact ⟨p', hp', hw⟩
    · cases ha
    · exact ⟨_, hp', mayWork_resetPro hw⟩
  all_goals exact hR

theorem ready_of_reach {rows : List (Str × AccountPro)} {ips : List Str} (hrows : (rows.map (·.1)).Nodup)
    {s : Server} (hr : Trans.Reach step (fun s a => s.drawsApart a = true) (boot rows ips) s) :
    ∀ t ∈ s.threads, s.Ready t := by
  induction hr with
  | refl => simp [boot]
  | tail hr ha hs ih => exact ready_step ih (concerns_apart hrows hr) hs

/-! ### Never again -/

/-- A command goes out only for an account that may be worked on. -/
theorem mayWork_of_sends {s : Server} {a : Act} {kind : Kind} {acc : Str} (hR : ∀ t ∈ s.threads, s.Ready t)
    (h : s.sends a kind acc) : ∃ p, s.accounts.accountsPro.lookup acc = some p ∧ kind.mayWork p := by
  obtain ⟨i, t, -, ht, hpc, rfl⟩ := h
  exact hR t (List.mem_of_getElem? ht) acc (by rw [hpc]; rfl)

theorem recorded_of_records {s s' : Server} {a : Act} {kind : Kind} {acc : Str} {v : Verdict}
    (hR : ∀ t ∈ s.threads, s.Ready t) (h : s.records a kind acc v) (hs : s.step a = some s') :
    ∃ p, s'.accounts.accountsPro.lookup acc = some (kind.recorded v p) := by
  obtain ⟨i, t, rfl, ht, hpc, rfl⟩ := h
  obtain ⟨p, hp, -⟩ := hR t (List.mem_of_getElem? ht) acc (by rw [hpc]; rfl)
  obtain ⟨u, pc, b, s₁, hu, hc, rfl⟩ := step_thread hs
  rw [ht] at hu
  obtain rfl := Option.some.inj hu
  have hl := s.accounts.lookup_recordReply t.kind acc acc v
  rw [if_pos rfl, hp] at hl
  generalize hpc' : t.pc = pc₀ at hc
  rw [hpc] at hpc'
  subst hpc'
  cases hc
  case recordVote => exact ⟨p, hl⟩
  case record => exact ⟨p, hl⟩
  case letOn hpcs => simp at hpcs
  case hold hpcs => simp at hpcs

/-- What is recorded and excludes the work excludes the command. -/
theorem not_sends_of_recorded {s : Server} {b : Act} {kind : Kind} {acc : Str} {P : AccountPro → Prop}
    (hR : ∀ t ∈ s.threads, s.Ready t) (h : ∃ p, s.accounts.accountsPro.lookup acc = some p ∧ P p)
    (hP : ∀ p, P p → ¬ kind.mayWork p) : ¬ s.sends b kind acc := by
  intro hsend
  obtain ⟨p, hp, hPp⟩ := h
  obtain ⟨p', hp', hw⟩ := mayWork_of_sends hR hsend
  rw [hp] at hp'
  obtain rfl := Option.some.inj hp'
  exact hP p hPp hw

/-- **No repeated work.** In every run from distinct rows in which no draw
chooses a node that another one has chosen and not yet erased: once a vote for
`acc` and `url` is recorded no vote command for them is sent, once `acc` is
recorded as abnormal no command at all, and once its daily task is recorded no
daily command until a reset comes to `acc`. -/
theorem never_again {rows : List (Str × AccountPro)} {ips : List Str} (hrows : (rows.map (·.1)).Nodup)
    {s₁ s₂ s₃ : Server} {a b : Act} {acc : Str}
    (hr₁ : Trans.Reach step (fun s a => s.drawsApart a = true) (boot rows ips) s₁)
    (ha : s₁.drawsApart a = true) (hs : s₁.step a = some s₂)
    (hr₂ : Trans.Reach step (fun s a => s.drawsApart a = true) s₂ s₃) :
    (∀ k k' url, s₁.records a (.vote k url) acc .success → ¬ s₃.sends b (.vote k' url) acc) ∧
    (∀ kind kind', s₁.records a kind acc .fatal → ¬ s₃.sends b kind' acc) ∧
    (s₁.records a .daily acc .success →
      Trans.Reach step (fun s a => s.drawsApart a = true ∧ ¬ s.resets a acc) s₂ s₃ → ¬ s₃.sends b .daily acc) := by
  have hR₁ := ready_of_reach hrows hr₁
  have hR₃ := ready_of_reach hrows ((hr₁.tail ha hs).trans hr₂)
  refine ⟨fun k k' url hrec => ?_, fun kind kind' hrec => ?_, fun hrec hr => ?_⟩
  · obtain ⟨p, hp⟩ := recorded_of_records hR₁ hrec hs
    have hvoted := recorded_kept (P := fun p => url ∈ p.votedUrl)
      (fun kind v p hmem => by cases kind <;> cases v <;> simp_all [Kind.recorded]) (fun _ _ _ _ p hmem => hmem) hr₂
      ⟨_, hp, Finset.mem_insert_self url p.votedUrl⟩
    exact not_sends_of_recorded hR₃ hvoted fun p hmem hw => hw.1 hmem
  · obtain ⟨p, hp⟩ := recorded_of_records hR₁ hrec hs
    have habnormal := recorded_kept (P := fun p => p.status = statusAbnormal)
      (fun kind v p hab => by cases kind <;> cases v <;> simp_all [Kind.recorded]) (fun _ _ _ _ p hab => hab) hr₂
      ⟨_, hp, by cases kind <;> rfl⟩
    refine not_sends_of_recorded hR₃ habnormal fun p hab hw => ?_
    cases kind' with
    | vote k url => exact hw.2 hab
    | daily => exact hw.2 hab
  · obtain ⟨p, hp⟩ := recorded_of_records hR₁ hrec hs
    have hfinished := recorded_kept (P := fun p => p.everydayTaskCompleted = dailytaskFinished)
      (fun kind v p hfin => by cases kind <;> cases v <;> simp_all [Kind.recorded])
      (fun _ _ hok hres => absurd hres hok.2) hr ⟨_, hp, rfl⟩
    exact not_sends_of_recorded hR₃ hfinished fun p hfin hw => hw.1 hfin

/-! ### One account, one session; one account, two sessions -/

/-- One phone, one account, a vote for it answered with success: next the record. -/
def onceSent : Server :=
  (Trans.run (Trans.guarded step fun s a => s.drawsApart a = true) (boot [(Str.of "a", default)] [])
    (connects [Str.of "p"] ++ [.voteAdmit 1 (Str.of "u"), .voteSpawn] ++
      moves 0 [.go, .go, .go, .ok, .go, .go, .go, .go, .go, .ok, .reply (.verdict .success)])).get (by decide)

def onceRecorded : Server := (onceSent.step (.thread 0 .go)).get (by decide)

/-- The account is put back and the session draws again. -/
def onceDone : Server :=
  (Trans.run (Trans.guarded step fun s a => s.drawsApart a = true) onceRecorded
    (moves 0 [.go, .go, .go, .go])).get (by decide)

theorem never_again_once : ¬ onceDone.sends (.thread 0 .ok) (.vote 0 (Str.of "u")) (Str.of "a") :=
  (never_again (by decide) (Trans.Reach.of_guarded (Option.some_get _).symm) (by decide) (Option.some_get _).symm
    (Trans.Reach.of_guarded (Option.some_get _).symm)).1 0 0 (Str.of "u")
      ⟨0, ⟨0, Str.of "p", .vote 0 (Str.of "u"), true, .record (Str.of "a") .success⟩, rfl, by decide, rfl, rfl⟩

/-- No vote command goes out for a recorded vote. -/
def VotesOnce (ok : Server → Act → Prop) (rows : List (Str × AccountPro)) : Prop :=
  ∀ (ips : List Str) (s₁ s₂ s₃ : Server) (a b : Act) (acc url : Str) (k k' : ℕ),
    Trans.Reach step ok (boot rows ips) s₁ → s₁.step a = some s₂ → Trans.Reach step ok s₂ s₃ →
    (s₃.step b).isSome → s₁.records a (.vote k url) acc .success → ¬ s₃.sends b (.vote k' url) acc

/-- Two phones and a task with target one; both sessions draw before either
sends, the first one's vote is answered with success: next the record. -/
def twiceActs : List Act :=
  connects [Str.of "p", Str.of "q"] ++ [.voteAdmit 1 (Str.of "u"), .voteSpawn] ++
    moves 0 [.go, .go, .go, .ok, .go] ++ moves 1 [.go, .go, .go, .ok, .go] ++ moves 0 [.go, .go, .go] ++
    moves 1 [.go, .go, .go, .go] ++ moves 0 [.go, .ok, .reply (.verdict .success)]

def twiceSent : Server :=
  (Trans.run step (boot [(Str.of "a", default)] []) twiceActs).get (by decide)

def twiceRecorded : Server := (twiceSent.step (.thread 0 .go)).get (by decide)

/-- Two rows of one name: the second session chooses its node after the first
has erased the other. -/
def rowsActs : List Act :=
  connects [Str.of "p", Str.of "q"] ++ [.voteAdmit 1 (Str.of "u"), .voteSpawn] ++
    moves 0 [.go, .go, .go, .ok, .go, .go, .go, .go] ++ moves 1 [.go, .go, .go, .ok, .go, .go, .go, .go, .go] ++
    moves 0 [.go, .ok, .reply (.verdict .success)]

def rowsSent : Server :=
  (Trans.run (Trans.guarded step fun s a => s.drawsApart a = true)
    (boot [(Str.of "a", default), (Str.of "a", default)] []) rowsActs).get (by decide)

def rowsRecorded : Server := (rowsSent.step (.thread 0 .go)).get (by decide)

/-- Neither condition can be left out. -/
theorem done_again :
    (¬ ∀ rows : List (Str × AccountPro), (rows.map (·.1)).Nodup → VotesOnce (fun _ _ => True) rows) ∧
    ¬ ∀ rows : List (Str × AccountPro), VotesOnce (fun s a => s.drawsApart a = true) rows := by
  constructor
  · intro h
    have hrun : Trans.run step _ twiceActs = some twiceSent := (Option.some_get _).symm
    have hstep : twiceSent.step (.thread 0 .go) = some twiceRecorded := (Option.some_get _).symm
    exact h _ (by decide) [] _ _ _ _ (.thread 1 .ok) (Str.of "a") (Str.of "u") 0 0 (Trans.Reach.of_run hrun) hstep
      .refl (by decide)
      ⟨0, ⟨0, Str.of "q", .vote 0 (Str.of "u"), true, .record (Str.of "a") .success⟩, rfl, by decide, rfl, rfl⟩
      ⟨1, ⟨1, Str.of "p", .vote 0 (Str.of "u"), true, .write (Str.of "a")⟩, rfl, by decide, rfl, rfl⟩
  · intro h
    have hrun : Trans.run (Trans.guarded step _) _ rowsActs = some rowsSent := (Option.some_get _).symm
    have hstep : rowsSent.step (.thread 0 .go) = some rowsRecorded := (Option.some_get _).symm
    exact h _ [] _ _ _ _ (.thread 1 .ok) (Str.of "a") (Str.of "u") 0 0 (Trans.Reach.of_guarded hrun) hstep
      .refl (by decide)
      ⟨0, ⟨0, Str.of "q", .vote 0 (Str.of "u"), true, .record (Str.of "a") .success⟩, rfl, by decide, rfl, rfl⟩
      ⟨1, ⟨1, Str.of "p", .vote 0 (Str.of "u"), true, .write (Str.of "a")⟩, rfl, by decide, rfl, rfl⟩

end Server

end ScheduleCenter
