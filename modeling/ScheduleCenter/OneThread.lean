/-
# One thread inside `start`

`do_task` creates one thread for a session, bound to `a_session::start`, and
the thread holds the session's only owning pointer. `on_restart_lua_end` calls
`start` again, on the main thread, and by then the created thread has been
inside: it is there still, its wait over as the callback cancels the timer, or
it has returned and the session is gone.

So a run keeps to one thread inside `start` for each session, and to none after
the created one has returned, if and only if it never re-enters `start` that
way (`oneThread_iff`).

Key definitions: `Server.InStart`, `Server.OneThread`, `Server.Reenters`, `Server.Entered`.
Key theorems: `Server.enteredInv_step`, `Server.oneThread_step`, `Server.oneThread_iff`,
`Server.two_threads`.
-/
import ScheduleCenter.Steps
import ScheduleCenter.Base.Counting

namespace ScheduleCenter
namespace Server

/-- Thread `i` is inside `start` of session `ses`. The thread created for the
session is inside from its first step on, a re-entry from the call on. -/
def InStart (s : Server) (i ses : ℕ) : Prop :=
  ∃ t, s.threads[i]? = some t ∧ t.ses = ses ∧ t.pc ≠ .done ∧ (t.pc = .init → i ≠ ses)

/-- No two threads are inside `start` of one session, and none is when the
thread created for it has returned. -/
structure OneThread (s : Server) : Prop where
  one : ∀ i j ses, s.InStart i ses → s.InStart j ses → i = j
  returned : ∀ ses (t : Thread), s.threads[ses]? = some t → t.ses = ses → t.pc = .done → ∀ i, ¬ s.InStart i ses

/-- `on_restart_lua_end` calls `start`. -/
def Reenters (s : Server) : Act → Bool
  | .main =>
    match s.main with
    | .restart _ => true
    | _ => false
  | _ => false

/-! ### Who has been inside -/

/-- The thread created for the session has been inside `start`. -/
def Entered (s : Server) (ses : ℕ) : Prop := ∃ t, s.threads[ses]? = some t ∧ t.ses = ses ∧ t.pc ≠ .init

/-- Who is concerned with a session besides the thread created for it finds
that this thread has been inside. -/
structure EnteredInv (s : Server) : Prop where
  threads : ∀ i (t : Thread), s.threads[i]? = some t → t.ses = i ∨ s.Entered t.ses
  slots : ∀ ses ∈ s.slots, s.Entered ses
  main : ∀ ses, s.main = .restart ses → s.Entered ses

section Step

variable {s s' s₁ : Server} {t : Thread} {pc pc' : Pc} {inp : Input} {b : Bool} {i : ℕ} {a : Act}

theorem SessionCase.ne_init (h : SessionCase s t pc inp pc' b s₁) : pc' ≠ .init := by
  cases h <;> simp

/-- A session step connects the slot of its own session at most. -/
theorem SessionCase.mem_slots (h : SessionCase s t pc inp pc' b s₁) {ses : ℕ} (hses : ses ∈ s₁.slots) :
    ses ∈ s.slots ∨ ses = t.ses := by
  cases h
  case bind =>
    simp only [withSlots_slots] at hses
    split at hses
    · exact Or.inl hses
    · exact (List.mem_cons.mp hses).symm
  case wake slots hslots =>
    rcases hslots with ⟨-, rfl⟩ | ⟨-, rfl⟩
    · exact Or.inl (List.mem_of_mem_erase hses)
    · exact Or.inl hses
  case wakeInLoop slots hslots =>
    rcases hslots with ⟨-, rfl⟩ | ⟨-, rfl⟩
    · exact Or.inl (List.mem_of_mem_erase hses)
    · exact Or.inl hses
  all_goals exact Or.inl hses

/-- A thread that moves stays in its session, and is past its first step. -/
theorem Entered.set {ses : ℕ} (h : s.Entered ses) (ht : s.threads[i]? = some t) (hpc : pc ≠ .init) (b : Bool) :
    Entered { s₁ with threads := s.threads.set i { t with pc := pc, sock := b } } ses := by
  obtain ⟨u, hu, hses, hinit⟩ := h
  by_cases hi : ses = i
  · rw [hi, ht, Option.some.injEq] at hu
    obtain ⟨hlt, -⟩ := List.getElem?_eq_some_iff.mp ht
    refine ⟨{ t with pc := pc, sock := b }, ?_, by rw [← hses, hu], hpc⟩
    rw [hi]
    exact List.getElem?_set_self hlt
  · exact ⟨u, by rw [← hu]; exact List.getElem?_set_ne (Ne.symm hi), hses, hinit⟩

theorem Entered.append {ses : ℕ} (h : s.Entered ses) {l : List Thread} (hl : s'.threads = s.threads ++ l) :
    s'.Entered ses := by
  obtain ⟨u, hu, hses, hinit⟩ := h
  refine ⟨u, ?_, hses, hinit⟩
  obtain ⟨hlt, -⟩ := List.getElem?_eq_some_iff.mp hu
  rw [hl, List.getElem?_append_left hlt, hu]

theorem EnteredInv.thread (h : EnteredInv s) (ht : s.threads[i]? = some t)
    (hc : SessionCase s t t.pc inp pc b s₁) :
    EnteredInv { s₁ with threads := s.threads.set i { t with pc := pc, sock := b } } := by
  have hold : ∀ ses, s.Entered ses →
      Entered { s₁ with threads := s.threads.set i { t with pc := pc, sock := b } } ses :=
    fun ses hses => hses.set ht hc.ne_init b
  obtain ⟨hlt, -⟩ := List.getElem?_eq_some_iff.mp ht
  have hself : Entered { s₁ with threads := s.threads.set i { t with pc := pc, sock := b } } t.ses := by
    rcases h.threads i t ht with hi | hent
    · refine ⟨{ t with pc := pc, sock := b }, ?_, rfl, hc.ne_init⟩
      rw [hi]
      exact List.getElem?_set_self hlt
    · exact hold _ hent
  refine ⟨fun j u hu => ?_, fun ses hses => ?_, fun ses hm => ?_⟩
  · rcases Counting.getElem?_set_cases hu with ⟨rfl, rfl⟩ | ⟨-, hu⟩
    · exact Or.inr hself
    · exact (h.threads j u hu).imp_right (hold _)
  · rcases hc.mem_slots hses with hses | rfl
    · exact hold _ (h.slots ses hses)
    · exact hself
  · exact hold _ (h.main ses (by rwa [← hc.pool_eq.2]))

/-- Threads are added, slots are not. -/
theorem EnteredInv.append (h : EnteredInv s) {l : List Thread} (hl : s'.threads = s.threads ++ l)
    (hslots : s'.slots = s.slots) (hmain : ∀ ses, s'.main = .restart ses → s.Entered ses)
    (hnew : ∀ j (t : Thread), l[j]? = some t → t.ses = s.threads.length + j ∨ s.Entered t.ses) : EnteredInv s' := by
  refine ⟨fun i t ht => ?_, fun ses hses => (h.slots ses (hslots ▸ hses)).append hl,
    fun ses hm => (hmain ses hm).append hl⟩
  rw [hl] at ht
  by_cases hi : i < s.threads.length
  · rw [List.getElem?_append_left hi] at ht
    exact (h.threads i t ht).imp_right fun hent => hent.append hl
  · rw [List.getElem?_append_right (Nat.le_of_not_lt hi)] at ht
    rcases hnew _ t ht with hses | hent
    · left
      omega
    · exact Or.inr (hent.append hl)

theorem EnteredInv.congr (h : EnteredInv s) (hl : s'.threads = s.threads) (hslots : s'.slots = s.slots)
    (hmain : ∀ ses, s'.main = .restart ses → s.Entered ses) : EnteredInv s' :=
  h.append (l := []) (by simp [hl]) hslots hmain fun j t ht => by simp at ht

theorem spawn_ses {ips : List Str} {kind : Kind} {n j : ℕ} {u : Thread}
    (hu : (ips.mapIdx fun j ip => (⟨n + j, ip, kind, false, .init⟩ : Thread))[j]? = some u) :
    u.ses = n + j ∧ u.pc = .init := by
  rw [List.getElem?_mapIdx, Option.map_eq_some_iff] at hu
  obtain ⟨ip, -, rfl⟩ := hu
  exact ⟨rfl, rfl⟩

theorem ses_of_findSession {ses : ℕ} (h : s.findSession ses = some t) : t.ses = ses := by
  simpa using List.find?_some h

theorem enteredInv_step (h : EnteredInv s) (hs : s.step a = some s') : EnteredInv s' := by
  cases (step_cases hs).2
  case thread i inp t pc b s₁ ht hc => exact h.thread ht hc
  case restart ses t hm ht =>
    refine h.append rfl rfl (fun ses' hm' => by cases hm') fun j u hu => Or.inr ?_
    obtain rfl := List.mem_singleton.mp (List.mem_of_getElem? hu)
    rw [ses_of_findSession ht]
    exact h.main ses hm
  case dailyTask hm =>
    exact h.append rfl rfl h.main fun j u hu => Or.inl (spawn_ses hu).1
  case voteSpawn target url hw =>
    exact h.append rfl rfl h.main fun j u hu => Or.inl (spawn_ses hu).1
  case restartReply ses t hm hses ht =>
    refine h.congr rfl rfl fun ses' hm' => ?_
    obtain rfl := MainPc.restart.inj hm'
    exact h.slots ses hses
  case voteRefuse => exact h
  case stopErase ip again hm =>
    refine h.congr rfl rfl fun ses' hm' => ?_
    rcases again <;> cases hm'
  case voteAdmit | voteJoin => exact h.congr rfl rfl h.main
  all_goals exact h.congr rfl rfl fun ses' hm' => by cases hm'

/-! ### One step -/

/-- The created thread of a session that has not taken a step is its only one. -/
theorem EnteredInv.eq_of_init (h : EnteredInv s) (ht : s.threads[i]? = some t)
    (hinit : t.pc = .init) {j : ℕ} (hj : s.InStart j i) : j = i := by
  obtain ⟨u, hu, hus, -, -⟩ := hj
  rcases h.threads j u hu with hown | ⟨v, hv, -, hne⟩
  · rw [← hown, hus]
  · rw [hus, ht, Option.some.injEq] at hv
    exact absurd (hv ▸ hinit) hne

theorem OneThread.thread (h : OneThread s) (hI : EnteredInv s) (ht : s.threads[i]? = some t)
    (hc : SessionCase s t t.pc inp pc b s₁) :
    OneThread { s₁ with threads := s.threads.set i { t with pc := pc, sock := b } } := by
  -- who is inside then was inside before, or is the created thread at its first step
  have hin : ∀ {j ses}, InStart { s₁ with threads := s.threads.set i { t with pc := pc, sock := b } } j ses →
      s.InStart j ses ∨ j = i ∧ ses = i ∧ t.pc = .init := by
    rintro j ses ⟨u, hu, hses, hdone, hinit⟩
    rcases Counting.getElem?_set_cases hu with ⟨rfl, rfl⟩ | ⟨-, hu⟩
    · by_cases hfirst : t.pc = .init ∧ t.ses = j
      · exact Or.inr ⟨rfl, hses.symm.trans hfirst.2, hfirst.1⟩
      · exact Or.inl ⟨t, ht, hses, hc.ne_done, fun hi hj => hfirst ⟨hi, hses.trans hj.symm⟩⟩
    · exact Or.inl ⟨u, hu, hses, hdone, hinit⟩
  constructor
  · intro j j' ses hj hj'
    rcases hin hj with hj | ⟨hji, hsi, hinit⟩ <;> rcases hin hj' with hj' | ⟨hji', hsi', hinit'⟩
    · exact h.one j j' ses hj hj'
    · rw [hji']
      exact hI.eq_of_init ht hinit' (hsi' ▸ hj)
    · rw [hji]
      exact (hI.eq_of_init ht hinit (hsi ▸ hj')).symm
    · rw [hji, hji']
  · intro ses u hu hus hdone j hj
    rcases Counting.getElem?_set_cases hu with ⟨hsi, rfl⟩ | ⟨hsi, hu'⟩
    · -- the created thread returns: before this step it was the only one inside
      have hji : j = i := by
        rcases hin hj with hj | ⟨hji, -⟩
        · by_cases hinit : t.pc = .init
          · exact hI.eq_of_init ht hinit (hsi ▸ hj)
          · exact h.one j i ses hj ⟨t, ht, hus, hc.ne_done, fun hi => absurd hi hinit⟩
        · exact hji
      obtain ⟨v, hv, -, hvd, -⟩ := hj
      rw [hji.trans hsi.symm, hu, Option.some.injEq] at hv
      exact hvd (hv ▸ hdone)
    · rcases hin hj with hj | ⟨-, hsi', -⟩
      · exact h.returned ses u hu' hus hdone j hj
      · exact hsi hsi'

/-- Threads that have not taken a step yet are added for new sessions. -/
theorem OneThread.append (h : OneThread s) {l : List Thread} (hl : s'.threads = s.threads ++ l)
    (hnew : ∀ j (t : Thread), l[j]? = some t → t.ses = s.threads.length + j ∧ t.pc = .init) : OneThread s' := by
  have hin : ∀ {j ses}, s'.InStart j ses → s.InStart j ses := by
    rintro j ses ⟨u, hu, hses, hdone, hinit⟩
    rw [hl] at hu
    by_cases hj : j < s.threads.length
    · rw [List.getElem?_append_left hj] at hu
      exact ⟨u, hu, hses, hdone, hinit⟩
    · rw [List.getElem?_append_right (Nat.le_of_not_lt hj)] at hu
      obtain ⟨hs, hi⟩ := hnew _ u hu
      exact absurd (by omega) (hinit hi)
  constructor
  · exact fun j j' ses hj hj' => h.one j j' ses (hin hj) (hin hj')
  · intro ses u hu hus hdone j hj
    rw [hl] at hu
    by_cases hlt : ses < s.threads.length
    · rw [List.getElem?_append_left hlt] at hu
      exact h.returned ses u hu hus hdone j (hin hj)
    · rw [List.getElem?_append_right (Nat.le_of_not_lt hlt)] at hu
      have hi := (hnew _ u hu).2
      rw [hdone] at hi
      cases hi

theorem OneThread.congr (h : OneThread s) (hl : s'.threads = s.threads) : OneThread s' :=
  h.append (l := []) (by simp [hl]) fun j t ht => by simp at ht

/-- The thread created for the session has been inside `start`; after the
re-entry it is there still, or has returned. -/
theorem not_oneThread_of_entered {ses : ℕ} (hent : s.Entered ses) (hu : t.ses = ses) (hi : t.pc = .init)
    (hl : s'.threads = s.threads ++ [t]) : ¬ OneThread s' := by
  intro h
  obtain ⟨v, hv, hvs, hvi⟩ := hent
  obtain ⟨hlt, -⟩ := List.getElem?_eq_some_iff.mp hv
  have hnew : s'.InStart s.threads.length ses :=
    ⟨t, by simp [hl], hu, by simp [hi], fun _ => by omega⟩
  have hv' : s'.threads[ses]? = some v := by rw [hl, List.getElem?_append_left hlt, hv]
  by_cases hdone : v.pc = .done
  · exact h.returned ses v hv' hvs hdone _ hnew
  · have := h.one _ _ ses hnew ⟨v, hv', hvs, hdone, fun hi => absurd hi hvi⟩
    omega

/-- From one thread to one thread, exactly if the step does not re-enter. -/
theorem oneThread_step (hI : EnteredInv s) (h : OneThread s) (hs : s.step a = some s') :
    OneThread s' ↔ s.Reenters a = false := by
  cases (step_cases hs).2
  case thread i inp t pc b s₁ ht hc => exact iff_of_true (h.thread hI ht hc) rfl
  case restart ses t hm ht =>
    refine iff_of_false ?_ (by simp [Reenters, hm])
    exact not_oneThread_of_entered (t := { t with sock := false, pc := .init }) (hI.main ses hm)
      (show t.ses = ses from ses_of_findSession ht) rfl rfl
  case dailyTask hm => exact iff_of_true (h.append rfl fun j u hu => spawn_ses hu) rfl
  case voteSpawn target url hw => exact iff_of_true (h.append rfl fun j u hu => spawn_ses hu) rfl
  case stopErase ip again hm | startIdle ip hm | startInsert ip hm | returned i hm ht | resetDone hm
      | reset acc todo hm =>
    exact iff_of_true (h.congr rfl) (by simp [Reenters, hm])
  case voteRefuse => exact iff_of_true h rfl
  all_goals exact iff_of_true (h.congr rfl) rfl

end Step

theorem boot_enteredInv (rows : List (Str × AccountPro)) (ips : List Str) : EnteredInv (boot rows ips) :=
  ⟨fun i t ht => by simp [boot] at ht, fun ses hses => by simp [boot] at hses, fun ses hm => by simp [boot] at hm⟩

theorem boot_oneThread (rows : List (Str × AccountPro)) (ips : List Str) : OneThread (boot rows ips) :=
  ⟨fun i j ses ⟨t, ht, _⟩ => by simp [boot] at ht, fun ses t ht => by simp [boot] at ht⟩

/-- **One thread.** A run keeps throughout to one thread inside `start` for
each session, and to none after the created one has returned, if and only if
none of its steps re-enters `start`. -/
theorem oneThread_iff {rows : List (Str × AccountPro)} {ips : List Str} {as : List Act} {s : Server}
    (hr : Trans.run step (boot rows ips) as = some s) :
    Trans.Always step OneThread (boot rows ips) as ↔
      Trans.Along step (fun s a => s.Reenters a = false) (boot rows ips) as :=
  Trans.always_iff_along (I := EnteredInv) (fun _ _ _ hI hs => enteredInv_step hI hs)
    (fun _ _ _ hI h hs => oneThread_step hI h hs) (boot_enteredInv rows ips) (boot_oneThread rows ips) hr

/-! ### A restart reply -/

/-- Phone p connects, a daily task starts its session, the session cannot
connect to the script and waits for the restart. -/
def waitsForRestart : List Act := connects [Str.of "p"] ++ [.dailyTask] ++ moves 0 [.go, .go, .go, .err]

def restartAwaited : Server := (Trans.run step (boot [(Str.of "a", default)] []) waitsForRestart).get (by decide)

/-- The phone answers. -/
def restarted : Server :=
  (Trans.run step (boot [(Str.of "a", default)] []) (waitsForRestart ++ [.restartReply 0, .main])).get (by decide)

theorem oneThread_iff_awaited :
    Trans.Always step OneThread (boot [(Str.of "a", default)] []) waitsForRestart ↔
      Trans.Along step (fun s a => s.Reenters a = false) (boot [(Str.of "a", default)] []) waitsForRestart :=
  oneThread_iff (s := restartAwaited) (Option.some_get _).symm

/-- Two threads are inside `start` of the session. -/
theorem two_threads :
    ¬ ∀ (rows : List (Str × AccountPro)) (ips : List Str) (s : Server),
      Trans.Reach step (fun _ _ => True) (boot rows ips) s → OneThread s := by
  intro h
  have hone := (h [(Str.of "a", default)] [] restarted (Trans.Reach.of_run (Option.some_get _).symm)).one 0 1 0
    ⟨⟨0, Str.of "p", .daily, false, .restartWait false⟩, by decide, rfl, by decide, by decide⟩
    ⟨⟨0, Str.of "p", .daily, false, .init⟩, by decide, rfl, by decide, by decide⟩
  exact absurd hone (by decide)

end Server
end ScheduleCenter
