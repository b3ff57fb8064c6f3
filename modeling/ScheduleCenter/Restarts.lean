/-
# No work is repeated after a restart

The table lives in the process. When the process ends, by an exception that no
handler catches or by hand, what is left of it is what the setters' statements have
put into the database. Here the server runs on the database of `Database`: the
section of a setter also executes the statement (`setter`), which leaves the two
copies as the setter's call on `Store` does (`store_step`), and at any point the
process may start anew from what `load_data` reads (`Act.restart`). An end
between the change in memory and the statement is one before the section: the lock is
held in between, and nobody has seen what was in memory.

Statements may fail, of any setter and at any time. What a reply records stays recorded in
this process (`Server.never_again`); if the statement of that one setter is
executed, it stays recorded in all later ones (`never_again_stored`). If it is
not, the command is sent once more after a restart (`again_after_restart`).

Key definitions: `Restarts.State`, `Restarts.setter`, `Restarts.step`, `Restarts.Ok`, `Restarts.Live`,
`Restarts.Recorded`.
Key theorems: `Restarts.store_step`, `Restarts.live_step`, `Restarts.recorded_step`,
`Restarts.never_again_stored`, `Restarts.again_after_restart`.
-/
import ScheduleCenter.Database
import ScheduleCenter.Repeat
import ScheduleCenter.SessionLookups

namespace ScheduleCenter

/-! ### What a setter's call leaves -/

theorem AccountMgr.update_of_notMem {m : AccountMgr} {acc : Str} (h : acc ∉ m.accountsPro)
    (f : AccountPro → AccountPro) : m.update acc f = m := by
  rw [AccountMgr.update, AList.lookup_eq_none.mpr h]

namespace Store

variable {M : MySql} {s s' : Store M} {c : Setter}

/-- The setter in memory. -/
def Setter.onMgr (m : AccountMgr) : Setter → AccountMgr
  | .voteStatus acc url _ => m.setVoteStatus acc url
  | .accStatus acc n _ => m.setAccStatus acc n
  | .everydayTask acc n _ => m.setEverydayTask acc n

theorem write_mgr {acc sql : Str} {f : AccountPro → AccountPro} {size : ℕ} {call : SqlCall}
    (h : s.write acc (s.mgr.update acc f) sql size call = some s') : s'.mgr = s.mgr.update acc f := by
  unfold write at h
  split_ifs at h with hacc hover hcall
  · cases h
    rfl
  · obtain ⟨db, -, rfl⟩ := Option.map_eq_some_iff.mp h
    rfl
  · cases h
    rfl
  · cases h
    exact (AccountMgr.update_of_notMem hacc f).symm

/-- A call changes memory as the setter does, whatever comes of the statement. -/
theorem mgr_call (h : s.call c = some s') : s'.mgr = c.onMgr s.mgr := by
  rcases c with ⟨acc, url, sql⟩ | ⟨acc, n, sql⟩ | ⟨acc, n, sql⟩
  all_goals exact write_mgr h

theorem write_cases {acc sql : Str} {mgr : AccountMgr} {size : ℕ} {call : SqlCall}
    (hfits : acc ∈ s.mgr.accountsPro → sql.length < size) (h : s.write acc mgr sql size call = some s') :
    s'.overrun = s.overrun ∧
      ((acc ∈ s.mgr.accountsPro ∧ call = .success ∧ M.exec sql s.db = some s'.db) ∨
        (acc ∈ s.mgr.accountsPro → call ≠ .success) ∧ s'.db = s.db) := by
  unfold write at h
  split_ifs at h with hacc hover hcall
  · exact absurd hover (Nat.not_le_of_lt (hfits hacc))
  · obtain ⟨db, hdb, rfl⟩ := Option.map_eq_some_iff.mp h
    exact ⟨rfl, Or.inl ⟨hacc, hcall, hdb⟩⟩
  · cases h
    exact ⟨rfl, Or.inr ⟨fun _ => hcall, rfl⟩⟩
  · cases h
    exact ⟨rfl, Or.inr ⟨fun hmem => absurd hmem hacc, rfl⟩⟩

/-- A call that fits its buffer: the statement is executed, or the database is as it was. -/
theorem call_cases (hfits : c.acc ∈ s.mgr.accountsPro → c.text.length < c.size) (h : s.call c = some s') :
    s'.overrun = s.overrun ∧
      ((c.acc ∈ s.mgr.accountsPro ∧ c.sql = .success ∧ M.exec c.text s.db = some s'.db) ∨
        (c.acc ∈ s.mgr.accountsPro → c.sql ≠ .success) ∧ s'.db = s.db) := by
  rcases c with ⟨acc, url, sql⟩ | ⟨acc, n, sql⟩ | ⟨acc, n, sql⟩
  all_goals exact write_cases hfits h

/-- No statement adds an account or takes one away. -/
theorem Sound.names_exec (h : s.Sound c) (hsql : c.sql = .success) {db' : M.Db}
    (hexec : M.exec c.text s.db = some db') : (M.rows db').map (·.1) = (M.rows s.db).map (·.1) := by
  have hupdate : ∀ (col : Column) (n : Int) (acc : Str), (M.rows db' =
      (M.rows s.db).map fun r => if M.same r.1 acc then (r.1, col.set n r.2) else r) →
      (M.rows db').map (·.1) = (M.rows s.db).map (·.1) := by
    intro col n acc hrows
    rw [hrows, List.map_map]
    apply List.map_congr_left
    intro r _
    by_cases hsame : M.same r.1 acc <;> simp [hsame]
  obtain ⟨hliteral, -⟩ := h.name hsql
  have hheld := h.held hsql
  rcases c with ⟨acc, url, sql⟩ | ⟨acc, n, sql⟩ | ⟨acc, n, sql⟩
  · obtain ⟨hurl, hkacc, hkurl⟩ := hheld
    rw [(M.exec_insert hliteral hurl hkacc hkurl hexec).1]
  · exact hupdate _ _ _ (M.exec_update hliteral hheld hexec).1
  · exact hupdate _ _ _ (M.exec_update hliteral hheld hexec).1

end Store

namespace Restarts

open Server

/-! ### The process and its database -/

/-- The process, and the database it is connected to. -/
structure State (M : MySql) where
  server : Server
  db : M.Db
  /-- A statement has run over its buffer. -/
  overrun : Bool

/-- The call of a setter in `handle_read`. -/
def setterOf (kind : Kind) (acc : Str) (sql : SqlCall) : Verdict → Option Store.Setter
  | .success =>
    match kind with
    | .vote _ url => some (.voteStatus acc url sql)
    | .daily => some (.everydayTask acc dailytaskFinished sql)
  | .fatal => some (.accStatus acc statusAbnormal sql)
  | .other => none

/-- The setter whose section the step is, with what comes of its statement. -/
def setter (s : Server) (sql : SqlCall) : ScheduleCenter.Act → Option Store.Setter
  | .thread i .go =>
    (s.threads[i]?).bind fun t =>
      match t.pc with
      | .record acc v => setterOf t.kind acc sql v
      | _ => none
  | .main =>
    match s.main with
    | .resetting (acc :: _) => some (.everydayTask acc dailytaskNotFinished sql)
    | _ => none
  | _ => none

inductive Act
  /-- A step of the server, and what comes of its statement if it has one. -/
  | server (a : ScheduleCenter.Act) (sql : SqlCall)
  /-- The process ends, and a new one finds these devices. -/
  | restart (ips : List Str)

variable {M : MySql}

/-- The rows as `load_data` puts them together. -/
def rows (M : MySql) (db : M.Db) : List (Str × AccountPro) :=
  (M.rows db).map fun r => (r.1, { r.2 with votedUrl := (M.urls db r.1).toFinset })

/-- A process after its start. -/
def start (db : M.Db) (ips : List Str) : State M := ⟨.boot (rows M db) ips, db, false⟩

/-- The two copies of the accounts. -/
def State.store (x : State M) : Store M := ⟨x.server.accounts, x.db, x.overrun⟩

def step (x : State M) : Act → Option (State M)
  | .server a sql => (x.server.step a).bind fun s =>
    match setter x.server sql a with
    | none => some { x with server := s }
    | some c => (x.store.call c).map fun st => ⟨s, st.db, st.overrun⟩
  | .restart ips => some (start x.db ips)

/-! ### What a step can do -/

section Setter

variable {s s' : Server} {a : ScheduleCenter.Act} {sql : SqlCall} {c : Store.Setter}

theorem setterOf_acc {kind : Kind} {acc : Str} {v : Verdict} (h : setterOf kind acc sql v = some c) : c.acc = acc := by
  cases v <;> cases kind <;> cases h <;> rfl

theorem setterOf_sql {kind : Kind} {acc : Str} {v : Verdict} (h : setterOf kind acc sql v = some c) : c.sql = sql := by
  cases v <;> cases kind <;> cases h <;> rfl

theorem exists_setterOf (kind : Kind) (acc : Str) {v : Verdict} (hv : v ≠ .other) :
    ∃ c, setterOf kind acc sql v = some c := by
  cases v with
  | success => cases kind <;> exact ⟨_, rfl⟩
  | fatal => exact ⟨_, rfl⟩
  | other => exact absurd rfl hv

theorem setterOf_change {kind : Kind} {acc : Str} {v : Verdict} (h : setterOf kind acc sql v = some c)
    (p : AccountPro) :
    c.change.f p.shown = (kind.recorded v p).shown := by
  cases v <;> cases kind <;> cases h <;> rfl

theorem setterOf_onMgr {kind : Kind} {acc : Str} {v : Verdict} (h : setterOf kind acc sql v = some c) (m : AccountMgr) :
    c.onMgr m = m.recordReply kind acc v := by
  cases v <;> cases kind <;> cases h <;> rfl

/-- A setter is one of a reply, or of the reset. -/
theorem setter_cases (h : setter s sql a = some c) :
    (∃ i t acc v, a = .thread i .go ∧ s.threads[i]? = some t ∧ t.pc = .record acc v ∧
      setterOf t.kind acc sql v = some c) ∨
    ∃ acc todo, a = .main ∧ s.main = .resetting (acc :: todo) ∧ c = .everydayTask acc dailytaskNotFinished sql := by
  unfold setter at h
  split at h
  · rename_i i
    obtain ⟨t, ht, h⟩ := Option.bind_eq_some_iff.mp h
    split at h
    · rename_i acc v hpc
      exact Or.inl ⟨i, t, acc, v, rfl, ht, hpc, h⟩
    · cases h
  · split at h
    · rename_i acc todo hm
      exact Or.inr ⟨acc, todo, rfl, hm, (Option.some.inj h).symm⟩
    · cases h
  · cases h

/-- What the setter does to what is shown of its account is what the step does. -/
theorem setter_change (h : setter s sql a = some c) :
    (∃ kind v, s.records a kind c.acc v ∧ ∀ p, c.change.f p.shown = (kind.recorded v p).shown) ∨
      s.resets a c.acc ∧ ∀ p, c.change.f p.shown = (resetPro p).shown := by
  rcases setter_cases h with ⟨i, t, acc, v, rfl, ht, hpc, hc⟩ | ⟨acc, todo, rfl, hm, rfl⟩
  · rw [setterOf_acc hc]
    exact Or.inl ⟨t.kind, v, ⟨i, t, rfl, ht, hpc, rfl⟩, setterOf_change hc⟩
  · exact Or.inr ⟨⟨rfl, todo, hm⟩, fun p => rfl⟩

theorem setter_of_records {kind : Kind} {acc : Str} {v : Verdict} (h : s.records a kind acc v) :
    setter s sql a = setterOf kind acc sql v := by
  obtain ⟨i, t, rfl, ht, hpc, rfl⟩ := h
  simp [setter, ht, hpc]

theorem accounts_record {s₁ : Server} {t : Thread} {acc : Str} {v : Verdict} {pc : Pc} {b : Bool}
    (hpc : t.pc = .record acc v) (hc : SessionCase s t t.pc .go pc b s₁) :
    s₁.accounts = s.accounts.recordReply t.kind acc v := by
  rw [hpc] at hc
  cases hc with
  | letOn hpcs => simp at hpcs
  | hold hpcs => simp at hpcs
  | recordVote => rfl
  | record => rfl

/-- The step does the setter's work in memory. -/
theorem accounts_setter (h : setter s sql a = some c) (hs : s.step a = some s') :
    s'.accounts = c.onMgr s.accounts := by
  rcases setter_cases h with ⟨i, t, acc, v, rfl, ht, hpc, hc⟩ | ⟨acc, todo, rfl, hm, rfl⟩
  · obtain ⟨u, pc, b, s₁, hu, hcase, rfl⟩ := step_thread hs
    rw [ht] at hu
    obtain rfl := Option.some.inj hu
    show s₁.accounts = _
    rw [accounts_record hpc hcase, setterOf_onMgr hc]
  · cases (step_cases hs).2 with
    | reset hm' =>
      rw [hm] at hm'
      cases hm'
      rfl
    | stopErase hm' | startIdle hm' | startInsert hm' | restart hm' | returned hm' | resetDone hm' =>
      rw [hm] at hm'
      cases hm'

end Setter

/-- What a step can do. -/
inductive StepCase (x : State M) : Act → State M → Prop
  | plain {a : ScheduleCenter.Act} {sql : SqlCall} {s : Server} (hs : x.server.step a = some s)
      (hc : setter x.server sql a = none) : StepCase x (.server a sql) { x with server := s }
  | set {a : ScheduleCenter.Act} {sql : SqlCall} {c : Store.Setter} {x' : State M} (hs : x.server.step a = some x'.server)
      (hc : setter x.server sql a = some c) (hcall : x.store.call c = some x'.store) : StepCase x (.server a sql) x'
  | restart (ips : List Str) : StepCase x (.restart ips) (start x.db ips)

/-- **A setter's section is the setter's call** on the table in memory and the database. -/
theorem store_step {x : State M} {a : Act} {x' : State M} (h : step x a = some x') : StepCase x a x' := by
  rcases a with ⟨a, sql⟩ | ips
  · obtain ⟨s, hs, h⟩ := Option.bind_eq_some_iff.mp h
    split at h
    · rename_i hc
      cases h
      exact .plain hs hc
    · rename_i c hc
      obtain ⟨st, hst, rfl⟩ := Option.map_eq_some_iff.mp h
      have hmgr : st.mgr = s.accounts := (Store.mgr_call hst).trans (accounts_setter hc hs).symm
      refine .set hs hc ?_
      rw [hst, State.store, ← hmgr]
  · cases h
    exact .restart ips

/-! ### What is asked of the steps -/

/-- No draw takes a node that another one has chosen, and each statement says what
it should, whatever comes of it. -/
def Ok (x : State M) : Act → Prop
  | .server a sql => x.server.drawsApart a = true ∧
      ∀ c, setter x.server sql a = some c → c.acc ∈ x.server.accounts.accountsPro → x.store.Sound c
  | .restart _ => True

variable {db : M.Db} {x x' : State M} {a : Act} {acc : Str}

theorem rows_names (M : MySql) (db : M.Db) : (rows M db).map (·.1) = (M.rows db).map (·.1) := by
  rw [rows, List.map_map]
  rfl

/-- The accounts of the database have different names, and the process is a
server that was started from accounts of these names. -/
structure Live (x : State M) : Prop where
  names : ((M.rows x.db).map (·.1)).Nodup
  reached : ∃ rows ips, rows.map (·.1) = (M.rows x.db).map (·.1) ∧
    Trans.Reach Server.step (fun s a => s.drawsApart a = true) (boot rows ips) x.server

theorem Live.start (h : ((M.rows db).map (·.1)).Nodup) (ips : List Str) : Live (start db ips) :=
  ⟨h, rows M db, ips, rows_names M db, .refl⟩

/-- A step of the server that leaves the names as they are. -/
theorem Live.server (h : Live x) {a : ScheduleCenter.Act} (ha : x.server.drawsApart a = true)
    (hs : x.server.step a = some x'.server) (hnames : (M.rows x'.db).map (·.1) = (M.rows x.db).map (·.1)) :
    Live x' := by
  obtain ⟨rows, ips, hrows, hr⟩ := h.reached
  exact ⟨hnames ▸ h.names, rows, ips, hrows.trans hnames.symm, hr.tail ha hs⟩

/-- **One step.** -/
theorem live_step (h : Live x) (ha : Ok x a) (hs : step x a = some x') : Live x' := by
  cases store_step hs with
  | plain hserver hc => exact h.server ha.1 hserver rfl
  | set hserver hc hcall =>
    refine h.server ha.1 hserver ?_
    rcases (Store.call_cases (fun hacc => (ha.2 _ hc hacc).fits) hcall).2 with ⟨hacc, hsql, hexec⟩ | ⟨-, hdb⟩
    · exact (ha.2 _ hc hacc).names_exec hsql hexec
    · exact congrArg (fun db => (M.rows db).map (·.1)) hdb
  | restart ips => exact Live.start h.names ips

theorem live_of_reach (h : ((M.rows db).map (·.1)).Nodup) {ips : List Str}
    (hr : Trans.Reach step Ok (start db ips) x) : Live x :=
  hr.invariant (Live.start h ips) fun _ _ _ hx ha hs => live_step hx ha hs

/-- Every account a session works on may be worked on. -/
theorem Live.ready (h : Live x) : ∀ t ∈ x.server.threads, x.server.Ready t := by
  obtain ⟨rows, ips, hrows, hr⟩ := h.reached
  exact ready_of_reach (hrows ▸ h.names) hr

/-- The process has the accounts of the database. -/
theorem Live.mem_iff (h : Live x) : acc ∈ x.server.accounts.accountsPro ↔ acc ∈ (M.loadData x.db).accountsPro := by
  obtain ⟨rows, ips, hrows, hr⟩ := h.reached
  have hwithin := within_of_reach (hr.mono fun _ _ _ => trivial)
  rw [hwithin.table, hrows, ← rows_names]
  exact (AccountMgr.mem_loadData _).symm

/-! ### What is recorded, here and in the database -/

/-- The account is there, and what is shown of it meets `P`. -/
def Holds (m : AccountMgr) (acc : Str) (P : Shown → Prop) : Prop :=
  ∃ p, m.accountsPro.lookup acc = some p ∧ P p.shown

theorem Holds.of_shown {m m' : AccountMgr} {P Q : Shown → Prop} (h : Holds m acc P) {f : Shown → Shown}
    (hshown : m'.shown acc = (m.shown acc).map f) (hQ : ∀ p : AccountPro, P p.shown → Q (f p.shown)) :
    Holds m' acc Q := by
  obtain ⟨p, hp, hPp⟩ := h
  unfold AccountMgr.shown at hshown
  rw [hp, Option.map_some, Option.map_some] at hshown
  obtain ⟨p', hp', hpf⟩ := Option.map_eq_some_iff.mp hshown
  exact ⟨p', hp', hpf ▸ hQ p hPp⟩

/-- It holds in the process, and of what the next one will read. -/
structure Recorded (x : State M) (acc : Str) (P : Shown → Prop) : Prop where
  memory : Holds x.server.accounts acc P
  stored : Holds (M.loadData x.db) acc P

/-- The step is the section of `reset_all_everyday_task` that resets `acc`. -/
def Act.resets (x : State M) (acc : Str) : Act → Prop
  | .server a _ => x.server.resets a acc
  | .restart _ => False

/-- What the setters keep and the reset keeps where it comes by. -/
structure Stays (P : Shown → Prop) (x : State M) (a : Act) (acc : Str) : Prop where
  recorded : ∀ (kind : Kind) v p, P p.shown → P (kind.recorded v p).shown
  reset : a.resets x acc → ∀ p, P p.shown → P (resetPro p).shown

/-- No setter and no reset takes a url away. -/
theorem stays_voted {url : Str} : Stays (fun v => url ∈ v.votedUrl) x a acc where
  recorded kind v p hmem := by cases kind <;> cases v <;> simp_all [Kind.recorded, AccountPro.shown]
  reset _ _ hmem := hmem

/-- The only status that is set is `ABNORMAL`. -/
theorem stays_abnormal : Stays (fun v => v.status = statusAbnormal) x a acc where
  recorded kind v p hab := by cases kind <;> cases v <;> simp_all [Kind.recorded, AccountPro.shown]
  reset _ _ hab := hab

/-- The reset alone takes a finished task back. -/
theorem stays_finished (h : ¬ a.resets x acc) : Stays (fun v => v.dailytask = dailytaskFinished) x a acc where
  recorded kind v p hfin := by cases kind <;> cases v <;> simp_all [Kind.recorded, AccountPro.shown]
  reset hres _ _ := absurd hres h

theorem memory_step {P : Shown → Prop} {b : ScheduleCenter.Act} {sql : SqlCall} {s : Server}
    (hP : Stays P x (.server b sql) acc) (h : Holds x.server.accounts acc P) (hs : x.server.step b = some s) :
    Holds s.accounts acc P := by
  obtain ⟨p, hp, hPp⟩ := h
  obtain ⟨p', hp', rfl | ⟨kind, v, -, rfl⟩ | ⟨hres, rfl⟩⟩ := lookup_step hs hp
  · exact ⟨p', hp', hPp⟩
  · exact ⟨_, hp', hP.recorded kind v p hPp⟩
  · exact ⟨_, hp', hP.reset hres p hPp⟩

/-- A statement that is executed changes the row of its account alone, as the setter changes
the record in memory. -/
theorem stored_exec {P : Shown → Prop} {b : ScheduleCenter.Act} {sql : SqlCall} {c : Store.Setter} {db' : M.Db}
    (hP : Stays P x (.server b sql) acc) (h : Holds (M.loadData x.db) acc P) (hc : setter x.server sql b = some c)
    (hshown : (M.loadData db').shown = (M.loadData x.db).shown.modify c.acc c.change.f) :
    Holds (M.loadData db') acc P := by
  by_cases hacc : acc = c.acc
  · subst hacc
    refine h.of_shown ((congrFun hshown c.acc).trans (WriteThrough.Table.modify_self _ _ _)) fun p hp => ?_
    rcases setter_change hc with ⟨kind, v, -, heq⟩ | ⟨hres, heq⟩
    · rw [heq]
      exact hP.recorded kind v p hp
    · rw [heq]
      exact hP.reset hres p hp
  · refine h.of_shown (f := id) ?_ fun p hp => hp
    rw [hshown, WriteThrough.Table.modify_ne _ _ hacc, Option.map_id]
    rfl

/-- **One step** leaves what is recorded in both, a restart among them. -/
theorem recorded_step {P : Shown → Prop} (hP : Stays P x a acc) (h : Recorded x acc P) (ha : Ok x a)
    (hs : step x a = some x') : Recorded x' acc P := by
  cases store_step hs with
  | plain hserver hc => exact ⟨memory_step hP h.memory hserver, h.stored⟩
  | set hserver hc hcall =>
    refine ⟨memory_step hP h.memory hserver, ?_⟩
    rcases (Store.call_cases (fun hacc => (ha.2 _ hc hacc).fits) hcall).2 with ⟨hacc, hsql, hexec⟩ | ⟨-, hdb⟩
    · exact stored_exec hP h.stored hc ((ha.2 _ hc hacc).shown_exec hsql hexec)
    · show Holds (M.loadData x'.store.db) acc P
      rw [hdb]
      exact h.stored
  | restart ips => exact ⟨h.stored, h.stored⟩

theorem recorded_of_reach {ok : State M → Act → Prop} {P : Shown → Prop}
    (hok : ∀ x a, ok x a → Ok x a ∧ Stays P x a acc) (h : Recorded x acc P) (hr : Trans.Reach step ok x x') :
    Recorded x' acc P :=
  hr.invariant h fun x a _ hx ha hs => recorded_step (hok x a ha).2 hx (hok x a ha).1 hs

/-- A reply that is recorded, with its statement executed, is recorded in both. -/
theorem recorded_of_executed {P : Shown → Prop} {b : ScheduleCenter.Act} {kind : Kind} {v : Verdict} (hlive : Live x)
    (hrec : x.server.records b kind acc v) (hv : v ≠ .other) (hP : ∀ p, P (kind.recorded v p).shown)
    (ha : Ok x (.server b .success)) (hs : step x (.server b .success) = some x') : Recorded x' acc P := by
  obtain ⟨c, hc⟩ : ∃ c, setterOf kind acc .success v = some c := exists_setterOf kind acc hv
  have hset : setter x.server .success b = some c := (setter_of_records hrec).trans hc
  obtain rfl := setterOf_acc hc
  cases store_step hs with
  | plain hserver hnone =>
    rw [hset] at hnone
    cases hnone
  | set hserver hsome hcall =>
    rw [hset] at hsome
    obtain rfl := Option.some.inj hsome
    obtain ⟨p, hp⟩ := recorded_of_records hlive.ready hrec hserver
    refine ⟨⟨_, hp, hP p⟩, ?_⟩
    have hmem : c.acc ∈ x.server.accounts.accountsPro := by
      obtain ⟨i, t, -, ht, hpc, -⟩ := hrec
      obtain ⟨q, hq, -⟩ := hlive.ready t (List.mem_of_getElem? ht) c.acc (by rw [hpc]; rfl)
      exact AList.lookup_isSome.mp (by rw [hq]; rfl)
    have hsound := ha.2 c hset hmem
    rcases (Store.call_cases (fun _ => hsound.fits) hcall).2 with ⟨-, hsql, hexec⟩ | ⟨hfail, -⟩
    · obtain ⟨q, hq⟩ := Option.isSome_iff_exists.mp (AList.lookup_isSome.mpr (hlive.mem_iff.mp hmem))
      have hrow : Holds (M.loadData x.db) c.acc fun _ => True := ⟨q, hq, trivial⟩
      have hshown := hsound.shown_exec hsql hexec
      refine hrow.of_shown ((congrFun hshown c.acc).trans (WriteThrough.Table.modify_self _ _ _)) fun p _ => ?_
      rw [setterOf_change hc]
      exact hP p
    · exact absurd (setterOf_sql hc) (hfail hmem)

/-! ### Never again -/

/-- What is recorded in both and excludes the work excludes the command, in this
process and in those that follow. -/
theorem not_sends_of_recorded {ok : State M → Act → Prop} {P : Shown → Prop} {b : ScheduleCenter.Act} {kind : Kind}
    (hlive : Live x') (hok : ∀ x a, ok x a → Ok x a ∧ Stays P x a acc) (h : Recorded x acc P)
    (hr : Trans.Reach step ok x x') (hP : ∀ p : AccountPro, P p.shown → ¬ kind.mayWork p) :
    ¬ x'.server.sends b kind acc :=
  Server.not_sends_of_recorded hlive.ready (recorded_of_reach hok h hr).memory hP

/-- **No repeated work, after restarts too.** Take any run from a database whose accounts
have different names, in which no draw chooses a node that another one has chosen
and not yet erased, each statement says what it should and may fail, and the process
ends and starts anew at any points. Once a reply is recorded and its statement
executed: if it was of a vote for `acc` and `url`, no vote command for them is sent; if
it said that `acc` is to be marked, no command at all; and if it was of the daily task,
no daily command until a reset comes to `acc`. -/
theorem never_again_stored {ips : List Str} (hrows : ((M.rows db).map (·.1)).Nodup) {x₁ x₂ x₃ : State M}
    {a b : ScheduleCenter.Act} {acc : Str} (hr₁ : Trans.Reach step Ok (start db ips) x₁)
    (ha : Ok x₁ (.server a .success)) (hs : step x₁ (.server a .success) = some x₂)
    (hr₂ : Trans.Reach step Ok x₂ x₃) :
    (∀ k k' url, x₁.server.records a (.vote k url) acc .success → ¬ x₃.server.sends b (.vote k' url) acc) ∧
    (∀ kind kind', x₁.server.records a kind acc .fatal → ¬ x₃.server.sends b kind' acc) ∧
    (x₁.server.records a .daily acc .success →
      Trans.Reach step (fun x a => Ok x a ∧ ¬ a.resets x acc) x₂ x₃ → ¬ x₃.server.sends b .daily acc) := by
  have hlive₁ := live_of_reach hrows hr₁
  have hlive₃ := live_of_reach hrows ((hr₁.tail ha hs).trans hr₂)
  refine ⟨fun k k' url hrec => ?_, fun kind kind' hrec => ?_, fun hrec hr => ?_⟩
  · have hvoted : Recorded x₂ acc fun v => url ∈ v.votedUrl :=
      recorded_of_executed hlive₁ hrec (by decide) (fun p => Finset.mem_insert_self url p.votedUrl) ha hs
    exact not_sends_of_recorded hlive₃ (fun _ _ hx => ⟨hx, stays_voted⟩) hvoted hr₂ fun p hmem hw => hw.1 hmem
  · have habnormal : Recorded x₂ acc fun v => v.status = statusAbnormal :=
      recorded_of_executed hlive₁ hrec (by decide) (fun p => by cases kind <;> rfl) ha hs
    refine not_sends_of_recorded hlive₃ (fun _ _ hx => ⟨hx, stays_abnormal⟩) habnormal hr₂ fun p hab hw => ?_
    cases kind' with
    | vote k url => exact hw.2 hab
    | daily => exact hw.2 hab
  · have hfinished : Recorded x₂ acc fun v => v.dailytask = dailytaskFinished :=
      recorded_of_executed hlive₁ hrec (by decide) (fun p => rfl) ha hs
    exact not_sends_of_recorded hlive₃ (fun _ _ hx => ⟨hx.1, stays_finished hx.2⟩) hfinished hr fun p hfin hw =>
      hw.1 hfin

/-! ### One vote, with its statement executed and without -/

/-- A restart, or a step that is no setter's. -/
def quiet (x : State M) : Act → Bool
  | .server a sql => x.server.drawsApart a && (setter x.server sql a).isNone
  | .restart _ => true

theorem ok_of_quiet (h : quiet x a = true) : Ok x a := by
  cases a with
  | server a sql =>
    obtain ⟨hdraws, hnone⟩ := Bool.and_eq_true_iff.mp h
    refine ⟨hdraws, fun c hc => ?_⟩
    rw [hc] at hnone
    cases hnone
  | restart ips => trivial

theorem reach_of_quiet {as : List Act} (h : Trans.run (Trans.guarded step fun x a => quiet x a = true) x as = some x') :
    Trans.Reach step Ok x x' :=
  (Trans.Reach.of_guarded h).mono fun _ _ => ok_of_quiet

/-- Steps of the server. -/
def serverActs (as : List ScheduleCenter.Act) : List Act := as.map fun a => .server a .success

/-- A phone connects, and a vote task starts a session for it. -/
def voteActs (target : Int) : List Act :=
  serverActs (connects [Str.of "p"] ++ [.voteAdmit target (Str.of "u"), .voteSpawn])

/-- One phone, one account, a vote for it answered with success: next the record. -/
def voteAnswered : State tablesMySql :=
  (Trans.run (Trans.guarded step fun x a => quiet x a = true) (start oneAccount []) (voteActs 1 ++
    serverActs (moves 0 [.go, .go, .go, .ok, .go, .go, .go, .go, .go, .ok, .reply (.verdict .success)]))).get (by decide)

theorem records_voteAnswered :
    voteAnswered.server.records (.thread 0 .go) (.vote 0 (Str.of "u")) (Str.of "a") .success :=
  ⟨0, ⟨0, Str.of "p", .vote 0 (Str.of "u"), true, .record (Str.of "a") .success⟩, rfl, by decide, rfl, rfl⟩

theorem ok_voteAnswered (sql : SqlCall) : Ok voteAnswered (.server (.thread 0 .go) sql) := by
  refine ⟨by decide, fun c hc _ => ?_⟩
  rw [setter_of_records records_voteAnswered] at hc
  cases hc
  have hfits : (insertSql (Str.of "a") (Str.of "u")).length < 6400 := by decide
  exact ⟨hfits, fun _ => ⟨rfl, tablesMySql_alone _ _⟩, fun _ => ⟨rfl, rfl, rfl⟩⟩

def voteStored : State tablesMySql := (step voteAnswered (.server (.thread 0 .go) .success)).get (by decide)

/-- A restart, and another task for the url: its session is at the draw. -/
def voteRestarted : State tablesMySql :=
  (Trans.run (Trans.guarded step fun x a => quiet x a = true) voteStored ([.restart []] ++ voteActs 0 ++
    serverActs (moves 0 [.go, .go, .go, .ok]))).get (by decide)

theorem never_again_stored_restarted :
    ¬ voteRestarted.server.sends (.thread 0 .ok) (.vote 0 (Str.of "u")) (Str.of "a") := by
  have hanswered : Trans.Reach step Ok (start oneAccount []) voteAnswered := reach_of_quiet (Option.some_get _).symm
  have hstored : step voteAnswered (.server (.thread 0 .go) .success) = some voteStored := (Option.some_get _).symm
  have hrestarted : Trans.Reach step Ok voteStored voteRestarted := reach_of_quiet (Option.some_get _).symm
  have hrows : ((tablesMySql.rows oneAccount).map (·.1)).Nodup := by decide
  exact (never_again_stored hrows hanswered (ok_voteAnswered _) hstored hrestarted).1 0 0 (Str.of "u")
    records_voteAnswered

def voteLost : State tablesMySql := (step voteAnswered (.server (.thread 0 .go) .exception)).get (by decide)

/-- A restart, and another task for the url: its session is about to send. -/
def voteAgain : State tablesMySql :=
  (Trans.run (Trans.guarded step fun x a => quiet x a = true) voteLost ([.restart []] ++ voteActs 1 ++
    serverActs (moves 0 [.go, .go, .go, .ok, .go, .go, .go, .go, .go]))).get (by decide)

/-- The statement has to be executed: a vote that is recorded in memory only is sent again
after a restart. -/
theorem again_after_restart : ∃ (x₁ x₂ x₃ : State tablesMySql) (a b : ScheduleCenter.Act),
    Trans.Reach step Ok (start oneAccount []) x₁ ∧ step x₁ (.server a .exception) = some x₂ ∧
      Trans.Reach step Ok x₂ x₃ ∧ x₁.server.records a (.vote 0 (Str.of "u")) (Str.of "a") .success ∧
      x₃.server.sends b (.vote 0 (Str.of "u")) (Str.of "a") := by
  have hanswered : Trans.Reach step Ok (start oneAccount []) voteAnswered := reach_of_quiet (Option.some_get _).symm
  have hlost : step voteAnswered (.server (.thread 0 .go) .exception) = some voteLost := (Option.some_get _).symm
  have hagain : Trans.Reach step Ok voteLost voteAgain := reach_of_quiet (Option.some_get _).symm
  refine ⟨voteAnswered, voteLost, voteAgain, .thread 0 .go, .thread 0 .ok, hanswered, hlost, hagain, ?_, ?_⟩
  · exact records_voteAnswered
  · exact ⟨0, ⟨0, Str.of "p", .vote 0 (Str.of "u"), true, .write (Str.of "a")⟩, rfl, by decide, rfl, rfl⟩

end Restarts
end ScheduleCenter
