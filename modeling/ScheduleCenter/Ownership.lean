/-
# The sessions own what they draw

Seen from the account manager the server is a set of callers: a session
thread is in a draw or not, and holds the accounts it has drawn and not put
back. Every step of the server is answered by the callers (`owns_step`), so
what `Callers` says of ownership holds of the sessions: if no draw chooses a
node that another one has chosen and not erased, no two threads are concerned
with one account (`concerns_apart`).

Key definitions: `Pc.drawPc`, `Pc.holds`, `Pc.concerns`, `Server.Owns`, `Server.drawsApart`.
Key theorems: `Server.owns_step`, `Server.owns_of_reach`, `Server.concerns_apart`.
-/
import ScheduleCenter.Steps
import ScheduleCenter.Callers

namespace ScheduleCenter

namespace Pc

/-- Where the thread is in a draw. -/
def drawPc : Pc → DrawPc
  | .picked n => .picked n
  | .taken n acc => .taken n acc
  | _ => .free

/-- The account drawn and not yet put back. -/
def holds : Pc → Option Str
  | .check acc | .waiting acc | .asleep acc | .mark acc | .write acc | .sent acc | .record acc _ | .count acc
  | .putBack acc => some acc
  | _ => none

/-- The account the thread is drawing or holds. -/
def concerns : Pc → Option Str
  | .picked n => some n.acc
  | .taken _ acc => some acc
  | pc => pc.holds

end Pc

/-- The draw a session of this kind makes. -/
def Kind.draw (i : ℕ) : Kind → Call
  | .vote _ url => .pickNotVote i url
  | .daily => .pickNotDaily i

theorem AccountMgr.recordReply_eq (m : AccountMgr) (kind : Kind) (acc : Str) (v : Verdict) :
    m.recordReply kind acc v = m ∨ ∃ f, m.recordReply kind acc v = m.update acc f := by
  cases v with
  | success => cases kind <;> exact Or.inr ⟨_, rfl⟩
  | fatal => exact Or.inr ⟨_, rfl⟩
  | other => exact Or.inl rfl

theorem AccountMgr.pick_idle (m : AccountMgr) (kind : Kind) :
    (m.pick kind).2.idle = m.idle ∧ (m.pick kind).2.nextId = m.nextId := by
  cases kind <;> exact ⟨rfl, rfl⟩

theorem AccountMgr.mem_of_pick {m : AccountMgr} {kind : Kind} {n : Node} (h : (m.pick kind).1 = some n) :
    n ∈ m.idle := by
  cases kind with
  | vote k url => exact List.mem_of_find?_eq_some h
  | daily =>
    have h : m.pickNotDaily.1 = some n := h
    rw [pickNotDaily_fst] at h
    exact List.mem_of_find?_eq_some h

theorem AccountMgr.recordReply_idle (m : AccountMgr) (kind : Kind) (acc : Str) (v : Verdict) :
    (m.recordReply kind acc v).idle = m.idle ∧ (m.recordReply kind acc v).nextId = m.nextId := by
  rcases m.recordReply_eq kind acc v with heq | ⟨f, heq⟩ <;> rw [heq] <;> simp

namespace Server

/-- A draw does not choose a node that another one has chosen and not erased. -/
def drawsApart (s : Server) : Act → Bool
  | .thread i _ => (s.threads[i]?).all fun t => t.pc ≠ .draw ||
      (s.accounts.pick t.kind).1.all fun n => s.threads.all fun u => u.pc.drawPc.node ≠ some n
  | _ => true

/-- The caller is where the thread is and holds what it holds. -/
structure Follows (u : Thread) (c : Caller) : Prop where
  pc : c.pc = u.pc.drawPc
  held : ∀ acc, u.pc.holds = some acc → acc ∈ c.held

/-- The callers the account manager sees. -/
structure Owns (s : Server) (c : Callers) : Prop where
  mgr : c.mgr = s.accounts
  threads : List.Forall₂ Follows s.threads c.callers

section Step

variable {s s' s₁ : Server} {cs : Callers} {t t' : Thread} {c c' : Caller} {i : ℕ} {inp : Input} {pc : Pc} {b : Bool}

theorem Owns.set (h : Owns s cs) (s₁ : Server) (c' : Caller) (hf : Follows t' c') :
    Owns { s₁ with threads := s.threads.set i t' } ⟨s₁.accounts, cs.callers.set i c'⟩ :=
  ⟨rfl, Counting.forall₂_set hf i h.threads⟩

/-- The thread moves where the account manager does not see it. -/
theorem Owns.stay (h : Owns s cs) (hc : cs.callers[i]? = some c) (hm : s₁.accounts = s.accounts)
    (hf : Follows t' c) : Owns { s₁ with threads := s.threads.set i t' } cs := by
  have hset := Counting.forall₂_set hf i h.threads
  obtain ⟨hlt, hget⟩ := List.getElem?_eq_some_iff.mp hc
  rw [← hget, List.set_getElem_self] at hset
  exact ⟨h.mgr.trans hm.symm, hset⟩

/-- A setter runs; nobody's place changes. -/
theorem Owns.setters (h : Owns s cs) (hc : cs.callers[i]? = some c) {m : AccountMgr} (hm : s₁.accounts = m)
    (hf : Follows t' c) : Owns { s₁ with threads := s.threads.set i t' } { cs with mgr := m } :=
  ⟨hm.symm, (h.stay hc (rfl : s.accounts = s.accounts) hf).threads⟩

theorem Owns.choose (h : Owns s cs) (ht : s.threads[i]? = some t) (hc : cs.callers[i]? = some c)
    (hf : Follows t c) (hpc : t.pc = .draw) (ha : s.drawsApart (.thread i inp) = true) :
    Trans.Reach Callers.step (fun s a => s.drawsApart a = true) cs
      ⟨(s.accounts.pick t.kind).2,
        cs.callers.set i { c with pc := (s.accounts.pick t.kind).1.elim .free .picked }⟩ := by
  have hchoice : cs.choice (t.kind.draw i) = (s.accounts.pick t.kind).1 := by
    rw [← h.mgr]
    cases t.kind <;> rfl
  have hfree : c.pc = .free := by rw [hf.pc, hpc]; rfl
  refine Trans.Reach.single (a := t.kind.draw i) ?_ ?_
  · simp only [drawsApart, ht, Option.all_some, hpc, ne_eq, not_true, decide_false, Bool.false_or] at ha
    rw [Callers.drawsApart, hchoice]
    cases hn : (s.accounts.pick t.kind).1 with
    | none => rfl
    | some n =>
      rw [hn] at ha
      simp only [Option.all_some, List.all_eq_true, decide_eq_true_eq] at ha ⊢
      intro d hd
      obtain ⟨j, hj⟩ := List.mem_iff_getElem?.mp hd
      obtain ⟨u, hu, hfu⟩ := Counting.forall₂_getElem? h.threads.flip hj
      have hfu : Follows u d := hfu
      rw [hfu.pc]
      exact ha u (List.mem_of_getElem? hu)
  · have hstep : cs.step (t.kind.draw i) = cs.choose i (cs.mgr.pick t.kind) := by
      cases t.kind <;> rfl
    rw [hstep, h.mgr, Callers.choose]
    simp [hc, hfree]

/-- What the callers answer to a step of thread `i`. -/
theorem owns_thread (h : Owns s cs) (ht : s.threads[i]? = some t) (hs : SessionCase s t t.pc inp pc b s₁)
    (ha : s.drawsApart (.thread i inp) = true) :
    ∃ cs', Owns { s₁ with threads := s.threads.set i { t with pc := pc, sock := b } } cs' ∧
      Trans.Reach Callers.step (fun s a => s.drawsApart a = true) cs cs' := by
  obtain ⟨c, hc, hf⟩ := Counting.forall₂_getElem? h.threads ht
  have hpcc := hf.pc
  have hheld := hf.held
  generalize hpc : t.pc = pc₀ at hs
  rw [hpc] at hpcc hheld
  have hfollow : ∀ {pc' : Pc} {b' : Bool} {d : DrawPc} {l : List Str}, d = pc'.drawPc →
      (∀ acc, pc'.holds = some acc → acc ∈ l) → Follows { t with pc := pc', sock := b' } ⟨d, l⟩ :=
    fun h1 h2 => ⟨h1, h2⟩
  cases hs
  case pick n hn =>
    exact ⟨_, h.set _ _ (hfollow (by rw [hn]; rfl) (by simp [Pc.holds])), h.choose ht hc hf hpc ha⟩
  case empty hn =>
    exact ⟨_, h.set _ _ (hfollow (by rw [hn]; rfl) (by simp [Pc.holds])), h.choose ht hc hf hpc ha⟩
  case deref n =>
    refine ⟨_, h.set s ⟨.taken n n.acc, c.held⟩ (hfollow rfl (by simp [Pc.holds])),
      Trans.Reach.single (a := .deref i) rfl ?_⟩
    simp [Callers.step, hc, hpcc, Pc.drawPc, h.mgr]
  case eraseVote n acc hk =>
    refine ⟨_, h.set _ ⟨.free, acc :: c.held⟩ (hfollow rfl (by simp [Pc.holds])),
      Trans.Reach.single (a := .erase i) rfl ?_⟩
    simp [Callers.step, hc, hpcc, Pc.drawPc, h.mgr]
  case eraseDaily n acc hk =>
    refine ⟨_, h.set _ ⟨.free, acc :: c.held⟩ (hfollow rfl (by simp [Pc.holds])),
      Trans.Reach.single (a := .erase i) rfl ?_⟩
    simp [Callers.step, hc, hpcc, Pc.drawPc, h.mgr]
  case putBack acc =>
    refine ⟨_, h.set _ ⟨c.pc, c.held.erase acc⟩ (hfollow hpcc (by simp [Pc.holds])),
      Trans.Reach.single (a := .setIdleAccount i acc) rfl ?_⟩
    simp [Callers.step, hc, hpcc, Pc.drawPc, h.mgr, hheld acc rfl]
  case recordVote acc hk =>
    have hf' : Follows { t with pc := .count acc, sock := t.sock } c := ⟨hpcc, hheld⟩
    rcases s.accounts.recordReply_eq t.kind acc .success with heq | ⟨f, heq⟩
    · exact ⟨cs, h.stay hc heq hf', .refl⟩
    · refine ⟨_, h.setters hc heq hf', Trans.Reach.single (a := .update acc f) rfl ?_⟩
      simp [Callers.step, h.mgr]
  case record acc v hv =>
    have hf' : Follows { t with pc := .putBack acc, sock := t.sock } c := ⟨hpcc, hheld⟩
    rcases s.accounts.recordReply_eq t.kind acc v with heq | ⟨f, heq⟩
    · exact ⟨cs, h.stay hc heq hf', .refl⟩
    · refine ⟨_, h.setters hc heq hf', Trans.Reach.single (a := .update acc f) rfl ?_⟩
      simp [Callers.step, h.mgr]
  case letOn acc k hk hw hpcs =>
    refine ⟨cs, h.stay hc rfl ?_, .refl⟩
    rcases hpcs with rfl | rfl <;> exact ⟨hpcc, hheld⟩
  case hold acc k hk hw hpcs =>
    refine ⟨cs, h.stay hc rfl ?_, .refl⟩
    rcases hpcs with rfl | rfl <;> exact ⟨hpcc, hheld⟩
  all_goals
    refine ⟨cs, h.stay hc rfl ⟨hpcc, ?_⟩, .refl⟩
    first
      | exact hheld
      | intro acc hacc
        cases hacc

end Step

/-! ### The whole server -/

/-- New threads are new callers. -/
theorem reach_arrive (cs : Callers) : ∀ n : ℕ, Trans.Reach Callers.step (fun s a => s.drawsApart a = true) cs
    { cs with callers := cs.callers ++ List.replicate n ⟨.free, []⟩ }
  | 0 => by
    rw [List.replicate_zero, List.append_nil]
    exact .refl
  | n + 1 => by
    refine .tail (reach_arrive cs n) (a := .arrive) rfl ?_
    rw [List.replicate_succ', ← List.append_assoc]
    rfl

theorem Owns.append {s s' : Server} {cs : Callers} (h : Owns s cs) {l : List Thread} (hl : ∀ u ∈ l, u.pc = .init)
    (hs : s'.threads = s.threads ++ l) (hm : s'.accounts = s.accounts) :
    ∃ cs', Owns s' cs' ∧ Trans.Reach Callers.step (fun s a => s.drawsApart a = true) cs cs' := by
  refine ⟨{ cs with callers := cs.callers ++ List.replicate l.length ⟨.free, []⟩ }, ⟨h.mgr.trans hm.symm, ?_⟩,
    reach_arrive cs l.length⟩
  rw [hs]
  refine List.rel_append h.threads ?_
  refine List.forall₂_iff_get.mpr ⟨by simp, fun j hj _ => ?_⟩
  have hpc := hl _ (List.get_mem l ⟨j, hj⟩)
  simp only [List.get_eq_getElem, List.getElem_replicate] at hpc ⊢
  exact ⟨by rw [hpc]; rfl, by simp [hpc, Pc.holds]⟩

theorem owns_step {s s' : Server} {a : Act} {cs : Callers} (h : Owns s cs) (ha : s.drawsApart a = true)
    (hs : s.step a = some s') :
    ∃ cs', Owns s' cs' ∧ Trans.Reach Callers.step (fun s a => s.drawsApart a = true) cs cs' := by
  cases (step_cases hs).2
  case thread ht hc => exact owns_thread h ht hc ha
  case restart t hm ht => exact h.append (by simp) rfl rfl
  case dailyTask => exact h.append (fun u hu => init_of_mem_mapIdx hu) rfl rfl
  case voteSpawn => exact h.append (fun u hu => init_of_mem_mapIdx hu) rfl rfl
  case reset acc todo hm =>
    exact ⟨{ cs with mgr := s.accounts.setEverydayTask acc dailytaskNotFinished }, ⟨rfl, h.threads⟩,
      Trans.Reach.single (a := .update acc fun p => { p with everydayTaskCompleted := dailytaskNotFinished }) rfl
        (by simp [Callers.step, h.mgr, AccountMgr.setEverydayTask])⟩
  all_goals exact ⟨cs, ⟨h.mgr, h.threads⟩, .refl⟩

/-- The server a run from `boot` reaches, seen from the account manager. -/
theorem owns_of_reach {rows : List (Str × AccountPro)} {ips : List Str} {s : Server}
    (hr : Trans.Reach step (fun s a => s.drawsApart a = true) (boot rows ips) s) :
    ∃ cs, Owns s cs ∧ Callers.Owned (rows.map (·.1)) cs := by
  have hboot : Owns (boot rows ips) ⟨AccountMgr.loadData rows, []⟩ := ⟨rfl, .nil⟩
  obtain ⟨cs, ho, hr'⟩ := hr.simulate hboot fun s a s' cs h _ ha hs => owns_step h ha hs
  have h₀ := Callers.owned_of_free (s := ⟨AccountMgr.loadData rows, []⟩) (AccountMgr.loadData_idle rows).1 (by simp)
  rw [(AccountMgr.loadData_idle rows).2] at h₀
  exact ⟨cs, ho, hr'.invariant h₀ fun _ _ _ h ha hs => Callers.owned_step h ha hs⟩

/-! ### No account concerns two threads -/

/-- No two threads are drawing or holding the same account. -/
def Apart (s : Server) : Prop :=
  ∀ (i j : ℕ) (t u : Thread) (acc : Str), s.threads[i]? = some t → s.threads[j]? = some u → t.pc.concerns = some acc →
    u.pc.concerns = some acc → i = j

theorem Owns.concerns {s : Server} {names : List Str} {cs : Callers} (h : Owns s cs) (ho : Callers.Owned names cs)
    {i : ℕ} {t : Thread} {acc : Str} (ht : s.threads[i]? = some t) (hacc : t.pc.concerns = some acc) :
    cs.Concerns i acc := by
  obtain ⟨c, hc, hf⟩ := Counting.forall₂_getElem? h.threads ht
  have hpc := hf.pc
  have hheld := hf.held
  cases htpc : t.pc <;> rw [htpc] at hpc hheld hacc
  case picked n => exact Or.inl ⟨n, ⟨c, hc, by rw [hpc]; rfl⟩, Option.some.inj hacc⟩
  case taken n acc' =>
    refine Or.inl ⟨n, ⟨c, hc, by rw [hpc]; rfl⟩, ?_⟩
    rw [← ho.acc c (List.mem_of_getElem? hc) n acc' hpc]
    exact Option.some.inj hacc
  all_goals exact Or.inr ⟨c, hc, hheld acc hacc⟩

theorem concerns_apart {rows : List (Str × AccountPro)} {ips : List Str} (hrows : (rows.map (·.1)).Nodup)
    {s : Server} (hr : Trans.Reach step (fun s a => s.drawsApart a = true) (boot rows ips) s) : Apart s := by
  obtain ⟨cs, ho, hown⟩ := owns_of_reach hr
  intro i j t u acc hi hj ht hu
  exact hown.concerns_inj hrows (ho.concerns hown hi ht) (ho.concerns hown hj hu)

end Server
end ScheduleCenter
