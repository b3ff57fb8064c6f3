/-
# What a session does not put back

A session takes an account off `idle_accounts` in the draw and puts it back in
one branch of `handle_read`, after a reply it can read. On every other way
from the one to the other the account is lost: the write fails, the read fails
or times out, the reply is malformed, or `need_vote` turns false while the
session waits (`loses`). Over a run, what a session drew is what it put back
and what it lost (`drawn_eq`), so it has put back everything exactly if no step
of it loses an account, and only then is `idle_accounts` the same after a
session that ran alone (`returned_iff`).

Key definitions: `Server.drawn`, `Server.returned`, `Server.loses`, `Server.losesNothing`.
Key theorems: `Server.held_step`, `Server.drawn_eq`, `Server.idle_step`, `Server.idle_eq`,
`Server.returned_iff`, `Server.not_returned`.
-/
import ScheduleCenter.Ownership
import Mathlib.Algebra.Order.Group.Multiset

namespace ScheduleCenter

namespace Pc

/-- The account held, as a multiset. -/
def held (pc : Pc) : Multiset Str := pc.holds.elim 0 fun acc => {acc}

/-- The account a step from here takes off `idle_accounts`. -/
def draws : Pc → Multiset Str
  | .taken _ acc => {acc}
  | _ => 0

/-- The account a step from here puts back. -/
def returns : Pc → Multiset Str
  | .putBack acc => {acc}
  | _ => 0

end Pc

namespace Server

/-- The step drops the account the thread holds. -/
def loses (s : Server) (t : Thread) (inp : Input) : Bool :=
  match t.pc, inp with
  | .write _, .err => true
  | .sent _, .reply .badJson => true
  | .sent _, .reply .throws => true
  | .sent _, .readError => true
  | .sent _, .expired => true
  | .waiting _, .go => t.kind.task.any fun k => !(s.vote k).needVote
  | _, _ => false

/-- What `f` says of the steps of thread `i`; nothing at other steps. -/
def ofThread (i : ℕ) (f : Server → Thread → Input → Multiset Str) (s : Server) : Act → Multiset Str
  | .thread j inp => if j = i then (s.threads[i]?).elim 0 fun t => f s t inp else 0
  | _ => 0

/-- What the step hands to thread `i`. -/
def drawn (i : ℕ) : Server → Act → Multiset Str := ofThread i fun _ t _ => t.pc.draws

/-- What the step puts back for thread `i`. -/
def returned (i : ℕ) : Server → Act → Multiset Str := ofThread i fun _ t _ => t.pc.returns

/-- What the step makes thread `i` lose. -/
def lost (i : ℕ) : Server → Act → Multiset Str :=
  ofThread i fun s t inp => if s.loses t inp then t.pc.held else 0

/-- The step does not make thread `i` lose an account. -/
def losesNothing (i : ℕ) (s : Server) : Act → Prop
  | .thread j inp => j = i → ∀ t, s.threads[i]? = some t → s.loses t inp = false
  | _ => True

/-- What thread `i` holds. -/
def heldBy (i : ℕ) (s : Server) : Multiset Str := (s.threads[i]?).elim 0 fun t => t.pc.held

/-! ### One step -/

section Step

variable {s s' s₁ : Server} {a : Act} {t : Thread} {i : ℕ} {inp : Input} {pc : Pc} {b : Bool}

/-- What the moving thread holds, gives back, loses and is given. -/
theorem SessionCase.held (hc : SessionCase s t t.pc inp pc b s₁) :
    pc.held + (t.pc.returns + if s.loses t inp then t.pc.held else 0) = t.pc.held + t.pc.draws := by
  unfold loses
  generalize hpc : t.pc = pc₀ at hc
  cases hc
  case letOn acc k hk hw hpcs => rcases hpcs with rfl | rfl <;> simp [Pc.held, Pc.holds, Pc.returns, Pc.draws]
  case hold acc k hk hw hpcs => rcases hpcs with rfl | rfl <;> simp [Pc.held, Pc.holds, Pc.returns, Pc.draws]
  case die acc r hr => rcases hr with rfl | ⟨rfl, -⟩ <;> simp [Pc.held, Pc.holds, Pc.returns, Pc.draws]
  all_goals simp_all [Pc.held, Pc.holds, Pc.returns, Pc.draws]

/-- New threads hold nothing. -/
theorem heldBy_append {l : List Thread} (hl : ∀ u ∈ l, u.pc = .init) (hs : s'.threads = s.threads ++ l) (i : ℕ) :
    s'.heldBy i = s.heldBy i := by
  unfold heldBy
  rw [hs]
  by_cases hi : i < s.threads.length
  · rw [List.getElem?_append_left hi]
  · rw [List.getElem?_append_right (by omega), List.getElem?_eq_none (by omega : s.threads.length ≤ i)]
    cases hu : l[i - s.threads.length]? with
    | none => rfl
    | some u =>
      have hpc := hl u (List.mem_of_getElem? hu)
      simp [hpc, Pc.held, Pc.holds]

theorem held_step (i : ℕ) (h : s.step a = some s') :
    s'.heldBy i + (returned i s a + lost i s a) = s.heldBy i + drawn i s a := by
  have hzero : (returned i s a = 0 ∧ lost i s a = 0 ∧ drawn i s a = 0) → s'.heldBy i = s.heldBy i →
      s'.heldBy i + (returned i s a + lost i s a) = s.heldBy i + drawn i s a := by
    rintro ⟨h1, h2, h3⟩ h4
    rw [h1, h2, h3, h4, add_zero]
  cases (step_cases h).2
  case thread j inp t pc b s₁ ht hc =>
    have hlt := (List.getElem?_eq_some_iff.mp ht).1
    by_cases hji : j = i
    · subst hji
      have hheld := hc.held
      simp only [heldBy, returned, lost, drawn, ofThread, if_true, List.getElem?_set_self hlt, ht, Option.elim_some]
      exact hheld
    · refine hzero ⟨if_neg hji, if_neg hji, if_neg hji⟩ ?_
      simp only [heldBy, List.getElem?_set_ne hji]
  case restart ses t hm ht => exact hzero ⟨rfl, rfl, rfl⟩ (heldBy_append (by simp) rfl i)
  case dailyTask hm => exact hzero ⟨rfl, rfl, rfl⟩ (heldBy_append (fun u hu => init_of_mem_mapIdx hu) rfl i)
  case voteSpawn target url hw =>
    exact hzero ⟨rfl, rfl, rfl⟩ (heldBy_append (fun u hu => init_of_mem_mapIdx hu) rfl i)
  all_goals exact hzero ⟨rfl, rfl, rfl⟩ rfl

/-! ### A whole run of one session -/

/-- What a session drew from its creation to its end is what it put back and
what it lost. -/
theorem drawn_eq {as : List Act} {t' : Thread} (hrun : Trans.run step s as = some s') (ht : s.threads[i]? = some t)
    (hpc : t.pc = .init) (ht' : s'.threads[i]? = some t') (hdone : t'.pc = .done) :
    Trans.total step (drawn i) s as = Trans.total step (returned i) s as + Trans.total step (lost i) s as := by
  have hbal : s'.heldBy i + Trans.total step (fun s a => returned i s a + lost i s a) s as =
      s.heldBy i + Trans.total step (drawn i) s as :=
    Trans.run_balance (heldBy i) (drawn i) (fun s a => returned i s a + lost i s a) (I := fun _ => True)
      (fun _ _ _ _ _ => trivial) (fun _ _ _ _ h => held_step i h) trivial hrun
  have h0 : s.heldBy i = 0 := by simp [heldBy, ht, hpc, Pc.held, Pc.holds]
  have h1 : s'.heldBy i = 0 := by simp [heldBy, ht', hdone, Pc.held, Pc.holds]
  rw [h0, h1, zero_add, zero_add, Trans.total_add hrun] at hbal
  exact hbal.symm

theorem held_ne_zero_of_loses (h : s.loses t inp = true) : t.pc.held ≠ 0 := by
  unfold loses at h
  split at h
  all_goals simp_all [Pc.held, Pc.holds]

theorem lost_eq_zero_iff : lost i s a = 0 ↔ losesNothing i s a := by
  cases a <;> try exact ⟨fun _ => trivial, fun _ => rfl⟩
  rename_i j inp
  show (if j = i then (s.threads[i]?).elim 0 fun t => if s.loses t inp then t.pc.held else 0 else 0) = 0 ↔
    (j = i → ∀ t, s.threads[i]? = some t → s.loses t inp = false)
  by_cases hji : j = i
  · rw [if_pos hji]
    cases ht : s.threads[i]? with
    | none => simp
    | some t =>
      cases hl : s.loses t inp
      · simp [hl]
      · simp [hl, hji, held_ne_zero_of_loses hl]
  · simp [hji]

/-! ### The list, when the session runs alone -/

theorem SessionCase.nodesDistinct (hc : SessionCase s t t.pc inp pc b s₁) (h : s.accounts.NodesDistinct) :
    s₁.accounts.NodesDistinct := by
  generalize t.pc = pc₀ at hc
  cases hc
  case pick n hn => exact h.of_idle_eq (AccountMgr.pick_idle _ _).1 (AccountMgr.pick_idle _ _).2
  case empty hn => exact h.of_idle_eq (AccountMgr.pick_idle _ _).1 (AccountMgr.pick_idle _ _).2
  case eraseVote n acc hk => exact h.eraseIdle n
  case eraseDaily n acc hk => exact h.eraseIdle n
  case recordVote acc hk =>
    exact h.of_idle_eq (AccountMgr.recordReply_idle _ _ _ _).1 (AccountMgr.recordReply_idle _ _ _ _).2
  case record acc v hv =>
    exact h.of_idle_eq (AccountMgr.recordReply_idle _ _ _ _).1 (AccountMgr.recordReply_idle _ _ _ _).2
  case putBack acc => exact h.setIdleAccount acc
  all_goals exact h

theorem nodesDistinct_step (h : s.accounts.NodesDistinct) (hs : s.step a = some s') : s'.accounts.NodesDistinct := by
  cases (step_cases hs).2
  case thread ht hc => exact hc.nodesDistinct h
  case reset acc todo hm => exact h.of_idle_eq (AccountMgr.update_idle _ _ _) (AccountMgr.update_nextId _ _ _)
  all_goals exact h

/-- The node the thread has chosen is in the list, and the account it has read
is that node's. -/
def Tracks (s : Server) (t : Thread) : Prop :=
  (∀ n, t.pc.drawPc.node = some n → n ∈ s.accounts.idle) ∧ ∀ n acc, t.pc = .taken n acc → acc = n.acc

theorem SessionCase.tracks (hc : SessionCase s t t.pc inp pc b s₁) (h : s.Tracks t) :
    s₁.Tracks { t with pc := pc, sock := b } := by
  have hpick : ∀ n, (s.accounts.pick t.kind).1 = some n → n ∈ (s.accounts.pick t.kind).2.idle := fun n hn => by
    rw [(AccountMgr.pick_idle _ _).1]
    exact AccountMgr.mem_of_pick hn
  unfold Tracks at h ⊢
  generalize hpc : t.pc = pc₀ at hc
  rw [hpc] at h
  cases hc
  all_goals simp_all [Pc.drawPc, DrawPc.node]

/-- What a step of the only thread does to the list. -/
theorem SessionCase.idle (hc : SessionCase s t t.pc inp pc b s₁) (hd : s.accounts.NodesDistinct) (h : s.Tracks t) :
    (s₁.accounts.idleAccs : Multiset Str) + t.pc.draws = s.accounts.idleAccs + t.pc.returns := by
  have herase : ∀ n acc, t.pc = .taken n acc →
      ((s.accounts.eraseIdle n).idleAccs : Multiset Str) + {acc} = s.accounts.idleAccs := by
    intro n acc hpc
    have hmem : n ∈ s.accounts.idle := h.1 n (by rw [hpc]; rfl)
    rw [h.2 n acc hpc, AccountMgr.idleAccs, AccountMgr.idleAccs,
      Multiset.coe_eq_coe.mpr ((hd.perm_eraseIdle hmem).map (·.acc)), List.map_cons, ← Multiset.cons_coe,
      Multiset.add_comm, Multiset.singleton_add]
  generalize hpc : t.pc = pc₀ at hc herase
  cases hc
  case eraseVote n acc hk => simpa [Pc.draws, Pc.returns] using herase n acc rfl
  case eraseDaily n acc hk => simpa [Pc.draws, Pc.returns] using herase n acc rfl
  case pick n hn => simp [Pc.draws, Pc.returns, AccountMgr.idleAccs, AccountMgr.pick_idle]
  case empty hn => simp [Pc.draws, Pc.returns, AccountMgr.idleAccs, AccountMgr.pick_idle]
  case recordVote acc hk => simp [Pc.draws, Pc.returns, AccountMgr.idleAccs, AccountMgr.recordReply_idle]
  case record acc v hv => simp [Pc.draws, Pc.returns, AccountMgr.idleAccs, AccountMgr.recordReply_idle]
  case putBack acc => simp [Pc.draws, Pc.returns, ← Multiset.coe_add]
  case letOn acc k hk hw hpcs => rcases hpcs with rfl | rfl <;> rfl
  case hold acc k hk hw hpcs => rcases hpcs with rfl | rfl <;> rfl
  all_goals simp [Pc.draws, Pc.returns]

theorem idle_step (h : s.accounts.NodesDistinct ∧ ∀ t, s.threads[i]? = some t → s.Tracks t)
    (hs : s.step (.thread i inp) = some s') :
    (s'.accounts.NodesDistinct ∧ ∀ t, s'.threads[i]? = some t → s'.Tracks t) ∧
      (s'.accounts.idleAccs : Multiset Str) + drawn i s (.thread i inp) =
        s.accounts.idleAccs + returned i s (.thread i inp) := by
  have hnodes := nodesDistinct_step h.1 hs
  obtain ⟨t, pc, b, s₁, ht, hc, rfl⟩ := step_thread hs
  have hlt := (List.getElem?_eq_some_iff.mp ht).1
  refine ⟨⟨hnodes, fun u hu => ?_⟩, ?_⟩
  · rw [List.getElem?_set_self hlt] at hu
    obtain rfl := Option.some.inj hu
    have htracks := hc.tracks (h.2 t ht)
    exact htracks
  · have hidle := hc.idle h.1 (h.2 t ht)
    simp only [drawn, returned, ofThread, if_true, ht, Option.elim_some]
    exact hidle

end Step

/-- After a session that ran alone, `idle_accounts` has lost what the session
drew and has what it put back. -/
theorem idle_eq {s s' : Server} {i : ℕ} {t : Thread} {inps : List Input} (hd : s.accounts.NodesDistinct)
    (ht : s.threads[i]? = some t) (hpc : t.pc = .init) (hrun : Trans.run step s (moves i inps) = some s') :
    (s'.accounts.idleAccs : Multiset Str) + Trans.total step (drawn i) s (moves i inps) =
      s.accounts.idleAccs + Trans.total step (returned i) s (moves i inps) := by
  unfold moves at hrun ⊢
  rw [Trans.run_map] at hrun
  rw [Trans.total_map, Trans.total_map]
  refine Trans.run_balance (fun s => (s.accounts.idleAccs : Multiset Str)) _ _
    (I := fun s => s.accounts.NodesDistinct ∧ ∀ t, s.threads[i]? = some t → s.Tracks t)
    (fun _ _ _ h hs => (idle_step h hs).1) (fun _ _ _ h hs => (idle_step h hs).2) ⟨hd, fun u hu => ?_⟩ hrun
  rw [ht] at hu
  obtain rfl := Option.some.inj hu
  exact ⟨fun n hn => by simp [hpc, Pc.drawPc, DrawPc.node] at hn, fun n acc hn => by simp [hpc] at hn⟩

/-! ### What comes back -/

/-- **What a session does not put back.** Over any run of the server, the
accounts a session drew between its creation and its end are those it put back
exactly if no step of the run makes it lose one; and if the session ran alone,
`idle_accounts` is then, and only then, what it was. -/
theorem returned_iff {rows : List (Str × AccountPro)} {ips : List Str} {s s' : Server} {i : ℕ} {t t' : Thread}
    {as : List Act} (hr : Trans.Reach step (fun _ _ => True) (boot rows ips) s) (ht : s.threads[i]? = some t)
    (hpc : t.pc = .init) (hrun : Trans.run step s as = some s') (ht' : s'.threads[i]? = some t') (hdone : t'.pc = .done) :
    (Trans.total step (drawn i) s as = Trans.total step (returned i) s as ↔
        Trans.Along step (losesNothing i) s as) ∧
      ∀ inps, as = moves i inps →
        ((s'.accounts.idleAccs : Multiset Str) = s.accounts.idleAccs ↔ Trans.Along step (losesNothing i) s as) := by
  have hdrawn := drawn_eq hrun ht hpc ht' hdone
  have hlost : Trans.total step (lost i) s as = 0 ↔ Trans.Along step (losesNothing i) s as := by
    have hzero : ∀ x y : Multiset Str, x + y = 0 ↔ x = 0 ∧ y = 0 := fun x y => by
      rw [← Multiset.card_eq_zero, Multiset.card_add, Nat.add_eq_zero_iff, Multiset.card_eq_zero, Multiset.card_eq_zero]
    rw [Trans.total_eq_zero_iff hzero hrun]
    have hiff : (fun s a => lost i s a = 0) = losesNothing i := by
      funext s a
      exact propext lost_eq_zero_iff
    rw [hiff]
  refine ⟨?_, ?_⟩
  · rw [hdrawn, ← hlost]
    exact add_eq_left
  · rintro inps rfl
    have hd : s.accounts.NodesDistinct := hr.invariant (I := fun s => s.accounts.NodesDistinct)
      (AccountMgr.loadData_idle rows).1 fun _ _ _ h _ hs => nodesDistinct_step h hs
    have hidle := idle_eq hd ht hpc hrun
    rw [hdrawn, ← add_assoc, add_right_comm] at hidle
    rw [← hlost, ← add_right_cancel hidle]
    exact left_eq_add

/-! ### One phone, one account -/

/-- A vote session is created. -/
def soloStart : Server :=
  (Trans.run step (boot [(Str.of "a", default)] [])
    (connects [Str.of "p"] ++ [.voteAdmit 1 (Str.of "u"), .voteSpawn])).get (by decide)

/-- The session up to its first write. -/
def toWrite : List Input := [.go, .go, .go, .ok, .go, .go, .go, .go, .go]

/-- The vote succeeds; nothing is left to draw. -/
def toVoted : List Input := toWrite ++ [.ok, .reply (.verdict .success), .go, .go, .go, .go, .go, .go]

/-- The write fails; nothing is left to draw. -/
def toLost : List Input := toWrite ++ [.err, .go, .go]

def soloVoted : Server := (Trans.run step soloStart (moves 0 toVoted)).get (by decide)

def soloLost : Server := (Trans.run step soloStart (moves 0 toLost)).get (by decide)

theorem soloStart_reach : Trans.Reach step (fun _ _ => True) (boot [(Str.of "a", default)] []) soloStart :=
  have hrun : Trans.run step _ (connects [Str.of "p"] ++ [.voteAdmit 1 (Str.of "u"), .voteSpawn]) = some soloStart :=
    (Option.some_get _).symm
  Trans.Reach.of_run hrun

theorem returned_iff_voted :
    (Trans.total step (drawn 0) soloStart (moves 0 toVoted) = Trans.total step (returned 0) soloStart (moves 0 toVoted) ↔
        Trans.Along step (losesNothing 0) soloStart (moves 0 toVoted)) ∧
      ∀ inps, moves 0 toVoted = moves 0 inps → ((soloVoted.accounts.idleAccs : Multiset Str) =
        soloStart.accounts.idleAccs ↔ Trans.Along step (losesNothing 0) soloStart (moves 0 toVoted)) :=
  returned_iff (t := ⟨0, Str.of "p", .vote 0 (Str.of "u"), false, .init⟩) soloStart_reach (by decide) rfl
    (Option.some_get _).symm (by decide : soloVoted.threads[0]? = some ⟨0, Str.of "p", .vote 0 (Str.of "u"), false, .done⟩)
    rfl

/-- Without the condition an account is gone. -/
theorem not_returned :
    ¬ ∀ (rows : List (Str × AccountPro)) (ips : List Str) (s s' : Server) (i : ℕ) (t t' : Thread) (inps : List Input),
      Trans.Reach step (fun _ _ => True) (boot rows ips) s → s.threads[i]? = some t → t.pc = .init →
      Trans.run step s (moves i inps) = some s' → s'.threads[i]? = some t' → t'.pc = .done →
      (s'.accounts.idleAccs : Multiset Str) = s.accounts.idleAccs := fun h =>
  have hrun : Trans.run step soloStart (moves 0 toLost) = some soloLost := (Option.some_get _).symm
  absurd (h _ [] soloStart soloLost 0 ⟨0, Str.of "p", .vote 0 (Str.of "u"), false, .init⟩
    ⟨0, Str.of "p", .vote 0 (Str.of "u"), false, .done⟩ _ soloStart_reach (by decide) rfl hrun (by decide) rfl) (by decide)

end Server
end ScheduleCenter
