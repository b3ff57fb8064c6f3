/-
# The sessions put back what they have drawn

The sessions call `set_idle_account` at the end of `handle_read`, with the account
that `on_connected` has drawn. So in every run of the server from `load_data` the list
and the sessions have no accounts but those of the table (`within_of_reach`), and the
draws of the sessions leave the table as it is (`pick_of_reach`).

Key definitions: `Server.Drawn`.
Key theorems: `SessionCase.within`, `Server.within_of_reach`, `Server.pick_of_reach`.
-/
import ScheduleCenter.Lookups
import ScheduleCenter.Ownership
import ScheduleCenter.VoteTask

namespace ScheduleCenter

namespace AccountMgr

variable {names : List Str} {m : AccountMgr}

theorem Within.pick_snd (h : Within names m) : ∀ kind : Kind, (m.pick kind).2 = m
  | .vote _ _ => rfl
  | .daily => h.pickNotDaily_snd

theorem Within.recordReply (h : Within names m) (kind : Kind) (acc : Str) (v : Verdict) :
    Within names (m.recordReply kind acc v) := by
  rcases m.recordReply_eq kind acc v with heq | ⟨f, heq⟩
  · rw [heq]
    exact h
  · rw [heq]
    exact h.update acc f

end AccountMgr

namespace Server

open AccountMgr

/-- The table has the accounts `names`, and the list and the sessions have no others. -/
structure Drawn (names : List Str) (s : Server) : Prop where
  accounts : Within names s.accounts
  threads : ∀ t ∈ s.threads, ∀ acc, t.pc.concerns = some acc → acc ∈ names

variable {names : List Str} {s s' s₁ : Server} {t : Thread} {pc : Pc} {inp : Input} {b : Bool} {a : Act}

/-- A step of a session. -/
theorem SessionCase.within (hs : SessionCase s t t.pc inp pc b s₁) (h : Within names s.accounts)
    (ht : ∀ acc, t.pc.concerns = some acc → acc ∈ names) :
    Within names s₁.accounts ∧ ∀ acc, pc.concerns = some acc → acc ∈ names := by
  generalize t.pc = pc₀ at hs ht
  cases hs
  case empty hn =>
    refine ⟨?_, fun acc hacc => by cases hacc⟩
    show Within names (s.accounts.pick t.kind).2
    rw [h.pick_snd]
    exact h
  case pick n hn =>
    refine ⟨?_, fun acc hacc => ?_⟩
    · show Within names (s.accounts.pick t.kind).2
      rw [h.pick_snd]
      exact h
    · cases hacc
      exact h.idle n (mem_of_pick hn)
  case eraseVote n acc hk => exact ⟨h.eraseIdle n, ht⟩
  case eraseDaily n acc hk => exact ⟨h.eraseIdle n, ht⟩
  case recordVote acc hk => exact ⟨h.recordReply t.kind acc .success, ht⟩
  case record acc v hv => exact ⟨h.recordReply t.kind acc v, ht⟩
  case putBack acc => exact ⟨h.setIdleAccount (ht acc rfl), fun acc hacc => by cases hacc⟩
  case letOn acc k hk hw hpcs => exact ⟨h, by rcases hpcs with rfl | rfl <;> exact ht⟩
  case hold acc k hk hw hpcs => exact ⟨h, by rcases hpcs with rfl | rfl <;> exact ht⟩
  all_goals
    refine ⟨h, ?_⟩
    first
      | exact ht
      | intro acc hacc
        cases hacc

/-- Threads that have not taken a step are in no draw. -/
theorem Drawn.append (h : Drawn names s) {l : List Thread} (hl : ∀ u ∈ l, u.pc = .init)
    (hthreads : s'.threads = s.threads ++ l) (haccounts : s'.accounts = s.accounts) : Drawn names s' where
  accounts := haccounts ▸ h.accounts
  threads u hu acc hacc := by
    rw [hthreads] at hu
    rcases List.mem_append.mp hu with hu | hu
    · exact h.threads u hu acc hacc
    · rw [hl u hu] at hacc
      cases hacc

/-- **One step.** -/
theorem drawn_step (h : Drawn names s) (hs : s.step a = some s') : Drawn names s' := by
  cases (step_cases hs).2
  case thread i inp t pc b s₁ ht hc =>
    have hmem := List.mem_of_getElem? ht
    obtain ⟨hwithin, hpc⟩ := hc.within h.accounts (h.threads t hmem)
    exact ⟨hwithin, Counting.forall_mem_set h.threads hpc⟩
  case restart t hm ht => exact h.append (by simp) rfl rfl
  case dailyTask => exact h.append (fun u hu => init_of_mem_mapIdx hu) rfl rfl
  case voteSpawn => exact h.append (fun u hu => init_of_mem_mapIdx hu) rfl rfl
  case reset acc todo hm => exact ⟨h.accounts.update acc _, h.threads⟩
  all_goals exact ⟨h.accounts, h.threads⟩

variable {rows : List (Str × AccountPro)} {ips : List Str}

theorem drawn_of_reach (hr : Trans.Reach step (fun _ _ => True) (boot rows ips) s) : Drawn (rows.map (·.1)) s :=
  hr.invariant ⟨within_loadData rows, fun _ ht => nomatch ht⟩ fun _ _ _ h _ hs => drawn_step h hs

/-- **The server's accounts** are those that were loaded, in the table and in the list. -/
theorem within_of_reach (hr : Trans.Reach step (fun _ _ => True) (boot rows ips) s) :
    Within (rows.map (·.1)) s.accounts :=
  (drawn_of_reach hr).accounts

/-- **The sessions' draws** read no account that is not there. -/
theorem pick_of_reach (hr : Trans.Reach step (fun _ _ => True) (boot rows ips) s) (kind : Kind) :
    (s.accounts.pick kind).2 = s.accounts :=
  (within_of_reach hr).pick_snd kind

end Server
end ScheduleCenter
