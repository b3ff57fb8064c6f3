/-
# When a session alone leaves its loop

A session that runs alone, whose writes succeed and whose replies all arrive:
`soloStep`, with the phone's replies as a sequence `rs`. A reply of success or
a fatal login failure takes the account out of what the next draws may take;
any other reply puts it back as it was, and no counter limits how often. So
the loop ends exactly if some prefix of the replies takes all the eligible
accounts out, or brings a vote session's success count to exactly the target
(`leaves_iff`); if the phone keeps answering with some other failure, it does
not (`never_leaves`).

Key definitions: `Server.soloStep`, `Server.eligibleAccs`, `Server.LeavesAt`, `Server.SoloInv`.
Key theorems: `Server.soloInv_session`, `Server.solo_progress`, `Server.leaves_iff`, `Server.never_leaves`.
-/
import ScheduleCenter.Returns
import ScheduleCenter.Repeat
import ScheduleCenter.VoteTarget
import Mathlib.Order.Interval.Finset.Nat
import Mathlib.Data.Nat.Count

namespace ScheduleCenter

/-- What the environment of such a session decides. -/
def soloInput (v : Verdict) : Pc → Input
  | .write _ => .ok
  | .sent _ => .reply (.verdict v)
  | _ => .go

/-- The test of the draw. -/
def AccountMgr.eligible (m : AccountMgr) : Kind → Str → Bool
  | .vote _ url, acc => m.votable url acc
  | .daily, acc => m.dailyable acc

/-- The successes among the first `k` replies. -/
def successes (rs : ℕ → Verdict) (k : ℕ) : ℕ := Nat.count (fun j => rs j = .success) k

/-- The successes and fatal login failures among the first `k` replies: each
takes an account out. -/
def takenOut (rs : ℕ → Verdict) (k : ℕ) : ℕ := Nat.count (fun j => rs j ≠ .other) k

theorem successes_succ (rs : ℕ → Verdict) (k : ℕ) :
    successes rs (k + 1) = successes rs k + if rs k = .success then 1 else 0 := by
  rw [successes, Nat.count_succ, successes]

theorem takenOut_succ (rs : ℕ → Verdict) (k : ℕ) :
    takenOut rs (k + 1) = takenOut rs k + if rs k = .other then 0 else 1 := by
  rw [takenOut, Nat.count_succ, takenOut]
  by_cases h : rs k = .other <;> simp [h]

namespace Pc

/-- Where such a session can be, from the head of the loop on. -/
def inLoop (kind : Kind) : Pc → Bool
  | .draw | .picked _ | .taken _ _ | .mark _ | .write _ | .sent _ | .record _ _ | .putBack _ | .readEnd false | .close => true
  | .check _ | .waiting _ | .count _ => kind ≠ .daily
  | _ => false

/-- Past the wait loop, and the reply is not there yet. -/
def isSending : Pc → Bool
  | .mark _ | .write _ | .sent _ => true
  | _ => false

/-- Successes replied and not yet counted. -/
def owed : Pc → Int
  | .record _ .success | .count _ => 1
  | _ => 0

/-- Replies that take the account out and are not yet recorded. -/
def unrecorded : Pc → ℕ
  | .record _ v => if v = .other then 0 else 1
  | _ => 0

/-- How many steps there are at most to the next reply, counted from the record of
the last one. -/
def toReply : Pc → ℕ
  | .record _ _ => 12
  | .count _ => 11
  | .putBack _ => 10
  | .readEnd _ => 9
  | .draw => 8
  | .picked _ => 7
  | .taken _ _ => 6
  | .check _ => 5
  | .waiting _ => 4
  | .mark _ => 3
  | .write _ => 2
  | .sent _ => 1
  | _ => 0

end Pc

namespace AccountMgr

theorem eligible_congr {m m' : AccountMgr} {acc : Str} (h : m'.accountsPro.lookup acc = m.accountsPro.lookup acc)
    (kind : Kind) : m'.eligible kind acc = m.eligible kind acc := by
  cases kind <;> simp [eligible, votable, dailyable, getVoteStatus, AccountsPro.at, h]

theorem eligible_iff {m : AccountMgr} {acc : Str} {p : AccountPro} (h : m.accountsPro.lookup acc = some p)
    (kind : Kind) : m.eligible kind acc = true ↔ kind.mayWork p := by
  cases kind with
  | vote k url =>
    by_cases hu : url ∈ p.votedUrl
    · simp [eligible, votable, getVoteStatus, AccountsPro.at, h, hu, Kind.mayWork]
    · simp [eligible, votable, getVoteStatus, AccountsPro.at, h, hu, Kind.mayWork, statusVoted, statusNotVote]
  | daily => simp [eligible, dailyable, AccountsPro.at, h, Kind.mayWork]

theorem eligible_pick (m : AccountMgr) (kind : Kind) (acc : Str) :
    (m.pick kind).2.eligible kind acc = m.eligible kind acc := by
  cases kind with
  | vote k url => rfl
  | daily =>
    show m.pickNotDaily.2.dailyable acc = m.dailyable acc
    simp only [dailyable, pickNotDaily_at]

theorem pick_eq_none {m : AccountMgr} {kind : Kind} (h : (m.pick kind).1 = none) {acc : Str}
    (hacc : acc ∈ m.idleAccs) :
    m.eligible kind acc = false := by
  obtain ⟨n, hn, rfl⟩ := List.mem_map.mp hacc
  cases kind with
  | vote k url =>
    have hnone := List.find?_eq_none.mp h n hn
    rw [← Bool.not_eq_true]
    exact hnone
  | daily =>
    have h : m.pickNotDaily.1 = none := h
    rw [pickNotDaily_fst] at h
    have hnone := List.find?_eq_none.mp h n hn
    rw [← Bool.not_eq_true]
    exact hnone

/-- A reply that says so takes the account out. -/
theorem eligible_recordReply {m : AccountMgr} {acc : Str} {p : AccountPro} (h : m.accountsPro.lookup acc = some p)
    (kind : Kind) (v : Verdict) (acc' : Str) : (m.recordReply kind acc v).eligible kind acc' =
      if acc' = acc ∧ v ≠ .other then false else m.eligible kind acc' := by
  have hl := m.lookup_recordReply kind acc acc' v
  by_cases hacc : acc' = acc
  · subst hacc
    rw [if_pos rfl, h] at hl
    by_cases hv : v = .other
    · subst hv
      have hid : kind.recorded .other p = p := by cases kind <;> rfl
      rw [if_neg (by simp)]
      exact eligible_congr (by rw [hl, Option.map_some, hid, h]) kind
    · rw [if_pos ⟨rfl, hv⟩, ← Bool.not_eq_true, eligible_iff hl]
      cases v <;> cases kind <;> simp_all [Kind.mayWork, Kind.recorded]
  · rw [if_neg hacc] at hl
    rw [if_neg (by simp [hacc])]
    exact eligible_congr hl kind

end AccountMgr

namespace Server

/-- Thread `i` takes a step; the number counts the replies. -/
def soloStep (i : ℕ) (rs : ℕ → Verdict) (p : Server × ℕ) (_ : Unit) : Option (Server × ℕ) :=
  (p.1.threads[i]?).bind fun t => (p.1.step (.thread i (soloInput (rs p.2) t.pc))).map fun s' =>
    (s', if t.pc.isSent then p.2 + 1 else p.2)

/-- Thread `i` has left the loop of `on_connected`. -/
def hasLeft (i : ℕ) (p : Server × ℕ) : Prop := (p.1.threads[i]?).map (·.pc) = some .close

/-- The accounts in the list that the session may draw. -/
def eligibleAccs (s : Server) (kind : Kind) : Finset Str :=
  s.accounts.idleAccs.toFinset.filter (s.accounts.eligible kind ·)

/-- After the first `k` replies there is nothing left to do: no eligible
account, or a success count equal to the target. -/
def LeavesAt (s : Server) (kind : Kind) (rs : ℕ → Verdict) (k : ℕ) : Prop :=
  (∃ task, kind.task = some task ∧
    (s.vote task).successCount + successes rs k = (s.vote task).targetCount) ∨
  (s.eligibleAccs kind).card ≤ takenOut rs k

/-! ### The invariant -/

structure SoloInv (s₀ : Server) (kind : Kind) (rs : ℕ → Verdict) (s : Server) (t : Thread) (k : ℕ) : Prop where
  alive : s.dead = false
  sameKind : t.kind = kind
  sock : t.sock = true
  place : t.pc.inLoop kind = true
  nodes : s.accounts.NodesDistinct
  tracks : s.Tracks t
  ready : s.Ready t
  /-- Nobody else takes or brings an account. -/
  names : t.pc ≠ .close → (s.accounts.idleAccs : Multiset Str) + t.pc.held = s₀.accounts.idleAccs
  /-- No other device is in `WX_VOTING`. -/
  quiet : ∀ ip, s.devices.getStatus ip = .wxVoting → ip = t.ip ∧ t.pc.isMarked = true
  votes : ∀ task, kind.task = some task → ∃ c, s.votes[task]? = some ⟨c, (s₀.vote task).targetCount⟩ ∧
    c + t.pc.owed = (s₀.vote task).successCount + successes rs k
  left : (s₀.accounts.idleAccs.toFinset.filter (s.accounts.eligible kind ·)).card +
    takenOut rs k = (s₀.eligibleAccs kind).card + t.pc.unrecorded
  before : ∀ j < k, ¬ s₀.LeavesAt kind rs j
  sending : t.pc.isSending = true → ¬ s₀.LeavesAt kind rs k
  full : ∀ acc, t.pc = .waiting acc → ∀ task, kind.task = some task →
    (s.vote task).successCount = (s.vote task).targetCount
  leaving : t.pc = .close → s₀.LeavesAt kind rs k

section Step

variable {s₀ s s' s₁ : Server} {kind : Kind} {rs : ℕ → Verdict} {t : Thread} {k i : ℕ} {inp : Input}
  {pc : Pc} {b : Bool}

/-- No session but this one has a device in `WX_VOTING`, and it has none when
it asks `need_wait_vote`. -/
theorem SoloInv.needWait (h : SoloInv s₀ kind rs s t k) (hpc : t.pc.isMarked = false) (v : WxVote) :
    v.needWaitVote s.devices = true ↔ v.successCount = v.targetCount := by
  have hzero : s.devices.getStatusCount .wxVoting = 0 := by
    by_contra hne
    obtain ⟨ip, hip⟩ := DeviceMgr.exists_of_getStatusCount_pos s.devices (Nat.pos_of_ne_zero hne)
    have := (h.quiet ip hip).2
    rw [hpc] at this
    cases this
  simp [WxVote.needWaitVote, hzero]

theorem SoloInv.place_step (h : SoloInv s₀ kind rs s t k) (hc : SessionCase s t t.pc inp pc b s₁)
    (hinp : inp = soloInput (rs k) t.pc) (hopen : t.pc ≠ .close) :
    b = true ∧ pc.inLoop kind = true ∧ s₁.dead = false := by
  have hkind := h.sameKind
  have hsock := h.sock
  have hplace := h.place
  have hfull := h.full
  have halive := h.alive
  generalize hpc : t.pc = pc₀ at hc hplace hinp hfull
  cases hc
  case sleep acc task hk hv =>
    rw [hkind] at hk
    have heq := hfull acc rfl task hk
    simp [WxVote.needVote, heq] at hv
  case letOn acc task hk hw hpcs =>
    rcases hpcs with rfl | rfl <;> simp_all [Pc.inLoop]
  case hold acc task hk hw hpcs =>
    rcases hpcs with rfl | rfl <;> simp_all [Pc.inLoop]
  all_goals simp_all [Pc.inLoop, soloInput]

/-- Such a session loses an account only by leaving. -/
theorem SoloInv.loses_eq (h : SoloInv s₀ kind rs s t k) (hc : SessionCase s t t.pc inp pc b s₁)
    (hinp : inp = soloInput (rs k) t.pc) (hpc' : pc ≠ .close) : s.loses t inp = false := by
  have hplace := h.place
  unfold loses
  generalize hpc : t.pc = pc₀ at hc hplace hinp
  cases hc
  case letOn acc task hk hw hpcs => rcases hpcs with rfl | rfl <;> rfl
  case hold acc task hk hw hpcs => rcases hpcs with rfl | rfl <;> rfl
  all_goals simp_all [Pc.inLoop, soloInput]

theorem SoloInv.names_step (h : SoloInv s₀ kind rs s t k) (hc : SessionCase s t t.pc inp pc b s₁)
    (hinp : inp = soloInput (rs k) t.pc) (hopen : t.pc ≠ .close) (hpc' : pc ≠ .close) :
    (s₁.accounts.idleAccs : Multiset Str) + pc.held = s₀.accounts.idleAccs := by
  have hidle := hc.idle h.nodes h.tracks
  have hheld := hc.held
  rw [if_neg (by simp [h.loses_eq hc hinp hpc']), add_zero] at hheld
  rw [← h.names hopen]
  apply add_right_cancel (b := t.pc.draws + t.pc.returns)
  calc (s₁.accounts.idleAccs : Multiset Str) + pc.held + (t.pc.draws + t.pc.returns)
      = (s₁.accounts.idleAccs + t.pc.draws) + (pc.held + t.pc.returns) := by abel
    _ = (s.accounts.idleAccs + t.pc.returns) + (t.pc.held + t.pc.draws) := by rw [hidle, hheld]
    _ = s.accounts.idleAccs + t.pc.held + (t.pc.draws + t.pc.returns) := by abel

/-- No account is missing from the list and from the session's hands. -/
theorem SoloInv.mem_names (h : SoloInv s₀ kind rs s t k) (hopen : t.pc ≠ .close) (acc : Str) :
    acc ∈ s₀.accounts.idleAccs ↔ acc ∈ s.accounts.idleAccs ∨ t.pc.holds = some acc := by
  have hmem : acc ∈ (s₀.accounts.idleAccs : Multiset Str) ↔ acc ∈ s.accounts.idleAccs ∨ acc ∈ t.pc.held := by
    rw [← h.names hopen, Multiset.mem_add, Multiset.mem_coe]
  rw [← Multiset.mem_coe, hmem]
  unfold Pc.held
  cases t.pc.holds <;> simp [eq_comm]

theorem SoloInv.quiet_step (h : SoloInv s₀ kind rs s t k) (hc : SessionCase s t t.pc inp pc b s₁)
    (hinp : inp = soloInput (rs k) t.pc) {ip : Str} (hip : s₁.devices.getStatus ip = .wxVoting) :
    ip = t.ip ∧ pc.isMarked = true := by
  have hplace := h.place
  have hquiet := h.quiet ip
  by_cases hown : ip = t.ip
  · subst hown
    refine ⟨rfl, ?_⟩
    generalize hpc : t.pc = pc₀ at hc hplace hinp hquiet
    cases hc
    case letOn acc task hk hw hpcs => rcases hpcs with rfl | rfl <;> simp_all [Pc.isMarked]
    case hold acc task hk hw hpcs => rcases hpcs with rfl | rfl <;> simp_all [Pc.isMarked]
    case readEnd => cases hk : t.kind <;> simp [Kind.busyEnd, hk] at hip
    all_goals simp_all [Pc.inLoop, soloInput, Pc.isMarked]
  · rw [hc.getStatus_ne hown] at hip
    exact absurd (hquiet hip).1 hown

theorem SoloInv.votes_step (h : SoloInv s₀ kind rs s t k) (hc : SessionCase s t t.pc inp pc b s₁)
    (hinp : inp = soloInput (rs k) t.pc) {task : ℕ} (htask : kind.task = some task) :
    ∃ c, s₁.votes[task]? = some ⟨c, (s₀.vote task).targetCount⟩ ∧
      c + pc.owed = (s₀.vote task).successCount +
        successes rs (if t.pc.isSent then k + 1 else k) := by
  obtain ⟨c, hv, hcount⟩ := h.votes task htask
  have hplace := h.place
  have hkind := h.sameKind
  generalize hpc : t.pc = pc₀ at hc hplace hinp hcount
  cases hc
  case count acc task' hk =>
    rw [hkind, htask] at hk
    obtain rfl := Option.some.inj hk
    have hlt : task < s.votes.length := (List.getElem?_eq_some_iff.mp hv).1
    refine ⟨c + 1, by simp [vote_eq hv, WxVote.addSucCount, hlt], ?_⟩
    simpa [Pc.owed, Pc.isSent] using hcount
  case reply acc v =>
    have hv' : v = rs k := by simpa [soloInput] using hinp
    refine ⟨c, hv, ?_⟩
    simp only [Pc.owed, add_zero] at hcount
    simp only [Pc.isSent, if_true, successes_succ, ← hv']
    cases v <;> simp [Pc.owed] <;> omega
  case letOn acc task' hk hw hpcs => rcases hpcs with rfl | rfl <;> exact ⟨c, hv, hcount⟩
  case hold acc task' hk hw hpcs => rcases hpcs with rfl | rfl <;> exact ⟨c, hv, hcount⟩
  case record acc v hr =>
    have hne : v ≠ .success := by
      rintro rfl
      rw [hkind] at hr
      rw [hr rfl] at htask
      cases htask
    refine ⟨c, hv, ?_⟩
    cases v <;> simp_all [Pc.owed, Pc.isSent]
  all_goals
    refine ⟨c, hv, ?_⟩
    simp_all [Pc.inLoop, soloInput, Pc.owed, Pc.isSent]

/-- The account in hand is one of the list's, and it may be drawn. -/
theorem SoloInv.eligible_of_pending (h : SoloInv s₀ kind rs s t k) {acc : Str} (hacc : t.pc.pending = some acc) :
    acc ∈ s₀.accounts.idleAccs ∧ s.accounts.eligible kind acc = true := by
  obtain ⟨p, hp, hw⟩ := h.ready acc hacc
  rw [h.sameKind] at hw
  refine ⟨?_, (AccountMgr.eligible_iff hp kind).mpr hw⟩
  have hopen : t.pc ≠ .close := fun hc => by rw [hc] at hacc; cases hacc
  rw [h.mem_names hopen]
  have htracks := h.tracks
  unfold Tracks at htracks
  cases hpc : t.pc <;> rw [hpc] at hacc htracks
  case picked n =>
    obtain rfl := Option.some.inj hacc
    exact Or.inl (List.mem_map.mpr ⟨n, htracks.1 n rfl, rfl⟩)
  case taken n acc' =>
    obtain rfl := Option.some.inj hacc
    exact Or.inl (List.mem_map.mpr ⟨n, htracks.1 n rfl, (htracks.2 n _ rfl).symm⟩)
  all_goals exact Or.inr (by first | exact hacc | cases hacc)

/-- The record of a reply takes the account out of the eligible ones, if the
reply says so. -/
theorem SoloInv.record_eligible (h : SoloInv s₀ kind rs s t k) (acc : Str) (v : Verdict) (hpc : t.pc = .record acc v) :
    (s₀.accounts.idleAccs.toFinset.filter ((s.accounts.recordReply kind acc v).eligible kind ·)).card +
      t.pc.unrecorded = (s₀.accounts.idleAccs.toFinset.filter (s.accounts.eligible kind ·)).card := by
  have hpend : t.pc.pending = some acc := by rw [hpc]; rfl
  obtain ⟨p, hp, -⟩ := h.ready acc hpend
  obtain ⟨hname, helig⟩ := h.eligible_of_pending hpend
  have hrec := AccountMgr.eligible_recordReply hp kind v
  by_cases hv : v = .other
  · have hsame : ∀ acc', (s.accounts.recordReply kind acc v).eligible kind acc' = s.accounts.eligible kind acc' := by
      intro acc'
      rw [hrec, if_neg (by simp [hv])]
    simp only [hsame, hpc, Pc.unrecorded, if_pos hv, add_zero]
  · have hmem : acc ∈ s₀.accounts.idleAccs.toFinset.filter (s.accounts.eligible kind ·) :=
      Finset.mem_filter.mpr ⟨List.mem_toFinset.mpr hname, helig⟩
    have herase : s₀.accounts.idleAccs.toFinset.filter ((s.accounts.recordReply kind acc v).eligible kind ·) =
        (s₀.accounts.idleAccs.toFinset.filter (s.accounts.eligible kind ·)).erase acc := by
      ext acc'
      rw [Finset.mem_filter, Finset.mem_erase, Finset.mem_filter, hrec]
      by_cases hacc : acc' = acc
      · simp [hacc, hv]
      · simp [hacc]
    have hpos := Finset.card_pos.mpr ⟨acc, hmem⟩
    rw [herase, Finset.card_erase_of_mem hmem, hpc, Pc.unrecorded, if_neg hv]
    omega

theorem SoloInv.left_step (h : SoloInv s₀ kind rs s t k) (hc : SessionCase s t t.pc inp pc b s₁)
    (hinp : inp = soloInput (rs k) t.pc) :
    (s₀.accounts.idleAccs.toFinset.filter (s₁.accounts.eligible kind ·)).card +
      takenOut rs (if t.pc.isSent then k + 1 else k) = (s₀.eligibleAccs kind).card + pc.unrecorded := by
  have hleft := h.left
  have hplace := h.place
  have hrecord := h.record_eligible
  rw [← h.sameKind] at hleft hplace hrecord ⊢
  generalize hpc : t.pc = pc₀ at hc hplace hinp hleft hrecord
  cases hc
  case pick n hn => simpa [Pc.unrecorded, Pc.isSent, AccountMgr.eligible_pick] using hleft
  case empty hn => simpa [Pc.unrecorded, Pc.isSent, AccountMgr.eligible_pick] using hleft
  case reply acc v =>
    have hv' : v = rs k := by simpa [soloInput] using hinp
    simp only [Pc.unrecorded, add_zero] at hleft
    simp only [Pc.isSent, if_true, takenOut_succ, ← hv', Pc.unrecorded]
    omega
  case recordVote acc hk =>
    have heq := hrecord acc .success rfl
    show _ + takenOut rs k = _ + 0
    simp only [withAccounts_accounts]
    omega
  case record acc v hv =>
    have heq := hrecord acc v rfl
    show _ + takenOut rs k = _ + 0
    simp only [withAccounts_accounts]
    omega
  case letOn acc task' hk hw hpcs => rcases hpcs with rfl | rfl <;> exact hleft
  case hold acc task' hk hw hpcs => rcases hpcs with rfl | rfl <;> exact hleft
  all_goals first | exact hleft | simp_all [Pc.inLoop, soloInput]

/-- While an eligible account is in hand, some is left. -/
theorem SoloInv.takenOut_lt (h : SoloInv s₀ kind rs s t k) (acc : Str) (hacc : t.pc.pending = some acc)
    (hun : t.pc.unrecorded = 0) : takenOut rs k < (s₀.eligibleAccs kind).card := by
  obtain ⟨hname, helig⟩ := h.eligible_of_pending hacc
  have hmem : acc ∈ s₀.accounts.idleAccs.toFinset.filter (s.accounts.eligible kind ·) :=
    Finset.mem_filter.mpr ⟨List.mem_toFinset.mpr hname, helig⟩
  have hpos := Finset.card_pos.mpr ⟨acc, hmem⟩
  have hleft := h.left
  omega

theorem SoloInv.vote_eq (h : SoloInv s₀ kind rs s t k) (howed : t.pc.owed = 0) (task : ℕ)
    (htask : kind.task = some task) : (s.vote task).targetCount = (s₀.vote task).targetCount ∧
      (s.vote task).successCount = (s₀.vote task).successCount + successes rs k := by
  obtain ⟨c, hv, hcount⟩ := h.votes task htask
  rw [Server.vote_eq hv]
  exact ⟨rfl, by simpa [howed] using hcount⟩

/-- The session goes on to its command only where there is work left. -/
theorem SoloInv.sending_step (h : SoloInv s₀ kind rs s t k) (hc : SessionCase s t t.pc inp pc b s₁)
    (hinp : inp = soloInput (rs k) t.pc) (hsend : pc.isSending = true) : ¬ s₀.LeavesAt kind rs k := by
  have hplace := h.place
  have hsending := h.sending
  have hlt := h.takenOut_lt
  have hneed := h.needWait
  have hvote := h.vote_eq
  have hkind := h.sameKind
  generalize hpc : t.pc = pc₀ at hc hplace hinp hsending hlt hneed hvote
  cases hc
  case letOn acc task hk hw hpcs =>
    rcases hpcs with rfl | rfl
    · rintro (⟨task', htask', heq⟩ | hle)
      · rw [hkind, htask'] at hk
        obtain rfl := Option.some.inj hk
        obtain ⟨htarget, hcount⟩ := hvote rfl task' htask'
        have hfull := (hneed rfl (s.vote task')).mpr (by rw [htarget, hcount, heq])
        rw [hw] at hfull
        cases hfull
      · exact absurd (hlt acc rfl rfl) (Nat.not_lt.mpr hle)
    · simp [Pc.inLoop] at hplace
  case eraseDaily n acc hk =>
    rintro (⟨task', htask', -⟩ | hle)
    · rw [← hkind, hk] at htask'
      cases htask'
    · exact absurd (hlt acc rfl rfl) (Nat.not_lt.mpr hle)
  case mark acc => exact hsending rfl
  case write acc hs => exact hsending rfl
  case wake => simp [Pc.inLoop] at hplace
  all_goals cases hsend

theorem SoloInv.full_step (h : SoloInv s₀ kind rs s t k) (hc : SessionCase s t t.pc inp pc b s₁) {acc : Str}
    (hpc' : pc = .waiting acc) {task : ℕ} (htask : kind.task = some task) :
    (s₁.vote task).successCount = (s₁.vote task).targetCount := by
  have hplace := h.place
  have hneed := h.needWait
  have hkind := h.sameKind
  generalize hpc : t.pc = pc₀ at hc hplace hneed
  cases hc <;> try cases hpc'
  rename_i task' hk hw hpcs
  rw [hkind, htask] at hk
  obtain rfl := Option.some.inj hk
  rcases hpcs with rfl | rfl
  · exact (hneed rfl _).mp hw
  · simp [Pc.inLoop] at hplace

theorem SoloInv.leaving_step (h : SoloInv s₀ kind rs s t k) (hc : SessionCase s t t.pc inp pc b s₁)
    (hpc' : pc = .close) : s₀.LeavesAt kind rs k := by
  have hplace := h.place
  have hfull := h.full
  have hnames := h.mem_names
  have hleft := h.left
  have hvote := h.vote_eq
  have hkind := h.sameKind
  generalize hpc : t.pc = pc₀ at hc hplace hfull hnames hleft hvote
  cases hc <;> try cases hpc'
  case empty hn =>
    refine Or.inr ?_
    have hnone : s₀.accounts.idleAccs.toFinset.filter (s.accounts.eligible kind ·) = ∅ := by
      refine Finset.filter_eq_empty_iff.mpr fun acc hacc => ?_
      have hidle : acc ∈ s.accounts.idleAccs := by
        simpa [Pc.holds] using (hnames (by simp) acc).mp (List.mem_toFinset.mp hacc)
      have helig := AccountMgr.pick_eq_none hn hidle
      rw [hkind] at helig
      simp [helig]
    simp only [hnone, Finset.card_empty, Pc.unrecorded] at hleft
    omega
  case wake => simp [Pc.inLoop] at hplace
  case quit acc task hk hv =>
    rw [hkind] at hk
    obtain ⟨htarget, hcount⟩ := hvote rfl task hk
    refine Or.inl ⟨task, hk, ?_⟩
    rw [← hcount, ← htarget]
    exact hfull acc rfl task hk

/-- What one step of the session keeps. -/
theorem soloInv_session (h : SoloInv s₀ kind rs s t k) (hc : SessionCase s t t.pc inp pc b s₁)
    (hinp : inp = soloInput (rs k) t.pc) (hopen : t.pc ≠ .close) :
    SoloInv s₀ kind rs s₁ { t with pc := pc, sock := b } (if t.pc.isSent then k + 1 else k) := by
  obtain ⟨hsock, hplace, halive⟩ := h.place_step hc hinp hopen
  have hsent : t.pc.isSent = true → ¬ s₀.LeavesAt kind rs k := fun hs => h.sending (by
    cases hpc : t.pc <;> rw [hpc] at hs <;> first | rfl | cases hs)
  have hpcsent : t.pc.isSent = true → pc.isSending = false ∧ pc ≠ .close := by
    intro hs
    generalize hpc : t.pc = pc₀ at hc hinp hs
    cases hc
    case letOn hpcs => rcases hpcs with rfl | rfl <;> cases hs
    case hold hpcs => rcases hpcs with rfl | rfl <;> cases hs
    all_goals simp_all [Pc.isSending, Pc.isSent, soloInput]
  refine ⟨halive, h.sameKind, hsock, hplace, hc.nodesDistinct h.nodes, hc.tracks h.tracks, hc.ready h.ready,
    fun hpc' => h.names_step hc hinp hopen hpc', fun ip hip => h.quiet_step hc hinp hip,
    fun task htask => h.votes_step hc hinp htask, h.left_step hc hinp, fun j hj => ?_, fun hsend => ?_,
    fun acc hpc' task htask => h.full_step hc hpc' htask, fun hpc' => ?_⟩
  · split at hj
    · rcases Nat.lt_succ_iff_lt_or_eq.mp hj with hj | rfl
      · exact h.before j hj
      · exact hsent ‹_›
    · exact h.before j hj
  · have hns : t.pc.isSent = false := by
      by_contra hs
      have := (hpcsent (by simpa using hs)).1
      rw [hsend] at this
      cases this
    rw [hns]
    exact h.sending_step hc hinp hsend
  · have hns : t.pc.isSent = false := by
      by_contra hs
      exact (hpcsent (by simpa using hs)).2 hpc'
    rw [hns]
    exact h.leaving_step hc hpc'

theorem soloStep_session {p p' : Server × ℕ} {u : Unit} (ht : p.1.threads[i]? = some t)
    (h : soloStep i rs p u = some p') : ∃ pc b s₁, SessionCase p.1 t t.pc (soloInput (rs p.2) t.pc) pc b s₁ ∧
      p' = ({ s₁ with threads := p.1.threads.set i { t with pc := pc, sock := b } },
        if t.pc.isSent then p.2 + 1 else p.2) := by
  simp only [soloStep, ht, Option.bind_some, Option.map_eq_some_iff] at h
  obtain ⟨s', hs, rfl⟩ := h
  obtain ⟨t', pc, b, s₁, ht', hc, rfl⟩ := step_thread hs
  rw [ht] at ht'
  obtain rfl := Option.some.inj ht'
  exact ⟨pc, b, s₁, hc, rfl⟩

/-- Thread `i` runs such a session. -/
def SoloAt (s₀ : Server) (kind : Kind) (rs : ℕ → Verdict) (i : ℕ) (p : Server × ℕ) : Prop :=
  ∃ t, p.1.threads[i]? = some t ∧ SoloInv s₀ kind rs p.1 t p.2

theorem soloAt_step {p p' : Server × ℕ} {u : Unit} (h : SoloAt s₀ kind rs i p) (hopen : ¬ hasLeft i p)
    (hs : soloStep i rs p u = some p') : SoloAt s₀ kind rs i p' := by
  obtain ⟨t, ht, hI⟩ := h
  obtain ⟨pc, b, s₁, hc, rfl⟩ := soloStep_session ht hs
  have hpc : t.pc ≠ .close := fun hpc => hopen (by simp [hasLeft, ht, hpc])
  have hI' := soloInv_session hI hc rfl hpc
  have hlt := (List.getElem?_eq_some_iff.mp ht).1
  exact ⟨{ t with pc := pc, sock := b }, List.getElem?_set_self hlt, hI'.alive, hI'.sameKind, hI'.sock, hI'.place,
    hI'.nodes, hI'.tracks, hI'.ready, hI'.names, hI'.quiet, hI'.votes, hI'.left, hI'.before, hI'.sending,
    hI'.full, hI'.leaving⟩

theorem SoloInv.enabled (h : SoloInv s₀ kind rs s t k) (ht : s.threads[i]? = some t) (v : Verdict) :
    ∃ s', s.step (.thread i (soloInput v t.pc)) = some s' := by
  have hsome : ∃ r, s.sessionStep t t.pc (soloInput v t.pc) = some r := by
    have hplace := h.place
    have htask : kind ≠ .daily → ∃ task, t.kind.task = some task := by
      rw [h.sameKind]
      intro hk
      cases kind with
      | vote task url => exact ⟨task, rfl⟩
      | daily => exact absurd rfl hk
    cases hpc : t.pc <;> rw [hpc] at hplace <;> simp only [Pc.inLoop, decide_eq_true_eq, Bool.false_eq_true] at hplace
    case check acc | waiting acc | count acc =>
      obtain ⟨task, htask⟩ := htask hplace
      exact ⟨_, by simp [sessionStep, soloInput, htask]; rfl⟩
    case readEnd timedOut => cases timedOut <;> exact ⟨_, rfl⟩
    all_goals exact ⟨_, by simp [sessionStep, soloInput, h.sock]; rfl⟩
  obtain ⟨⟨pc, b, s₁⟩, hr⟩ := hsome
  exact ⟨{ s₁ with threads := s₁.threads.set i { t with pc := pc, sock := b } }, by simp [step, h.alive, ht, hr]⟩

/-- A step comes nearer to the next reply, or is that reply. -/
theorem SoloInv.toReply_step (h : SoloInv s₀ kind rs s t k) (hc : SessionCase s t t.pc inp pc b s₁)
    (hinp : inp = soloInput (rs k) t.pc) (hopen : t.pc ≠ .close) :
    if t.pc.isSent then pc.toReply ≤ 12 else pc.toReply < t.pc.toReply := by
  have hplace := h.place
  have hplace' := (h.place_step hc hinp hopen).2.1
  generalize hpc : t.pc = pc₀ at hc hplace hinp hopen
  cases hc
  case letOn acc task' hk hw hpcs => rcases hpcs with rfl | rfl <;> simp_all [Pc.isSent, Pc.toReply, Pc.inLoop]
  case hold acc task' hk hw hpcs => rcases hpcs with rfl | rfl <;> simp_all [Pc.isSent, Pc.toReply, Pc.inLoop]
  all_goals simp_all [Pc.isSent, Pc.toReply, Pc.inLoop, soloInput]

/-- The replies up to `K`, and the steps to the next one. -/
def replyDist (i K : ℕ) (p : Server × ℕ) : ℕ :=
  (K - p.2) * 13 + ((p.1.threads[i]?).map fun t => t.pc.toReply).getD 0

theorem solo_progress {p : Server × ℕ} {K : ℕ} (hK : s₀.LeavesAt kind rs K) (h : SoloAt s₀ kind rs i p)
    (hopen : ¬ hasLeft i p) :
    ∃ p', soloStep i rs p () = some p' ∧ SoloAt s₀ kind rs i p' ∧ replyDist i K p' < replyDist i K p := by
  obtain ⟨t, ht, hI⟩ := id h
  obtain ⟨s', hs⟩ := hI.enabled ht (rs p.2)
  have hstep : soloStep i rs p () = some (s', if t.pc.isSent then p.2 + 1 else p.2) := by simp [soloStep, ht, hs]
  refine ⟨_, hstep, soloAt_step h hopen hstep, ?_⟩
  have hpc : t.pc ≠ .close := fun hpc => hopen (by simp [hasLeft, ht, hpc])
  obtain ⟨pc, b, s₁, hc, heq⟩ := soloStep_session ht hstep
  have hlt := (List.getElem?_eq_some_iff.mp ht).1
  have hdist := hI.toReply_step hc rfl hpc
  have hle : p.2 ≤ K := by
    by_contra hlt
    exact hI.before K (by omega) hK
  rw [heq]
  simp only [replyDist, ht, List.getElem?_set_self hlt, Option.map_some, Option.getD_some]
  by_cases hsent : t.pc.isSent = true
  · rw [if_pos hsent] at hdist ⊢
    have hsend : t.pc.isSending = true := by
      cases hpc : t.pc <;> rw [hpc] at hsent <;> first | rfl | cases hsent
    have hne : p.2 ≠ K := by
      rintro rfl
      exact hI.sending hsend hK
    omega
  · rw [if_neg hsent] at hdist ⊢
    omega

/-! ### When the loop ends -/

/-- It leaves only where there is nothing left to do. -/
theorem leavesAt_of_leaves {p : Server × ℕ} (hstart : SoloAt s₀ kind rs i (s₀, 0))
    (hr : Trans.Reach (soloStep i rs) (fun p _ => ¬ hasLeft i p) (s₀, 0) p) (hleft : hasLeft i p) :
    ∃ k, s₀.LeavesAt kind rs k := by
  obtain ⟨u, hu, hI⟩ := hr.invariant (I := SoloAt s₀ kind rs i) hstart fun _ _ _ hI hopen hs => soloAt_step hI hopen hs
  simp only [hasLeft, hu, Option.map_some, Option.some.injEq] at hleft
  exact ⟨p.2, hI.leaving hleft⟩

/-- Where there is nothing left to do it has left or leaves. -/
theorem leaves_of_leavesAt {K : ℕ} (hstart : SoloAt s₀ kind rs i (s₀, 0)) (hK : s₀.LeavesAt kind rs K) :
    ∃ p, Trans.Reach (soloStep i rs) (fun p _ => ¬ hasLeft i p) (s₀, 0) p ∧ hasLeft i p := by
  refine Trans.Reach.eventually (I := SoloAt s₀ kind rs i) (replyDist i K) (fun p hI => ?_) hstart
  by_cases hopen : hasLeft i p
  · exact Or.inl hopen
  · obtain ⟨p', hs, hI', hlt⟩ := solo_progress hK hI hopen
    exact Or.inr ⟨(), p', hopen, hs, hI', hlt⟩

/-- The session is at the head of its loop, connected, and nobody else votes. -/
structure AtLoop (s₀ : Server) (i : ℕ) (t : Thread) : Prop where
  thread : s₀.threads[i]? = some t
  pc : t.pc = .draw
  sock : t.sock = true
  alive : s₀.dead = false
  nodes : s₀.accounts.NodesDistinct
  quiet : ∀ ip, s₀.devices.getStatus ip ≠ .wxVoting
  votes : ∀ task, t.kind.task = some task → task < s₀.votes.length

theorem AtLoop.soloAt (h : AtLoop s₀ i t) (rs : ℕ → Verdict) : SoloAt s₀ t.kind rs i (s₀, 0) := by
  have hpc := h.pc
  refine ⟨t, h.thread, h.alive, rfl, h.sock, by rw [hpc]; rfl, h.nodes, ?_, ?_, fun _ => ?_,
    fun ip hip => absurd hip (h.quiet ip), fun task htask => ?_, ?_, fun j hj => absurd hj (Nat.not_lt_zero j), ?_, ?_, ?_⟩
  · exact ⟨fun n hn => by simp [hpc, Pc.drawPc, DrawPc.node] at hn, fun n acc hn => by simp [hpc] at hn⟩
  · intro acc hacc
    simp [hpc, Pc.pending, Pc.concerns, Pc.holds] at hacc
  · simp [hpc, Pc.held, Pc.holds]
  · obtain ⟨v, hv⟩ : ∃ v, s₀.votes[task]? = some v := ⟨_, List.getElem?_eq_getElem (h.votes task htask)⟩
    refine ⟨v.successCount, ?_, ?_⟩
    · rw [Server.vote_eq hv, hv]
    · rw [Server.vote_eq hv, hpc]
      simp [Pc.owed, successes]
  · simp [hpc, Pc.unrecorded, takenOut, eligibleAccs]
  · simp [hpc, Pc.isSending]
  · simp [hpc]
  · simp [hpc]

/-- **When a session alone leaves its loop.** It does after finitely many
steps exactly if, after some number of replies, a vote session's success count
is the target or as many replies have taken an account out as were eligible. -/
theorem leaves_iff (h : AtLoop s₀ i t) (rs : ℕ → Verdict) :
    (∃ p, Trans.Reach (soloStep i rs) (fun p _ => ¬ hasLeft i p) (s₀, 0) p ∧ hasLeft i p) ↔
      ∃ k, s₀.LeavesAt t.kind rs k := by
  constructor
  · rintro ⟨p, hr, hleft⟩
    exact leavesAt_of_leaves (h.soloAt rs) hr hleft
  · rintro ⟨K, hK⟩
    exact leaves_of_leavesAt (h.soloAt rs) hK

/-- Other failures alone do not end it. -/
theorem not_leavesAt_other
    (hvote : ∀ task, kind.task = some task → (s₀.vote task).successCount ≠ (s₀.vote task).targetCount)
    (hacc : (s₀.eligibleAccs kind).Nonempty) (k : ℕ) : ¬ s₀.LeavesAt kind (fun _ => .other) k := by
  have h0 : successes (fun _ => .other) k = 0 ∧ takenOut (fun _ => .other) k = 0 := by
    simp [successes, takenOut]
  have hpos := Finset.card_pos.mpr hacc
  rintro (⟨task, htask, heq⟩ | hle)
  · rw [h0.1] at heq
    exact hvote task htask (by simpa using heq)
  · omega

end Step

/-! ### One phone, one account, target one -/

/-- The session of `soloStart` is connected. -/
def soloConnected : Server := (Trans.run step soloStart (moves 0 [.go, .go, .go, .ok])).get (by decide)

theorem soloConnected_atLoop : AtLoop soloConnected 0 ⟨0, Str.of "p", .vote 0 (Str.of "u"), true, .draw⟩ where
  thread := by decide
  pc := rfl
  sock := rfl
  alive := by decide
  nodes := ⟨by decide, by decide⟩
  quiet := soloConnected.devices.getStatus_ne_of_getStatusCount (by decide) (by decide)
  votes task htask := by
    obtain rfl := Option.some.inj htask
    decide

theorem leaves_iff_success :
    (∃ p, Trans.Reach (soloStep 0 fun _ => .success) (fun p _ => ¬ hasLeft 0 p) (soloConnected, 0) p ∧ hasLeft 0 p) ↔
      ∃ k, soloConnected.LeavesAt (.vote 0 (Str.of "u")) (fun _ => .success) k :=
  leaves_iff soloConnected_atLoop fun _ => .success

/-- A phone that answers every command with some other failure keeps the
session in its loop. -/
theorem never_leaves :
    ¬ ∀ (s₀ : Server) (i : ℕ) (t : Thread) (rs : ℕ → Verdict), AtLoop s₀ i t →
      ∃ p, Trans.Reach (soloStep i rs) (fun p _ => ¬ hasLeft i p) (s₀, 0) p ∧ hasLeft i p := by
  intro h
  obtain ⟨p, hr, hleft⟩ := h _ _ _ (fun _ => .other) soloConnected_atLoop
  obtain ⟨k, hk⟩ := leavesAt_of_leaves (soloConnected_atLoop.soloAt _) hr hleft
  refine not_leavesAt_other (fun task htask => ?_) ⟨Str.of "a", ?_⟩ k hk
  · obtain rfl := Option.some.inj htask
    decide
  · decide

end Server
end ScheduleCenter
