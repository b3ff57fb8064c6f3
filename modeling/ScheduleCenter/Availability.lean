/-
# The count of idle accounts and the draws

`wx_vote::do_task` takes a task on if `get_idle_not_vote_count` finds enough
accounts, and its sessions draw them with `get_idle_not_vote_account`. The two
loops run over the same list with tests of their own: the count wants the
status `WX_ACCOUNT_STATUS_NORMAL`, the draw any but `WX_ACCOUNT_STATUS_ABNORMAL`.

Draws with nothing in between hand out what passes the draw's test, in list
order (`notVoteDraws_eq`), and what is counted passes it. So there are never
fewer accounts than counted (`getIdleNotVoteCount_le`); there are as many if and
only if no account that could vote has a third status (`countAgrees_iff`). A
row of the database may have one (`third_status`).

Key definitions: `AccountMgr.getIdleNotVoteAccount`, `AccountMgr.notVoteDraws`, `AccountMgr.CountAgrees`.
Key theorems: `notVoteDraws_eq`, `getIdleNotVoteCount_le`, `countAgrees_iff`.
-/
import ScheduleCenter.AccountMgr
import ScheduleCenter.Base.Draw

namespace ScheduleCenter
namespace AccountMgr

/-- The test in the loop of `get_idle_not_vote_count`. -/
def counted (m : AccountMgr) (url acc : Str) : Bool :=
  m.getVoteStatus acc url == statusNotVote && (m.accountsPro.at acc).status == statusNormal

/-- `get_idle_not_vote_account`, nothing happening between its two locks. -/
def getIdleNotVoteAccount (m : AccountMgr) (url : Str) : Option (Str × AccountMgr) :=
  (m.pickNotVote url).map fun n => (n.acc, m.eraseIdle n)

/-- So many calls in a row: the accounts they return, if they all succeed. -/
def notVoteDraws (url : Str) : ℕ → AccountMgr → Option (List Str × AccountMgr)
  | 0, m => some ([], m)
  | k + 1, m => (m.getIdleNotVoteAccount url).bind fun d => (notVoteDraws url k d.2).map fun r => (d.1 :: r.1, r.2)

/-- As many calls as counted succeed and the next one fails; they return the
counted accounts in list order and leave the others. -/
def CountAgrees (m : AccountMgr) (url : Str) : Prop :=
  ∃ m', notVoteDraws url (m.getIdleNotVoteCount url) m =
      some ((m.idle.filter fun n => m.counted url n.acc).map (·.acc), m') ∧
    m'.getIdleNotVoteAccount url = none ∧
    m'.idle = m.idle.filter (fun n => !m.counted url n.acc) ∧ m'.accountsPro = m.accountsPro

/-! ### The draws on the list -/

/-- What a call leaves in the list if it stops at the first node that passes. -/
theorem eraseIdle_pickNotVote {m : AccountMgr} (hm : m.NodesDistinct) {url : Str} {n : Node}
    (hn : m.pickNotVote url = some n) : (m.eraseIdle n).idle = m.idle.eraseP fun n => m.votable url n.acc := by
  obtain ⟨hp, l₁, l₂, hl, hbefore⟩ := List.find?_eq_some_iff_append.mp hn
  have hids := hm.ids
  rw [hl, List.map_append, List.map_cons] at hids
  have hne : ∀ x ∈ l₁ ++ l₂, x.id ≠ n.id := by
    intro x hx heq
    have hperm : (n.id :: (l₁.map (·.id) ++ l₂.map (·.id))).Nodup := List.nodup_middle.mp hids
    refine (List.nodup_cons.mp hperm).1 ?_
    rw [← List.map_append, ← heq]
    exact List.mem_map_of_mem hx
  have hrest : (m.eraseIdle n).idle = l₁ ++ l₂ := by
    show m.idle.filter (·.id ≠ n.id) = _
    rw [hl, List.filter_append, List.filter_cons_of_neg (by simp)]
    rw [← List.filter_append, List.filter_eq_self]
    exact fun x hx => by simpa using hne x hx
  rw [hrest, hl, List.eraseP_append_right _ fun x hx => by simpa using hbefore x hx,
    List.eraseP_cons_of_pos (p := fun n : Node => m.votable url n.acc) hp]

/-- A call is a draw from the list. -/
theorem getIdleNotVoteAccount_eq {m : AccountMgr} (hm : m.NodesDistinct) (url : Str) :
    m.getIdleNotVoteAccount url =
      (Draw.draw (fun n => m.votable url n.acc) m.idle).map fun d => (d.1.acc, { m with idle := d.2 }) := by
  rcases hn : m.pickNotVote url with _ | n
  · have hfind : (m.idle.find? fun n => m.votable url n.acc) = none := hn
    simp [getIdleNotVoteAccount, Draw.draw, hn, hfind]
  · have hfind : (m.idle.find? fun n => m.votable url n.acc) = some n := hn
    simp only [getIdleNotVoteAccount, Draw.draw, hn, hfind, Option.map_some, ← eraseIdle_pickNotVote hm hn]
    rfl

/-- Calls in a row are draws from the list. -/
theorem notVoteDraws_eq (url : Str) : ∀ (k : ℕ) {m : AccountMgr}, m.NodesDistinct →
    notVoteDraws url k m = (Draw.draws (fun n => m.votable url n.acc) k m.idle).map
      fun r => (r.1.map (·.acc), { m with idle := r.2 })
  | 0, _, _ => rfl
  | k + 1, m, hm => by
    rw [notVoteDraws, Draw.draws, getIdleNotVoteAccount_eq hm]
    rcases hd : Draw.draw (fun n => m.votable url n.acc) m.idle with _ | ⟨n, l⟩
    · simp only [hd, Option.map_none, Option.bind_none]
    · have hsub : l.Sublist m.idle := Draw.draw_sublist _ hd
      have hm' : NodesDistinct { m with idle := l } :=
        ⟨hm.ids.sublist (hsub.map _), fun n hn => hm.fresh n (hsub.subset hn)⟩
      simp only [hd, Option.map_some, Option.bind_some, notVoteDraws_eq url k hm', Option.map_map]
      rfl

/-! ### The two tests -/

theorem getIdleNotVoteCount_eq (m : AccountMgr) (url : Str) :
    m.getIdleNotVoteCount url = (m.idle.filter fun n => m.counted url n.acc).length :=
  List.countP_eq_length_filter

theorem counted_iff {m : AccountMgr} {url acc : Str} : m.counted url acc ↔
    ∃ p, m.accountsPro.lookup acc = some p ∧ url ∉ p.votedUrl ∧ p.status = statusNormal := by
  unfold counted getVoteStatus AccountsPro.at
  rcases m.accountsPro.lookup acc with _ | p
  · simp [statusVoted, statusNotVote]
  · by_cases hurl : url ∈ p.votedUrl <;> simp [hurl, statusVoted, statusNotVote]

theorem votable_iff {m : AccountMgr} {url acc : Str} : m.votable url acc ↔
    ∃ p, m.accountsPro.lookup acc = some p ∧ url ∉ p.votedUrl ∧ p.status ≠ statusAbnormal := by
  unfold votable getVoteStatus AccountsPro.at
  rcases m.accountsPro.lookup acc with _ | p
  · simp [statusVoted]
  · by_cases hurl : url ∈ p.votedUrl <;> simp [hurl, statusVoted, statusNotVote]

/-- What is counted may be drawn. -/
theorem votable_of_counted {m : AccountMgr} {url acc : Str} (h : m.counted url acc) : m.votable url acc := by
  obtain ⟨p, hp, hurl, hstatus⟩ := counted_iff.mp h
  exact votable_iff.mpr ⟨p, hp, hurl, by rw [hstatus]; decide⟩

/-- At least as many calls in a row succeed as accounts are counted. -/
theorem getIdleNotVoteCount_le {m : AccountMgr} (hm : m.NodesDistinct) (url : Str) :
    ∃ r, notVoteDraws url (m.getIdleNotVoteCount url) m = some r := by
  rw [notVoteDraws_eq url _ hm, getIdleNotVoteCount_eq]
  have hle : (m.idle.filter fun n => m.counted url n.acc).length ≤
      (m.idle.filter fun n => m.votable url n.acc).length :=
    (List.monotone_filter_right _ fun _ hn => votable_of_counted hn).length_le
  obtain ⟨r, hr⟩ := Draw.draws_isSome (fun n : Node => m.votable url n.acc) hle
  exact ⟨_, by rw [hr]; rfl⟩

/-- **The count is what the draws find if and only if no idle account that
has not voted for the url has a status other than the two known ones.** -/
theorem countAgrees_iff {m : AccountMgr} (hm : m.NodesDistinct) (url : Str) :
    m.CountAgrees url ↔ ∀ n ∈ m.idle, ∀ p, m.accountsPro.lookup n.acc = some p → url ∉ p.votedUrl →
      p.status = statusNormal ∨ p.status = statusAbnormal := by
  have htests : (∀ n ∈ m.idle, ∀ p, m.accountsPro.lookup n.acc = some p → url ∉ p.votedUrl →
      p.status = statusNormal ∨ p.status = statusAbnormal) ↔
      ∀ n ∈ m.idle, m.votable url n.acc → m.counted url n.acc := by
    apply forall₂_congr
    intro n hn
    simp only [votable_iff, counted_iff]
    constructor
    · rintro h ⟨p, hp, hurl, hstatus⟩
      exact ⟨p, hp, hurl, (h p hp hurl).resolve_right hstatus⟩
    · intro h p hp hurl
      by_cases hstatus : p.status = statusAbnormal
      · exact Or.inr hstatus
      · obtain ⟨p', hp', -, hnormal⟩ := h ⟨p, hp, hurl, hstatus⟩
        rw [hp] at hp'
        cases hp'
        exact Or.inl hnormal
  rw [htests]
  constructor
  · rintro ⟨m', hdraws, hnone, -, hpro⟩
    rw [notVoteDraws_eq url _ hm, getIdleNotVoteCount_eq] at hdraws
    obtain ⟨⟨ns, l⟩, hl, he⟩ := Option.map_eq_some_iff.mp hdraws
    simp only [Prod.mk.injEq] at he
    obtain ⟨-, rfl⟩ := he
    obtain ⟨hlen, hfilter, -⟩ := Draw.draws_filter _ hl
    have hnil : (l.filter fun n => m.votable url n.acc) = [] := by
      refine List.filter_eq_nil_iff.mpr ?_
      exact List.find?_eq_none.mp (Option.map_eq_none_iff.mp hnone)
    rw [hnil, List.append_nil] at hfilter
    refine (Draw.length_filter_eq_iff _ (fun n hn => votable_of_counted hn) m.idle).mp ?_
    rw [hfilter, hlen]
  · intro h
    have hsame : m.idle.filter (fun n => m.counted url n.acc) = m.idle.filter fun n => m.votable url n.acc :=
      List.filter_congr fun n hn => Bool.eq_iff_iff.mpr ⟨votable_of_counted, h n hn⟩
    have hothers : m.idle.filter (fun n => !m.counted url n.acc) = m.idle.filter fun n => !m.votable url n.acc :=
      List.filter_congr fun n hn => congrArg _ (Bool.eq_iff_iff.mpr ⟨votable_of_counted, h n hn⟩)
    refine ⟨{ m with idle := m.idle.filter fun n => !m.votable url n.acc }, ?_, ?_, hothers.symm, rfl⟩
    · rw [notVoteDraws_eq url _ hm, getIdleNotVoteCount_eq, hsame, Draw.draws_all]
      rfl
    · refine Option.map_eq_none_iff.mpr (List.find?_eq_none.mpr fun n hn => ?_)
      have hn' : m.votable url n.acc = false := by simpa using (List.mem_filter.mp hn).2
      exact fun hp => absurd (hn'.symm.trans hp) (by decide)

/-- The records of one account as the database has it, and what is loaded. -/
def oneAccount (status : Int) : AccountMgr := loadData [(Str.of "a", { (default : AccountPro) with status := status })]

/-- Two accounts for the url, one that is not normal, one that has voted, and one
that has voted with a status of its own. -/
def fiveAccounts : AccountMgr := loadData
  [(Str.of "a", default), (Str.of "b", { (default : AccountPro) with status := statusAbnormal }),
    (Str.of "c", { (default : AccountPro) with votedUrl := {Str.of "u"} }), (Str.of "d", default),
    (Str.of "e", { (default : AccountPro) with votedUrl := {Str.of "u"}, status := 2 })]

theorem countAgrees_fiveAccounts :
    fiveAccounts.getIdleNotVoteCount (Str.of "u") = 2 ∧ fiveAccounts.CountAgrees (Str.of "u") := by
  have hdistinct : fiveAccounts.NodesDistinct := (loadData_idle _).1
  have hall : ∀ n ∈ fiveAccounts.idle, (fiveAccounts.accountsPro.lookup n.acc).all fun p =>
      Str.of "u" ∈ p.votedUrl ∨ p.status = statusNormal ∨ p.status = statusAbnormal := by decide
  refine ⟨by decide, (countAgrees_iff hdistinct (Str.of "u")).mpr fun n hn p hp hurl => ?_⟩
  have hn' := hall n hn
  rw [hp, Option.all_some, decide_eq_true_eq] at hn'
  exact hn'.resolve_left hurl

/-- An account loaded with the status 2 is drawn and not counted. -/
theorem third_status : ¬ ∀ (m : AccountMgr) (url : Str), m.NodesDistinct → (∀ n ∈ m.idle, n.acc ∈ m.accountsPro) →
    m.CountAgrees url := by
  intro h
  have hkeys : ∀ n ∈ (oneAccount 2).idle, n.acc ∈ (oneAccount 2).accountsPro := by decide
  obtain ⟨m', hdraws, hnone, -, -⟩ := h (oneAccount 2) (Str.of "u") (loadData_idle _).1 hkeys
  have hcount : (oneAccount 2).getIdleNotVoteCount (Str.of "u") = 0 := by decide
  rw [hcount] at hdraws
  obtain ⟨-, rfl⟩ := Prod.mk.inj (Option.some.inj hdraws)
  have hdraw : ((oneAccount 2).getIdleNotVoteAccount (Str.of "u")).isSome := by decide
  rw [hnone] at hdraw
  cases hdraw

end AccountMgr
end ScheduleCenter
