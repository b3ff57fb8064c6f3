/-
# The account manager: `wx_account_mgr`

The table `accounts_pro` (a `std::map` keyed by account name), the list
`idle_accounts`, and the operations on them, each as the code under its lock
computes it. A list node has an identity (`Node.id`): the two draw operations
keep an iterator across the gap between the shared and the exclusive lock, so
what they erase is a node, not a name. `operator[]` inserts a value-initialised
record on a miss; the draw of the daily task reads the table that way
(`scanDaily`), the draw of the vote task asks `get_vote_status` first and never
misses.

The SQL statements each setter issues are left out here: what they do to the
table in memory does not depend on them.

Key definitions: `AccountMgr`, `AccountMgr.pickNotVote`, `AccountMgr.pickNotDaily`,
`AccountMgr.eraseIdle`, `AccountMgr.setIdleAccount`, `AccountMgr.loadData`.
Key theorems: `AccountMgr.pickNotDaily_fst`, `AccountMgr.pickNotDaily_at`,
`NodesDistinct.perm_eraseIdle`, `AccountMgr.loadData_idle`.
-/
import Mathlib.Data.List.AList
import Mathlib.Data.Finset.Basic

namespace ScheduleCenter

/-- A `std::string`: bytes. -/
abbrev Str := List UInt8

/-- Names are compared in one way in all modules. -/
instance Str.instLawfulBEq : LawfulBEq Str := List.instLawfulBEq

/-- The bytes of an ASCII literal. -/
def Str.of (s : String) : Str := s.toList.map fun c => UInt8.ofNat c.toNat

/-- `WX_ACCOUNT_PRO`. -/
structure AccountPro where
  password : Str
  nickname : Str
  imei : Str
  everydayTaskCompleted : Int
  status : Int
  votedUrl : Finset Str
deriving DecidableEq

/-- The record `operator[]` inserts: value-initialised. -/
instance : Inhabited AccountPro := ⟨⟨[], [], [], 0, 0, ∅⟩⟩

def statusVoted : Int := 1
def statusNotVote : Int := 2
def dailytaskNotFinished : Int := 0
def dailytaskFinished : Int := 1
def statusNormal : Int := 0
def statusAbnormal : Int := 1

/-- A node of `idle_accounts`. -/
structure Node where
  id : ℕ
  acc : Str
deriving DecidableEq

/-- `accounts_pro`. -/
abbrev AccountsPro := AList fun _ : Str => AccountPro

structure AccountMgr where
  accountsPro : AccountsPro
  idle : List Node
  /-- The identity of the next node pushed. -/
  nextId : ℕ
deriving DecidableEq

/-- `accounts_pro[acc]`, read: the record found, or the one inserted. -/
def AccountsPro.at (m : AccountsPro) (acc : Str) : AccountPro := (m.lookup acc).getD default

/-- What `accounts_pro[acc]` leaves behind. -/
def AccountsPro.touch (m : AccountsPro) (acc : Str) : AccountsPro :=
  if acc ∈ m then m else m.insert acc default

namespace AccountMgr

/-- The names in `idle_accounts`, in list order. -/
def idleAccs (m : AccountMgr) : List Str := m.idle.map (·.acc)

/-! ### The setters -/

/-- A setter looks the account up and changes its record, or returns. -/
def update (m : AccountMgr) (acc : Str) (f : AccountPro → AccountPro) : AccountMgr :=
  match m.accountsPro.lookup acc with
  | none => m
  | some p => { m with accountsPro := m.accountsPro.insert acc (f p) }

/-- `set_vote_status`: the status argument is not read. -/
def setVoteStatus (m : AccountMgr) (acc url : Str) : AccountMgr :=
  m.update acc fun p => { p with votedUrl := insert url p.votedUrl }

def setAccStatus (m : AccountMgr) (acc : Str) (status : Int) : AccountMgr :=
  m.update acc fun p => { p with status := status }

def setEverydayTask (m : AccountMgr) (acc : Str) (done : Int) : AccountMgr :=
  m.update acc fun p => { p with everydayTaskCompleted := done }

/-! ### The draws -/

def getVoteStatus (m : AccountMgr) (acc url : Str) : Int :=
  match m.accountsPro.lookup acc with
  | none => statusVoted
  | some p => if url ∈ p.votedUrl then statusVoted else statusNotVote

/-- The test in the loop of `get_idle_not_vote_account`. -/
def votable (m : AccountMgr) (url acc : Str) : Bool :=
  !(m.getVoteStatus acc url == statusVoted || (m.accountsPro.at acc).status == statusAbnormal)

/-- The test in the loop of `get_idle_not_daily_task_account`. -/
def dailyable (m : AccountMgr) (acc : Str) : Bool :=
  !((m.accountsPro.at acc).everydayTaskCompleted == dailytaskFinished ||
    (m.accountsPro.at acc).status == statusAbnormal)

/-- `get_idle_not_vote_account` under the shared lock: the node it stops at. -/
def pickNotVote (m : AccountMgr) (url : Str) : Option Node :=
  m.idle.find? fun n => m.votable url n.acc

/-- The loop of `get_idle_not_daily_task_account`: the node it stops at, and
the table after its `operator[]` reads. -/
def scanDaily (m : AccountsPro) : List Node → Option Node × AccountsPro
  | [] => (none, m)
  | n :: ns =>
    if (m.at n.acc).everydayTaskCompleted == dailytaskFinished ||
        (m.at n.acc).status == statusAbnormal then
      scanDaily (m.touch n.acc) ns
    else (some n, m.touch n.acc)

/-- `get_idle_not_daily_task_account` under the shared lock. -/
def pickNotDaily (m : AccountMgr) : Option Node × AccountMgr :=
  ((scanDaily m.accountsPro m.idle).1, { m with accountsPro := (scanDaily m.accountsPro m.idle).2 })

/-- `idle_accounts.erase(itor)` under the exclusive lock. If the node is no
longer in the list the call is undefined in C++; here the list stays. -/
def eraseIdle (m : AccountMgr) (n : Node) : AccountMgr :=
  { m with idle := m.idle.filter (·.id ≠ n.id) }

/-- `set_idle_account`. -/
def setIdleAccount (m : AccountMgr) (acc : Str) : AccountMgr :=
  { m with idle := m.idle ++ [⟨m.nextId, acc⟩], nextId := m.nextId + 1 }

/-- `get_idle_not_vote_count`: the second test reads the table only when the
first one has found the account there. -/
def getIdleNotVoteCount (m : AccountMgr) (url : Str) : ℕ :=
  m.idle.countP fun n =>
    m.getVoteStatus n.acc url == statusNotVote && (m.accountsPro.at n.acc).status == statusNormal

/-! ### Loading -/

/-- A row: its account goes to the end of `idle_accounts`; the table keeps the
first row of a name. -/
def loadRow (m : AccountMgr) (r : Str × AccountPro) : AccountMgr :=
  { m.setIdleAccount r.1 with
    accountsPro := if r.1 ∈ m.accountsPro then m.accountsPro else m.accountsPro.insert r.1 r.2 }

/-- `load_data`. -/
def loadData (rows : List (Str × AccountPro)) : AccountMgr := rows.foldl loadRow ⟨∅, [], 0⟩

/-! ### What the operations keep -/

@[simp]
theorem update_idle (m : AccountMgr) (acc : Str) (f : AccountPro → AccountPro) :
    (m.update acc f).idle = m.idle := by
  unfold update
  split <;> rfl

@[simp]
theorem update_nextId (m : AccountMgr) (acc : Str) (f : AccountPro → AccountPro) :
    (m.update acc f).nextId = m.nextId := by
  unfold update
  split <;> rfl

theorem lookup_update (m : AccountMgr) (acc acc' : Str) (f : AccountPro → AccountPro) :
    (m.update acc f).accountsPro.lookup acc' =
      if acc' = acc then (m.accountsPro.lookup acc).map f else m.accountsPro.lookup acc' := by
  unfold update
  by_cases hacc : acc' = acc
  · subst hacc
    cases hp : m.accountsPro.lookup acc' <;> simp [hp]
  · rw [if_neg hacc]
    cases hp : m.accountsPro.lookup acc with
    | none => rfl
    | some p => exact AList.lookup_insert_ne hacc

/-- A setter adds no account. -/
@[simp]
theorem mem_update {m : AccountMgr} {acc acc' : Str} {f : AccountPro → AccountPro} :
    acc' ∈ (m.update acc f).accountsPro ↔ acc' ∈ m.accountsPro := by
  rw [← AList.lookup_isSome, ← AList.lookup_isSome, lookup_update]
  split_ifs with hacc
  · rw [hacc, Option.isSome_map]
  · rfl

@[simp]
theorem idleAccs_setIdleAccount (m : AccountMgr) (acc : Str) :
    (m.setIdleAccount acc).idleAccs = m.idleAccs ++ [acc] := by
  simp [idleAccs, setIdleAccount]

/-- A read through `operator[]` does not change what later reads find. -/
@[simp]
theorem at_touch (m : AccountsPro) (acc acc' : Str) : (m.touch acc).at acc' = m.at acc' := by
  unfold AccountsPro.touch
  split
  · rfl
  · rename_i hacc
    unfold AccountsPro.at
    by_cases h : acc' = acc
    · subst h
      rw [AList.lookup_insert, AList.lookup_eq_none.mpr hacc]
      rfl
    · rw [AList.lookup_insert_ne h]

theorem scanDaily_eq (m : AccountsPro) : ∀ l : List Node,
    (scanDaily m l).1 = l.find? (fun n => !((m.at n.acc).everydayTaskCompleted == dailytaskFinished ||
      (m.at n.acc).status == statusAbnormal)) ∧ ∀ acc, (scanDaily m l).2.at acc = m.at acc
  | [] => ⟨rfl, fun _ => rfl⟩
  | n :: l => by
    obtain ⟨h1, h2⟩ := scanDaily_eq (m.touch n.acc) l
    unfold scanDaily
    split
    · rename_i h
      simp only [at_touch] at h1 h2
      exact ⟨by rw [h1, List.find?_cons_of_neg (by simp only [h]; decide)], h2⟩
    · rename_i h
      refine ⟨?_, fun acc => at_touch _ _ _⟩
      simp only [Bool.not_eq_true] at h
      rw [List.find?_cons_of_pos (by simp only [h]; decide)]

/-- The daily draw stops at the first account it may take. -/
theorem pickNotDaily_fst (m : AccountMgr) : m.pickNotDaily.1 = m.idle.find? fun n => m.dailyable n.acc :=
  (scanDaily_eq m.accountsPro m.idle).1

@[simp]
theorem pickNotDaily_at (m : AccountMgr) (acc : Str) : m.pickNotDaily.2.accountsPro.at acc = m.accountsPro.at acc :=
  (scanDaily_eq m.accountsPro m.idle).2 acc

/-- The nodes of the list are different nodes, and so is the next one. -/
structure NodesDistinct (m : AccountMgr) : Prop where
  ids : (m.idle.map (·.id)).Nodup
  fresh : ∀ n ∈ m.idle, n.id < m.nextId

theorem NodesDistinct.of_idle_eq {m m' : AccountMgr} (h : m.NodesDistinct) (hidle : m'.idle = m.idle)
    (hnext : m'.nextId = m.nextId) : m'.NodesDistinct :=
  ⟨by rw [hidle]; exact h.ids, by rw [hidle, hnext]; exact h.fresh⟩

theorem NodesDistinct.eraseIdle {m : AccountMgr} (h : m.NodesDistinct) (n : Node) : (m.eraseIdle n).NodesDistinct :=
  ⟨h.ids.sublist (List.filter_sublist.map _), fun x hx => h.fresh x (List.mem_filter.mp hx).1⟩

theorem NodesDistinct.setIdleAccount {m : AccountMgr} (h : m.NodesDistinct) (acc : Str) :
    (m.setIdleAccount acc).NodesDistinct := by
  refine ⟨?_, fun n hn => ?_⟩
  · simp only [AccountMgr.setIdleAccount, List.map_append, List.map_cons, List.map_nil]
    refine List.nodup_append.mpr ⟨h.ids, List.nodup_singleton _, fun x hx y hy => ?_⟩
    obtain ⟨n, hn, rfl⟩ := List.mem_map.mp hx
    have := h.fresh n hn
    rw [List.mem_singleton.mp hy]
    omega
  · show n.id < m.nextId + 1
    rcases List.mem_append.mp hn with hn | hn
    · have := h.fresh n hn
      omega
    · rw [List.mem_singleton.mp hn]
      exact Nat.lt_succ_self _

/-- Erasing takes one account out of the list. -/
theorem NodesDistinct.perm_eraseIdle {m : AccountMgr} (h : m.NodesDistinct) {n : Node} (hn : n ∈ m.idle) :
    m.idle.Perm (n :: (m.eraseIdle n).idle) := by
  have hid := h.ids
  have hnd : m.idle.Nodup := List.Nodup.of_map _ hid
  have hf : (m.eraseIdle n).idle = m.idle.erase n := by
    rw [hnd.erase_eq_filter]
    refine List.filter_congr fun x hx => ?_
    have hinj : x.id = n.id ↔ x = n := ⟨fun h => List.inj_on_of_nodup_map hid hx hn h, fun h => by rw [h]⟩
    by_cases hxn : x = n <;> simp [hinj, hxn]
  rw [hf]
  exact List.perm_cons_erase hn

theorem loadData_idle (rows : List (Str × AccountPro)) :
    (loadData rows).NodesDistinct ∧ (loadData rows).idleAccs = rows.map (·.1) := by
  induction rows using List.reverseRecOn with
  | nil => exact ⟨⟨List.nodup_nil, fun n hn => by cases hn⟩, rfl⟩
  | append_singleton rows r ih =>
    have hsnoc : loadData (rows ++ [r]) = (loadData rows).loadRow r := by simp [loadData]
    rw [hsnoc]
    refine ⟨(ih.1.setIdleAccount r.1).of_idle_eq rfl rfl, ?_⟩
    show ((loadData rows).setIdleAccount r.1).idleAccs = _
    rw [idleAccs_setIdleAccount, ih.2, List.map_append]
    rfl

/-- The accounts of the table are those of the rows. -/
theorem mem_loadData {acc : Str} (rows : List (Str × AccountPro)) :
    acc ∈ (loadData rows).accountsPro ↔ acc ∈ rows.map (·.1) := by
  induction rows using List.reverseRecOn with
  | nil => simp [loadData]
  | append_singleton rows r ih =>
    have hsnoc : loadData (rows ++ [r]) = (loadData rows).loadRow r := by simp [loadData]
    have hmem : acc ∈ ((loadData rows).loadRow r).accountsPro ↔ acc ∈ (loadData rows).accountsPro ∨ acc = r.1 := by
      show acc ∈ (if r.1 ∈ (loadData rows).accountsPro then _ else _) ↔ _
      split_ifs with hr
      · exact ⟨Or.inl, fun h => h.elim id fun h => h ▸ hr⟩
      · rw [AList.mem_insert, or_comm]
    rw [hsnoc, hmem, ih, List.map_append, List.mem_append, List.map_singleton, List.mem_singleton]

end AccountMgr
end ScheduleCenter
