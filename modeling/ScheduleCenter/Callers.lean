/-
# Who owns an account

The account manager with any number of threads that call it, each section
under its lock one step. A draw (`get_idle_not_vote_account`,
`get_idle_not_daily_task_account`) is three: choose a node under the shared
lock, read the name through the iterator, erase the node under the exclusive
lock. Nothing stops a second draw from choosing the same node before the first
one erases it (`owned_twice`).

If no draw chooses a node that another one has chosen and not yet erased,
every account is at every moment in the list once or with one caller, and the
node a draw holds an iterator to is in the list (`owned_once`).

Key definitions: `Callers`, `Callers.step`, `Callers.drawsApart`, `Callers.Owned`,
`Callers.Exclusive`.
Key theorems: `Callers.step_cases`, `Callers.owned_step`, `Callers.owned_once`, `Callers.owned_twice`.
-/
import ScheduleCenter.AccountMgr
import ScheduleCenter.Base.Trans
import ScheduleCenter.Base.Counting

namespace ScheduleCenter

/-- Where a caller is in a draw. -/
inductive DrawPc
  | free
  | picked (n : Node)
  | taken (n : Node) (acc : Str)
deriving DecidableEq

/-- The node the caller holds an iterator to. -/
def DrawPc.node : DrawPc → Option Node
  | .free => none
  | .picked n | .taken n _ => some n

structure Caller where
  pc : DrawPc
  /-- The accounts it has drawn and not put back. -/
  held : List Str
deriving DecidableEq

structure Callers where
  mgr : AccountMgr
  callers : List Caller
deriving DecidableEq

inductive Call
  /-- A new thread. -/
  | arrive
  | pickNotVote (i : ℕ) (url : Str)
  | pickNotDaily (i : ℕ)
  | deref (i : ℕ)
  | erase (i : ℕ)
  /-- `set_idle_account`, by the holder. -/
  | setIdleAccount (i : ℕ) (acc : Str)
  /-- A setter, by anybody. -/
  | update (acc : Str) (f : AccountPro → AccountPro)

namespace Callers

/-- The draw's section under the shared lock has stopped at `n` or found
nothing. -/
def choose (s : Callers) (i : ℕ) : Option Node × AccountMgr → Option Callers
  | (n, m) => (s.callers[i]?).bind fun c =>
    if c.pc = .free then some ⟨m, s.callers.set i { c with pc := n.elim .free .picked }⟩ else none

def step (s : Callers) : Call → Option Callers
  | .arrive => some { s with callers := s.callers ++ [⟨.free, []⟩] }
  | .pickNotVote i url => s.choose i (s.mgr.pickNotVote url, s.mgr)
  | .pickNotDaily i => s.choose i s.mgr.pickNotDaily
  | .deref i => (s.callers[i]?).bind fun c =>
    match c.pc with
    | .picked n => some { s with callers := s.callers.set i { c with pc := .taken n n.acc } }
    | _ => none
  | .erase i => (s.callers[i]?).bind fun c =>
    match c.pc with
    | .taken n acc => some ⟨s.mgr.eraseIdle n, s.callers.set i ⟨.free, acc :: c.held⟩⟩
    | _ => none
  | .setIdleAccount i acc => (s.callers[i]?).bind fun c =>
    if c.pc = .free ∧ acc ∈ c.held then
      some ⟨s.mgr.setIdleAccount acc, s.callers.set i { c with held := c.held.erase acc }⟩
    else none
  | .update acc f => some { s with mgr := s.mgr.update acc f }

/-- `names` in `idle_accounts`, and `n` threads that hold nothing. -/
def start (table : AccountsPro) (names : List Str) (n : ℕ) : Callers :=
  ⟨names.foldl AccountMgr.setIdleAccount ⟨table, [], 0⟩, List.replicate n ⟨.free, []⟩⟩

/-- The node the step chooses. -/
def choice (s : Callers) : Call → Option Node
  | .pickNotVote _ url => s.mgr.pickNotVote url
  | .pickNotDaily _ => s.mgr.pickNotDaily.1
  | _ => none

/-- A draw does not choose a node that another one has chosen and not erased. -/
def drawsApart (s : Callers) (a : Call) : Bool :=
  (s.choice a).all fun n => s.callers.all fun c => c.pc.node ≠ some n

/-- Every one of `names`, and no other account, is in `idle_accounts` once or
with one caller; the nodes the callers hold an iterator to are in the list. -/
structure Exclusive (names : List Str) (s : Callers) : Prop where
  one : ∀ acc, s.mgr.idleAccs.count acc + (s.callers.map fun c => c.held.count acc).sum =
    if acc ∈ names then 1 else 0
  node : ∀ c ∈ s.callers, ∀ n, c.pc.node = some n → n ∈ s.mgr.idle

end Callers

namespace Callers

/-! ### A step, case by case -/

/-- What a step can do. -/
inductive CallCase (s : Callers) : Call → Callers → Prop
  | arrive : CallCase s .arrive { s with callers := s.callers ++ [⟨.free, []⟩] }
  | choose {a : Call} {i : ℕ} {c : Caller} {n : Option Node} {m : AccountMgr} (hc : s.callers[i]? = some c)
      (hpc : c.pc = .free) (hn : s.choice a = n) (hmem : ∀ x, n = some x → x ∈ s.mgr.idle)
      (hidle : m.idle = s.mgr.idle) (hnext : m.nextId = s.mgr.nextId) :
      CallCase s a ⟨m, s.callers.set i { c with pc := n.elim .free .picked }⟩
  | deref {i : ℕ} {c : Caller} {n : Node} (hc : s.callers[i]? = some c) (hpc : c.pc = .picked n) :
      CallCase s (.deref i) { s with callers := s.callers.set i { c with pc := .taken n n.acc } }
  | erase {i : ℕ} {c : Caller} {n : Node} {acc : Str} (hc : s.callers[i]? = some c) (hpc : c.pc = .taken n acc) :
      CallCase s (.erase i) ⟨s.mgr.eraseIdle n, s.callers.set i ⟨.free, acc :: c.held⟩⟩
  | setIdleAccount {i : ℕ} {c : Caller} {acc : Str} (hc : s.callers[i]? = some c) (hpc : c.pc = .free)
      (hheld : acc ∈ c.held) : CallCase s (.setIdleAccount i acc)
        ⟨s.mgr.setIdleAccount acc, s.callers.set i { c with held := c.held.erase acc }⟩
  | update {acc : Str} {f : AccountPro → AccountPro} :
      CallCase s (.update acc f) { s with mgr := s.mgr.update acc f }

theorem choose_cases {s s' : Callers} {a : Call} {i : ℕ} {n : Option Node} {m : AccountMgr}
    (h : s.choose i (n, m) = some s') (hn : s.choice a = n) (hmem : ∀ x, n = some x → x ∈ s.mgr.idle)
    (hidle : m.idle = s.mgr.idle) (hnext : m.nextId = s.mgr.nextId) : CallCase s a s' := by
  simp only [choose, Option.bind_eq_some_iff] at h
  obtain ⟨c, hc, h⟩ := h
  split at h
  · rename_i hpc
    cases h
    exact .choose hc hpc hn hmem hidle hnext
  · cases h

theorem step_cases {s s' : Callers} {a : Call} (h : s.step a = some s') : CallCase s a s' := by
  cases a with
  | arrive => cases h; exact .arrive
  | pickNotVote i url =>
    exact choose_cases h rfl (fun x hx => List.mem_of_find?_eq_some hx) rfl rfl
  | pickNotDaily i =>
    refine choose_cases h rfl (fun x hx => ?_) rfl rfl
    have hf : s.mgr.pickNotDaily.1 = some x := hx
    rw [AccountMgr.pickNotDaily_fst] at hf
    exact List.mem_of_find?_eq_some hf
  | deref i =>
    simp only [step, Option.bind_eq_some_iff] at h
    obtain ⟨c, hc, h⟩ := h
    split at h
    · cases h; exact .deref hc ‹_›
    · cases h
  | erase i =>
    simp only [step, Option.bind_eq_some_iff] at h
    obtain ⟨c, hc, h⟩ := h
    split at h
    · cases h; exact .erase hc ‹_›
    · cases h
  | setIdleAccount i acc =>
    simp only [step, Option.bind_eq_some_iff] at h
    obtain ⟨c, hc, h⟩ := h
    split at h
    · rename_i hg; cases h; exact .setIdleAccount hc hg.1 hg.2
    · cases h
  | update acc f => cases h; exact .update

/-! ### The invariant -/

/-- How often `acc` is in the list or with a caller. -/
def shares (s : Callers) (acc : Str) : ℕ :=
  s.mgr.idleAccs.count acc + (s.callers.map fun c => c.held.count acc).sum

/-- Caller `i` holds an iterator to `n`. -/
def Chosen (s : Callers) (i : ℕ) (n : Node) : Prop := ∃ c, s.callers[i]? = some c ∧ c.pc.node = some n

structure Owned (names : List Str) (s : Callers) : Prop where
  nodes : s.mgr.NodesDistinct
  shares : ∀ acc, s.shares acc = names.count acc
  node : ∀ i n, s.Chosen i n → n ∈ s.mgr.idle
  apart : ∀ i j n, s.Chosen i n → s.Chosen j n → i = j
  acc : ∀ c ∈ s.callers, ∀ n acc, c.pc = .taken n acc → acc = n.acc

section Owned

variable {names : List Str} {s s' : Callers} {a : Call} {i j : ℕ} {c c' : Caller} {m : AccountMgr} {n : Node}

/-- One caller moves: the others' iterators are as before. -/
theorem chosen_set (hc : s.callers[i]? = some c) :
    Chosen ⟨m, s.callers.set i c'⟩ j n ↔ if j = i then c'.pc.node = some n else s.Chosen j n := by
  have hlt := (List.getElem?_eq_some_iff.mp hc).1
  unfold Chosen
  split
  · subst_vars
    simp [hlt]
  · rename_i hji
    simp only [List.getElem?_set_ne (Ne.symm hji)]

theorem shares_set (m : AccountMgr) (c' : Caller) (hc : s.callers[i]? = some c) (acc : Str) :
    shares ⟨m, s.callers.set i c'⟩ acc + c.held.count acc + s.mgr.idleAccs.count acc =
      s.shares acc + c'.held.count acc + m.idleAccs.count acc := by
  have hsum := Counting.sum_map_set_add (fun d : Caller => d.held.count acc) c' hc
  unfold shares
  simp only
  omega

theorem acc_set (h : ∀ d ∈ s.callers, ∀ n acc, d.pc = .taken n acc → acc = n.acc)
    (h' : ∀ n acc, c'.pc = .taken n acc → acc = n.acc) :
    ∀ d ∈ s.callers.set i c', ∀ n acc, d.pc = .taken n acc → acc = n.acc :=
  Counting.forall_mem_set h h'

/-- A caller stays where it is in its draw or leaves it. -/
theorem chosen_of_set (hc : s.callers[i]? = some c) (hnode : c'.pc.node = none ∨ c'.pc.node = c.pc.node)
    (hj : Chosen ⟨m, s.callers.set i c'⟩ j n) : s.Chosen j n := by
  rw [chosen_set hc] at hj
  split at hj
  · subst_vars
    rcases hnode with hn | hn
    · simp [hn] at hj
    · exact ⟨c, hc, hn ▸ hj⟩
  · exact hj

theorem Owned.arrive (h : Owned names s) : Owned names { s with callers := s.callers ++ [⟨.free, []⟩] } := by
  have hch : ∀ i n, Chosen { s with callers := s.callers ++ [⟨.free, []⟩] } i n → s.Chosen i n := by
    rintro i n ⟨c, hc, hn⟩
    rw [List.getElem?_append] at hc
    split at hc
    · exact ⟨c, hc, hn⟩
    · have hc := List.mem_singleton.mp (List.mem_of_getElem? hc)
      simp [hc, DrawPc.node] at hn
  refine ⟨h.nodes, fun acc => ?_, fun i n hi => h.node i n (hch i n hi),
    fun i j n hi hj => h.apart i j n (hch i n hi) (hch j n hj), fun c hc => ?_⟩
  · rw [← h.shares acc]
    simp [Callers.shares]
  · rcases List.mem_append.mp hc with hc | hc
    · exact h.acc c hc
    · simp [List.mem_singleton.mp hc]

/-- A draw chooses a node nobody else has chosen, or none. -/
theorem Owned.choose (h : Owned names s) (hc : s.callers[i]? = some c) {x : Option Node}
    (hmem : ∀ n, x = some n → n ∈ s.mgr.idle) (hfar : ∀ j n, x = some n → ¬ s.Chosen j n)
    (hidle : m.idle = s.mgr.idle) (hnext : m.nextId = s.mgr.nextId) :
    Owned names ⟨m, s.callers.set i { c with pc := x.elim .free .picked }⟩ := by
  have hset : ∀ j n, Chosen ⟨m, s.callers.set i { c with pc := x.elim .free .picked }⟩ j n →
      (j = i ∧ x = some n) ∨ s.Chosen j n := by
    intro j n hj
    rw [chosen_set hc] at hj
    split at hj
    · cases x with
      | none => cases hj
      | some x => exact Or.inl ⟨‹_›, hj⟩
    · exact Or.inr hj
  refine ⟨h.nodes.of_idle_eq hidle hnext, fun acc => ?_, fun j n hj => ?_,
    fun j₁ j₂ n h₁ h₂ => ?_, acc_set h.acc fun n acc hn => ?_⟩
  · have hsh := shares_set m { c with pc := x.elim .free .picked } hc acc
    simp only [AccountMgr.idleAccs, hidle] at hsh
    rw [← h.shares acc]
    omega
  · show n ∈ m.idle
    rw [hidle]
    rcases hset j n hj with ⟨-, hn⟩ | hn
    · exact hmem n hn
    · exact h.node j n hn
  · rcases hset j₁ n h₁ with ⟨rfl, hn⟩ | hn₁ <;> rcases hset j₂ n h₂ with ⟨rfl, hn'⟩ | hn₂
    · rfl
    · exact absurd hn₂ (hfar j₂ n hn)
    · exact absurd hn₁ (hfar j₁ n hn')
    · exact h.apart j₁ j₂ n hn₁ hn₂
  · cases x <;> simp at hn

theorem Owned.deref (h : Owned names s) (hc : s.callers[i]? = some c) (hpc : c.pc = .picked n) :
    Owned names { s with callers := s.callers.set i { c with pc := .taken n n.acc } } := by
  have hch : ∀ j x, Chosen { s with callers := s.callers.set i { c with pc := .taken n n.acc } } j x →
      s.Chosen j x := fun j x => chosen_of_set hc (Or.inr (by rw [hpc]; rfl))
  refine ⟨h.nodes, fun acc => ?_, fun j x hj => h.node j x (hch j x hj),
    fun j₁ j₂ x h₁ h₂ => h.apart j₁ j₂ x (hch j₁ x h₁) (hch j₂ x h₂), acc_set h.acc fun x acc hx => ?_⟩
  · have hsh := shares_set s.mgr { c with pc := .taken n n.acc } hc acc
    simp only at hsh
    rw [← h.shares acc]
    omega
  · cases hx
    rfl

/-- The node erased is in the list, and it is nobody else's. -/
theorem Owned.erase (h : Owned names s) (hc : s.callers[i]? = some c) {acc : Str} (hpc : c.pc = .taken n acc) :
    Owned names ⟨s.mgr.eraseIdle n, s.callers.set i ⟨.free, acc :: c.held⟩⟩ := by
  have hacc : acc = n.acc := h.acc c (List.mem_of_getElem? hc) n acc hpc
  have hi : s.Chosen i n := ⟨c, hc, by rw [hpc]; rfl⟩
  have hmem : n ∈ s.mgr.idle := h.node i n hi
  have hch : ∀ j x, Chosen ⟨s.mgr.eraseIdle n, s.callers.set i ⟨.free, acc :: c.held⟩⟩ j x →
      j ≠ i ∧ s.Chosen j x := by
    intro j x hj
    rw [chosen_set hc] at hj
    split at hj
    · cases hj
    · exact ⟨‹_›, hj⟩
  refine ⟨h.nodes.eraseIdle n, fun a => ?_, fun j x hj => ?_,
    fun j₁ j₂ x h₁ h₂ => h.apart j₁ j₂ x (hch j₁ x h₁).2 (hch j₂ x h₂).2,
    acc_set h.acc fun x acc hx => by cases hx⟩
  · have hcount := ((h.nodes.perm_eraseIdle hmem).map (·.acc)).count_eq a
    have hsh := shares_set (s.mgr.eraseIdle n) ⟨.free, acc :: c.held⟩ hc a
    simp only [List.map_cons, List.count_cons, AccountMgr.idleAccs, ← hacc] at hcount hsh
    rw [← h.shares a]
    omega
  · obtain ⟨hji, hx⟩ := hch j x hj
    have hne : x.id ≠ n.id := fun he => by
      have hxn := List.inj_on_of_nodup_map h.nodes.ids (h.node j x hx) hmem he
      exact hji (h.apart j i n (hxn ▸ hx) hi)
    exact List.mem_filter.mpr ⟨h.node j x hx, by simpa using hne⟩

theorem Owned.setIdleAccount (h : Owned names s) (hc : s.callers[i]? = some c) (hpc : c.pc = .free) {acc : Str}
    (hheld : acc ∈ c.held) :
    Owned names ⟨s.mgr.setIdleAccount acc, s.callers.set i { c with held := c.held.erase acc }⟩ := by
  have hch : ∀ j n, Chosen ⟨s.mgr.setIdleAccount acc, s.callers.set i { c with held := c.held.erase acc }⟩ j n →
      s.Chosen j n := fun j n => chosen_of_set hc (Or.inr rfl)
  refine ⟨h.nodes.setIdleAccount acc, fun a => ?_,
    fun j n hj => List.mem_append_left _ (h.node j n (hch j n hj)),
    fun j₁ j₂ n h₁ h₂ => h.apart j₁ j₂ n (hch j₁ n h₁) (hch j₂ n h₂),
    acc_set h.acc fun n acc hn => by simp [hpc] at hn⟩
  · have hsh := shares_set (s.mgr.setIdleAccount acc) { c with held := c.held.erase acc } hc a
    rw [AccountMgr.idleAccs_setIdleAccount, List.count_append, List.count_singleton, List.count_erase] at hsh
    have hpos := List.count_pos_iff.mpr hheld
    rw [← h.shares a]
    by_cases hacc : acc = a
    · subst hacc
      simp only [BEq.rfl, if_true] at hsh
      omega
    · simp only [beq_iff_eq, hacc, if_false] at hsh
      omega

theorem Owned.update (h : Owned names s) (acc : Str) (f : AccountPro → AccountPro) :
    Owned names { s with mgr := s.mgr.update acc f } := by
  refine ⟨h.nodes.of_idle_eq (by simp) (by simp), fun a => ?_, fun j n hj => ?_, h.apart, h.acc⟩
  · rw [← h.shares a]
    simp [Callers.shares, AccountMgr.idleAccs]
  · simpa using h.node j n hj

/-- What one step keeps. -/
theorem owned_step (h : Owned names s) (ha : s.drawsApart a = true) (hs : s.step a = some s') : Owned names s' := by
  cases step_cases hs
  case arrive => exact h.arrive
  case choose i c x m hc hpc hmem hidle hnext hx =>
    refine h.choose hc hmem ?_ hidle hnext
    rintro j n rfl ⟨d, hd, hdn⟩
    simp only [drawsApart, hx, Option.all_some, List.all_eq_true, decide_eq_true_eq] at ha
    exact ha d (List.mem_of_getElem? hd) hdn
  case deref hc hpc => exact h.deref hc hpc
  case erase hc hpc => exact h.erase hc hpc
  case setIdleAccount hc hpc hheld => exact h.setIdleAccount hc hpc hheld
  case update acc f => exact h.update acc f

theorem Owned.exclusive (h : Owned names s) (hn : names.Nodup) : Exclusive names s where
  one acc := by rw [← hn.count]; exact h.shares acc
  node c hc n hcn := by
    obtain ⟨i, hi⟩ := List.mem_iff_getElem?.mp hc
    exact h.node i n ⟨c, hi, hcn⟩

/-- Caller `i` is drawing `acc` or holds it. -/
def Concerns (s : Callers) (i : ℕ) (acc : Str) : Prop :=
  (∃ n, s.Chosen i n ∧ n.acc = acc) ∨ ∃ c, s.callers[i]? = some c ∧ acc ∈ c.held

/-- No account concerns two callers. -/
theorem Owned.concerns_inj (h : Owned names s) (hn : names.Nodup) {acc : Str} (hi : s.Concerns i acc)
    (hj : s.Concerns j acc) : i = j := by
  have hone : s.mgr.idleAccs.count acc + (s.callers.map fun c => c.held.count acc).sum ≤ 1 := by
    have hs : s.shares acc = names.count acc := h.shares acc
    have hc := hn.count (a := acc)
    unfold Callers.shares at hs
    split at hc <;> omega
  have hidle : ∀ i n, s.Chosen i n → n.acc = acc → 0 < s.mgr.idleAccs.count acc := fun i n hi he =>
    List.count_pos_iff.mpr (List.mem_map.mpr ⟨n, h.node i n hi, he⟩)
  have hheld : ∀ (i : ℕ) (c : Caller), s.callers[i]? = some c → acc ∈ c.held →
      0 < (s.callers.map fun c => c.held.count acc).sum := fun i c hc hm =>
    Nat.lt_of_lt_of_le (List.count_pos_iff.mpr hm)
      (Counting.le_sum_map (fun c : Caller => c.held.count acc) (List.mem_of_getElem? hc))
  rcases hi with ⟨n, hi, hin⟩ | ⟨c, hc, hcm⟩ <;> rcases hj with ⟨n', hj, hjn⟩ | ⟨d, hd, hdm⟩
  · -- two nodes of one account would be two entries of it in the list
    by_cases hnn : n = n'
    · exact h.apart i j n hi (hnn ▸ hj)
    · have hdup : s.mgr.idleAccs.Nodup := by
        refine List.nodup_iff_count_le_one.mpr fun a => ?_
        have hs : s.shares a = names.count a := h.shares a
        have hc := List.nodup_iff_count_le_one.mp hn a
        unfold Callers.shares at hs
        omega
      exact absurd (List.inj_on_of_nodup_map hdup (h.node i n hi) (h.node j n' hj) (hin.trans hjn.symm)) hnn
  · have := hidle i n hi hin
    have := hheld j d hd hdm
    omega
  · have := hidle j n' hj hjn
    have := hheld i c hc hcm
    omega
  · by_contra hij
    have := Counting.add_le_sum_map (fun c : Caller => c.held.count acc) hc hd hij
    have := List.count_pos_iff.mpr hcm
    have := List.count_pos_iff.mpr hdm
    omega

end Owned

/-! ### From any list on -/

/-- Nobody holds anything: the list is everything there is. -/
theorem owned_of_free {s : Callers} (hm : s.mgr.NodesDistinct) (hc : ∀ c ∈ s.callers, c = ⟨.free, []⟩) :
    Owned s.mgr.idleAccs s := by
  have hch : ∀ i n, ¬ s.Chosen i n := by
    rintro i n ⟨c, hi, hn⟩
    simp [hc c (List.mem_of_getElem? hi), DrawPc.node] at hn
  refine ⟨hm, fun acc => ?_, fun i n hi => absurd hi (hch i n), fun i j n hi => absurd hi (hch i n),
    fun c hcm n acc hpc => by simp [hc c hcm] at hpc⟩
  have hzero : (s.callers.map fun c => c.held.count acc).sum = 0 := by
    refine List.sum_eq_zero fun x hx => ?_
    obtain ⟨c, hcm, rfl⟩ := List.mem_map.mp hx
    simp [hc c hcm]
  rw [shares, hzero, Nat.add_zero]

theorem start_owned (table : AccountsPro) (names : List Str) (n : ℕ) : Owned names (start table names n) := by
  have hlist : ∀ l : List Str, (l.foldl AccountMgr.setIdleAccount ⟨table, [], 0⟩).NodesDistinct ∧
      (l.foldl AccountMgr.setIdleAccount ⟨table, [], 0⟩).idleAccs = l := fun l => by
    induction l using List.reverseRecOn with
    | nil => exact ⟨⟨List.nodup_nil, fun n hn => by cases hn⟩, rfl⟩
    | append_singleton l acc ih =>
      rw [List.foldl_append]
      exact ⟨ih.1.setIdleAccount acc, by simp [ih.2]⟩
  have h := owned_of_free (s := start table names n) (hlist names).1 fun c hc => List.eq_of_mem_replicate hc
  rwa [show (start table names n).mgr.idleAccs = names from (hlist names).2] at h

/-- **Exclusive ownership.** In every run in which no draw chooses a node
that another draw has chosen and not yet erased, every account is in the list
once or with one caller, and the nodes the draws hold are in the list. -/
theorem owned_once {table : AccountsPro} {names : List Str} {n : ℕ} (hn : names.Nodup) {s : Callers}
    (hr : Trans.Reach step (fun s a => s.drawsApart a = true) (start table names n) s) : Exclusive names s :=
  (hr.invariant (start_owned table names n) fun _ _ _ h ha hs => owned_step h ha hs).exclusive hn

/-- One caller draws the only account and puts it back. -/
theorem owned_once_roundTrip : Exclusive [Str.of "a"]
    ((Trans.run (Trans.guarded step fun s a => s.drawsApart a = true) (start ∅ [Str.of "a"] 2)
      [.pickNotDaily 0, .deref 0, .erase 0, .setIdleAccount 0 (Str.of "a"), .pickNotDaily 1]).get (by decide)) :=
  owned_once (by decide) (Trans.Reach.of_guarded (Option.some_get _).symm)

/-- Without the condition: both callers choose the only node, one erases it,
and the other still has to read through its iterator. -/
theorem owned_twice :
    ¬ ∀ (table : AccountsPro) (names : List Str) (n : ℕ) (s : Callers), names.Nodup →
      Trans.Reach step (fun _ _ => True) (start table names n) s → Exclusive names s := fun h =>
  have hrun : Trans.run step (start ∅ [Str.of "a"] 2) [.pickNotDaily 0, .pickNotDaily 1, .deref 0, .erase 0] =
      some _ := (Option.some_get (by decide)).symm
  absurd ((h ∅ [Str.of "a"] 2 _ (by decide) (Trans.Reach.of_run hrun)).node ⟨.picked ⟨0, Str.of "a"⟩, []⟩
    (by decide) ⟨0, Str.of "a"⟩ rfl) (by decide)

end Callers
end ScheduleCenter
