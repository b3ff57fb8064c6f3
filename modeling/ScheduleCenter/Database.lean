/-
# The account table and the database

`wx_account_mgr` has the accounts twice: in `accounts_pro` and in two tables of
a MySQL database, from which `load_data` fills `accounts_pro` at the start. A
setter changes the record in memory, writes the text of a statement into a
buffer of its own and executes it; whatever comes of that, it returns. The
database is a parameter (`MySql`), with what is documented of the two kinds of
statements for names that need no escape.

So memory is a cache in front of a store that may miss a change
(`WriteThrough`). After any setters whose statements are executed, or change
nothing in memory, `load_data` would give what is in memory
(`reload_same`). After a vote whose statement fails it would not
(`vote_not_stored`).

Key definitions: `MySql`, `Store`, `Store.call`, `Store.step`, `Store.Kept`, `Store.Agrees`.
Key theorems: `Store.abs_call`, `Store.agrees_call_iff`, `reload_same`, `vote_not_stored`.
-/
import ScheduleCenter.Framing
import ScheduleCenter.Base.Decimal
import ScheduleCenter.Base.WriteThrough
import ScheduleCenter.Base.Trans

namespace ScheduleCenter

open WriteThrough

/-! ### The statements -/

/-- The columns of `wx_accounts_info` that are written. -/
inductive Column
  | status | dailytask
deriving DecidableEq

def Column.name : Column → Str
  | status => Str.of "status"
  | dailytask => Str.of "dailytask"

def Column.set (n : Int) (p : AccountPro) : Column → AccountPro
  | status => { p with status := n }
  | dailytask => { p with everydayTaskCompleted := n }

/-- ``"update `wx_accounts_info` set `..` = '%d' where `acc` = '%s';"``. -/
def updateSql (col : Column) (n : Int) (acc : Str) : Str :=
  Str.of "update `wx_accounts_info` set `" ++ col.name ++ Str.of "` = '" ++ Decimal.signed n ++
    Str.of "' where `acc` = '" ++ cStr acc ++ Str.of "';"

/-- `"insert into wx_vote_url_status set acc = '%s' ,url = '%s';"`. -/
def insertSql (acc url : Str) : Str :=
  Str.of "insert into wx_vote_url_status set acc = '" ++ cStr acc ++ Str.of "' ,url = '" ++ cStr url ++ Str.of "';"

/-- A text that stands for itself between single quotes. -/
def literal (w : Str) : Bool := w.all fun c => c ≠ 39 && c ≠ 92 && c ≠ 0

/-! ### The database -/

/-- A MySQL server with the two tables. -/
structure MySql where
  Db : Type
  /-- `wx_accounts_info`, in the order of `select *`; `votedUrl` is not a column. -/
  rows : Db → List (Str × AccountPro)
  /-- The urls of the rows of `wx_vote_url_status` that `where acc = ?` finds. -/
  urls : Db → Str → List Str
  /-- `=` on the names of accounts: depends on the collation. -/
  same : Str → Str → Bool
  /-- What the columns hold as it is. -/
  keeps : Str → Bool
  keepsInt : Int → Bool
  /-- `execute`; `none` is a `SQLException`. -/
  exec : Str → Db → Option Db
  same_refl : ∀ a, same a a
  exec_update : ∀ {db db' : Db} {col : Column} {n : Int} {acc : Str}, literal acc → keepsInt n →
    exec (updateSql col n acc) db = some db' →
      rows db' = (rows db).map (fun r => if same r.1 acc then (r.1, col.set n r.2) else r) ∧ urls db' = urls db
  exec_insert : ∀ {db db' : Db} {acc url : Str}, literal acc → literal url → keeps acc → keeps url →
    exec (insertSql acc url) db = some db' →
      rows db' = rows db ∧ ∀ a u, u ∈ urls db' a ↔ u ∈ urls db a ∨ (same a acc ∧ u = url)

/-- `load_data`. -/
def MySql.loadData (M : MySql) (db : M.Db) : AccountMgr :=
  .loadData ((M.rows db).map fun r => (r.1, { r.2 with votedUrl := (M.urls db r.1).toFinset }))

/-! ### The setters with their statements -/

/-- What comes of a statement. -/
inductive SqlCall
  | success
  | exception
  /-- `isValid()` is false and `init_sql_conn` fails: the old statement is
  closed, `execute` throws. -/
  | noConnection
deriving DecidableEq

/-- The two copies; `overrun` if `sprintf` has run over its buffer. -/
structure Store (M : MySql) where
  mgr : AccountMgr
  db : M.Db
  overrun : Bool

namespace Store

variable {M : MySql}

/-- What each setter does: nothing for an account that is not there; else
memory is changed, and the text goes to the database. -/
def write (s : Store M) (acc : Str) (mgr : AccountMgr) (sql : Str) (size : ℕ) (call : SqlCall) : Option (Store M) :=
  if acc ∈ s.mgr.accountsPro then
    if size ≤ sql.length then some { s with mgr := mgr, overrun := true }
    else if call = .success then (M.exec sql s.db).map fun db => { s with mgr := mgr, db := db }
    else some { s with mgr := mgr }
  else some s

def setVoteStatus (s : Store M) (acc url : Str) (call : SqlCall) : Option (Store M) :=
  s.write acc (s.mgr.setVoteStatus acc url) (insertSql acc url) 6400 call

def setAccStatus (s : Store M) (acc : Str) (status : Int) (call : SqlCall) : Option (Store M) :=
  s.write acc (s.mgr.setAccStatus acc status) (updateSql .status status acc) 640 call

def setEverydayTask (s : Store M) (acc : Str) (done : Int) (call : SqlCall) : Option (Store M) :=
  s.write acc (s.mgr.setEverydayTask acc done) (updateSql .dailytask done acc) 640 call

/-- A call of a setter, with what comes of its statement. -/
inductive Setter
  | voteStatus (acc url : Str) (sql : SqlCall)
  | accStatus (acc : Str) (status : Int) (sql : SqlCall)
  | everydayTask (acc : Str) (done : Int) (sql : SqlCall)

def call (s : Store M) : Setter → Option (Store M)
  | .voteStatus acc url sql => s.setVoteStatus acc url sql
  | .accStatus acc status sql => s.setAccStatus acc status sql
  | .everydayTask acc done sql => s.setEverydayTask acc done sql

/-- The calls of `reset_all_everyday_task`: one for each account. -/
def resetCalls (s : Store M) (sqls : List SqlCall) : List Setter :=
  List.zipWith (fun acc sql => .everydayTask acc dailytaskNotFinished sql) s.mgr.accountsPro.keys sqls

def resetAllEverydayTask (s : Store M) (sqls : List SqlCall) : Option (Store M) :=
  if sqls.length = s.mgr.accountsPro.keys.length then Trans.run call s (s.resetCalls sqls) else none

inductive Op
  | set (c : Setter)
  | resetAllEverydayTask (sqls : List SqlCall)

def step (s : Store M) : Op → Option (Store M)
  | .set c => s.call c
  | .resetAllEverydayTask sqls => s.resetAllEverydayTask sqls

/-- After a `load_data` that succeeded. -/
def boot (db : M.Db) : Store M := ⟨M.loadData db, db, false⟩

end Store

/-! ### What an account shows -/

/-- What is compared of an account. -/
structure Shown where
  dailytask : Int
  status : Int
  votedUrl : Finset Str
deriving DecidableEq

def AccountPro.shown (p : AccountPro) : Shown := ⟨p.everydayTaskCompleted, p.status, p.votedUrl⟩

def AccountMgr.shown (m : AccountMgr) : Table Str Shown := fun acc => (m.accountsPro.lookup acc).map AccountPro.shown

def Shown.vote (url : Str) (v : Shown) : Shown := { v with votedUrl := insert url v.votedUrl }

def Shown.set (n : Int) (v : Shown) : Column → Shown
  | .status => { v with status := n }
  | .dailytask => { v with dailytask := n }

theorem AccountMgr.shown_of_notMem {m : AccountMgr} {acc : Str} (h : acc ∉ m.accountsPro) : m.shown acc = none := by
  rw [AccountMgr.shown, AList.lookup_eq_none.mpr h]
  rfl

theorem AccountMgr.shown_update {f : AccountPro → AccountPro} {g : Shown → Shown}
    (hfg : ∀ p, (f p).shown = g p.shown) (m : AccountMgr) (acc : Str) :
    (m.update acc f).shown = m.shown.modify acc g := by
  funext a
  unfold AccountMgr.update
  by_cases ha : a = acc
  · subst ha
    rw [Table.modify_self]
    rcases hlookup : m.accountsPro.lookup a with _ | p
    · simp [AccountMgr.shown, hlookup]
    · simp [AccountMgr.shown, hlookup, hfg]
  · rw [Table.modify_ne _ _ ha]
    rcases m.accountsPro.lookup acc with _ | p
    · rfl
    · simp [AccountMgr.shown, AList.lookup_insert_ne ha]

/-- The row is one of the account. -/
def named (acc : Str) (r : Str × AccountPro) : Bool := r.1 = acc

theorem named_iff {acc : Str} {r : Str × AccountPro} : named acc r = true ↔ r.1 = acc := decide_eq_true_iff

/-- `load_data` keeps the first row of a name. -/
theorem AccountMgr.lookup_loadData (rows : List (Str × AccountPro)) (acc : Str) :
    (AccountMgr.loadData rows).accountsPro.lookup acc = (rows.find? (named acc)).map (·.2) := by
  induction rows using List.reverseRecOn with
  | nil => rfl
  | append_singleton rows r ih =>
    have hsnoc : loadData (rows ++ [r]) = (loadData rows).loadRow r := by simp [loadData]
    rw [hsnoc, List.find?_append, loadRow]
    by_cases hr : r.1 = acc
    · subst hr
      by_cases hmem : r.1 ∈ (loadData rows).accountsPro
      · obtain ⟨p, hp⟩ := Option.isSome_iff_exists.mp (AList.lookup_isSome.mpr hmem)
        rw [hp] at ih
        obtain ⟨q, hq, -⟩ := Option.map_eq_some_iff.mp ih.symm
        simp [hmem, hp, hq, ih]
      · rw [AList.lookup_eq_none.mpr hmem] at ih
        have hnone := Option.map_eq_none_iff.mp ih.symm
        simp [hmem, hnone, named]
    · have hlast : [r].find? (named acc) = none := by simp [named, hr]
      rw [hlast, Option.or_none, ← ih]
      by_cases hmem : r.1 ∈ (loadData rows).accountsPro
      · simp [hmem]
      · simp [hmem, AList.lookup_insert_ne (Ne.symm hr)]

namespace MySql

variable (M : MySql) {db db' : M.Db} {acc : Str}

theorem shown_loadData (db : M.Db) (acc : Str) :
    (M.loadData db).shown acc = ((M.rows db).find? (named acc)).map fun r =>
      ⟨r.2.everydayTaskCompleted, r.2.status, (M.urls db acc).toFinset⟩ := by
  have hname : named acc ∘ (fun r => (r.1, { r.2 with votedUrl := (M.urls db r.1).toFinset })) = named acc := rfl
  rw [AccountMgr.shown, loadData, AccountMgr.lookup_loadData, List.find?_map, hname, Option.map_map, Option.map_map]
  rcases hfind : (M.rows db).find? (named acc) with _ | r
  · rfl
  · simp [AccountPro.shown, named_iff.mp (List.find?_some hfind)]

/-- Other names do not count as `acc`. -/
def Alone (db : M.Db) (acc : Str) : Prop := ∀ r ∈ M.rows db, M.same r.1 acc → r.1 = acc

/-- An update of a name that is alone shows at that name. -/
theorem shown_update {col : Column} {n : Int} (hrows : M.rows db' =
      (M.rows db).map fun r => if M.same r.1 acc then (r.1, col.set n r.2) else r)
    (hurls : M.urls db' = M.urls db) (halone : M.Alone db acc) :
    (M.loadData db').shown = (M.loadData db).shown.modify acc fun v => v.set n col := by
  funext a
  have hname : (named a ∘ fun r => if M.same r.1 acc then (r.1, col.set n r.2) else r) = named a := by
    funext r
    by_cases hsame : M.same r.1 acc <;> simp [named, hsame]
  rw [M.shown_loadData, hrows, hurls, List.find?_map, hname, Option.map_map]
  by_cases ha : a = acc
  · subst ha
    rw [Table.modify_self, M.shown_loadData, Option.map_map]
    rcases hfind : (M.rows db).find? (named a) with _ | r
    · rfl
    · have hr := named_iff.mp (List.find?_some hfind)
      rcases col
      · simp [hr, M.same_refl, Column.set, Shown.set]
      · simp [hr, M.same_refl, Column.set, Shown.set]
  · rw [Table.modify_ne _ _ ha, M.shown_loadData]
    rcases hfind : (M.rows db).find? (named a) with _ | r
    · rfl
    · have hr := named_iff.mp (List.find?_some hfind)
      have hsame : ¬ M.same r.1 acc := fun h => ha (hr.symm.trans (halone r (List.mem_of_find?_eq_some hfind) h))
      simp [hsame]

/-- A row for a name that is alone shows at that name. -/
theorem shown_insert {url : Str} (hrows : M.rows db' = M.rows db)
    (hurls : ∀ a u, u ∈ M.urls db' a ↔ u ∈ M.urls db a ∨ (M.same a acc ∧ u = url)) (halone : M.Alone db acc) :
    (M.loadData db').shown = (M.loadData db).shown.modify acc (Shown.vote url) := by
  funext a
  rw [M.shown_loadData, hrows]
  by_cases ha : a = acc
  · subst ha
    have hset : (M.urls db' a).toFinset = insert url (M.urls db a).toFinset := by
      ext u
      simp [hurls, M.same_refl, or_comm]
    rw [Table.modify_self, M.shown_loadData, Option.map_map, hset]
    rfl
  · rw [Table.modify_ne _ _ ha, M.shown_loadData]
    rcases hfind : (M.rows db).find? (named a) with _ | r
    · rfl
    · have hr := named_iff.mp (List.find?_some hfind)
      have hsame : ¬ M.same a acc := fun h =>
        ha (hr.symm.trans (halone r (List.mem_of_find?_eq_some hfind) (by rwa [hr])))
      have hset : (M.urls db' a).toFinset = (M.urls db a).toFinset := by
        ext u
        simp [hurls, hsame]
      rw [hset]

end MySql

/-! ### The setters as changes -/

namespace Store

variable {M : MySql}

/-- Memory as the cache, what `load_data` would give as the store. -/
def abs (s : Store M) : Pair Str Shown := ⟨s.mgr.shown, (M.loadData s.db).shown⟩

/-- `load_data` would give what is in memory, and no buffer was overrun. -/
def Agrees (s : Store M) : Prop := s.overrun = false ∧ s.abs.Agree

namespace Setter

def acc : Setter → Str
  | voteStatus acc _ _ => acc
  | accStatus acc _ _ => acc
  | everydayTask acc _ _ => acc

def sql : Setter → SqlCall
  | voteStatus _ _ sql => sql
  | accStatus _ _ sql => sql
  | everydayTask _ _ sql => sql

/-- What the setter is to do to the account. -/
def change (c : Setter) : Change Str Shown where
  key := c.acc
  f v :=
    match c with
    | voteStatus _ url _ => v.vote url
    | accStatus _ n _ => v.set n .status
    | everydayTask _ n _ => v.set n .dailytask
  stored := c.sql = .success

/-- The text of the statement. -/
def text : Setter → Str
  | voteStatus acc url _ => insertSql acc url
  | accStatus acc n _ => updateSql .status n acc
  | everydayTask acc n _ => updateSql .dailytask n acc

/-- The buffer for it. -/
def size : Setter → ℕ
  | voteStatus _ _ _ => 6400
  | accStatus _ _ _ => 640
  | everydayTask _ _ _ => 640

/-- The values go into the columns as they are. -/
def Held (M : MySql) : Setter → Prop
  | voteStatus acc url _ => literal url ∧ M.keeps acc ∧ M.keeps url
  | accStatus _ n _ => M.keepsInt n
  | everydayTask _ n _ => M.keepsInt n

end Setter

/-- The statement says what the setter is to do. -/
structure Sound (s : Store M) (c : Setter) : Prop where
  fits : c.text.length < c.size
  name : c.sql = .success → literal c.acc ∧ M.Alone s.db c.acc
  held : c.sql = .success → c.Held M

theorem abs_write {s s' : Store M} {acc sql : Str} {mgr : AccountMgr} {size : ℕ} {call : SqlCall} {f : Shown → Shown}
    (hagree : s.abs.Agree) (hmgr : mgr.shown = s.mgr.shown.modify acc f)
    (hfits : acc ∈ s.mgr.accountsPro → sql.length < size)
    (hexec : acc ∈ s.mgr.accountsPro → call = .success → ∀ db', M.exec sql s.db = some db' →
      (M.loadData db').shown = (M.loadData s.db).shown.modify acc f)
    (h : s.write acc mgr sql size call = some s') :
    s'.abs = s.abs.put ⟨acc, f, call = .success⟩ ∧ s'.overrun = s.overrun := by
  unfold write at h
  by_cases hacc : acc ∈ s.mgr.accountsPro
  · rw [if_pos hacc, if_neg (Nat.not_le_of_lt (hfits hacc))] at h
    by_cases hcall : call = .success
    · rw [if_pos hcall] at h
      obtain ⟨db', hdb', rfl⟩ := Option.map_eq_some_iff.mp h
      simp [abs, Pair.put, hmgr, hcall, hexec hacc hcall db' hdb']
    · rw [if_neg hcall] at h
      obtain rfl := Option.some.inj h
      simp [abs, Pair.put, hmgr, hcall]
  · rw [if_neg hacc] at h
    obtain rfl := Option.some.inj h
    -- the account is in neither copy
    have hcache : s.mgr.shown.modify acc f = s.mgr.shown :=
      Table.modify_eq_self_iff.mpr (by rw [AccountMgr.shown_of_notMem hacc]; rfl)
    have hstore : (M.loadData s.db).shown = s.mgr.shown := hagree.symm
    simp [abs, Pair.put, hstore, hcache]

/-- A sound statement that is executed changes what `load_data` would give as
the setter changes memory. -/
theorem Sound.shown_exec {s : Store M} {c : Setter} (h : s.Sound c) (hsql : c.sql = .success) {db' : M.Db}
    (hexec : M.exec c.text s.db = some db') :
    (M.loadData db').shown = (M.loadData s.db).shown.modify c.acc c.change.f := by
  obtain ⟨hliteral, halone⟩ := h.name hsql
  have hheld := h.held hsql
  rcases c with ⟨acc, url, sql⟩ | ⟨acc, n, sql⟩ | ⟨acc, n, sql⟩
  · obtain ⟨hurl, hkacc, hkurl⟩ := hheld
    obtain ⟨hrows, hurls⟩ := M.exec_insert hliteral hurl hkacc hkurl hexec
    exact M.shown_insert hrows hurls halone
  · obtain ⟨hrows, hurls⟩ := M.exec_update hliteral hheld hexec
    exact M.shown_update hrows hurls halone
  · obtain ⟨hrows, hurls⟩ := M.exec_update hliteral hheld hexec
    exact M.shown_update hrows hurls halone

/-- **The setters refine changes of a cache and a store.** -/
theorem abs_call {s s' : Store M} {c : Setter} (hagree : s.abs.Agree)
    (hsound : c.acc ∈ s.mgr.accountsPro → s.Sound c) (h : s.call c = some s') :
    s'.abs = s.abs.put c.change ∧ s'.overrun = s.overrun := by
  have hfits := fun hacc => (hsound hacc).fits
  have hexec := fun hacc hsql db' (hdb' : M.exec c.text s.db = some db') => (hsound hacc).shown_exec hsql hdb'
  rcases c with ⟨acc, url, sql⟩ | ⟨acc, n, sql⟩ | ⟨acc, n, sql⟩
  all_goals exact abs_write hagree (AccountMgr.shown_update (fun p => rfl) _ _) hfits hexec h

/-- A setter whose statement says what it should leaves agreement if and only
if the statement is executed or nothing is changed. -/
theorem agrees_call_iff {s s' : Store M} {c : Setter} (hagree : s.Agrees)
    (hsound : c.acc ∈ s.mgr.accountsPro → s.Sound c) (h : s.call c = some s') :
    s'.Agrees ↔ s.abs.Kept c.change := by
  obtain ⟨habs, hover⟩ := abs_call hagree.2 hsound h
  rw [Agrees, habs, hover, agree_put_iff hagree.2, and_iff_right hagree.1]

/-- The setter's account is not there, or its statement says what it should
and is executed, or changes nothing. -/
def KeptCall (s : Store M) (c : Setter) : Prop :=
  c.acc ∈ s.mgr.accountsPro → s.Sound c ∧ s.abs.Kept c.change

/-- The condition on an operation: on each of its setters. -/
def Kept (s : Store M) : Op → Prop
  | .set c => s.KeptCall c
  | .resetAllEverydayTask sqls => Trans.Along call KeptCall s (s.resetCalls sqls)

theorem agrees_call {s s' : Store M} {c : Setter} (hagree : s.Agrees) (hkept : s.KeptCall c)
    (h : s.call c = some s') : s'.Agrees := by
  have hiff := agrees_call_iff hagree (fun hacc => (hkept hacc).1) h
  by_cases hacc : c.acc ∈ s.mgr.accountsPro
  · exact hiff.mpr (hkept hacc).2
  · apply hiff.mpr
    right
    show (s.mgr.shown c.acc).map c.change.f = s.mgr.shown c.acc
    rw [AccountMgr.shown_of_notMem hacc]
    rfl

theorem agrees_step {s s' : Store M} {op : Op} (hagree : s.Agrees) (hkept : s.Kept op) (h : s.step op = some s') :
    s'.Agrees := by
  rcases op with c | sqls
  · exact agrees_call hagree hkept h
  · have hreset : s.resetAllEverydayTask sqls = some s' := h
    unfold resetAllEverydayTask at hreset
    split_ifs at hreset
    exact (Trans.Reach.of_along hkept hreset).invariant hagree fun _ _ _ hs hc hstep => agrees_call hs hc hstep

end Store

/-! ### A database that understands the statements -/

/-- The two tables. -/
structure Tables where
  accounts : List (Str × AccountPro)
  votes : List (Str × Str)

/-- The statement around the two texts in quotes. -/
def updateHead (col : Column) : Str := Str.of "update `wx_accounts_info` set `" ++ col.name ++ Str.of "` = "
def updateWhere : Str := Str.of " where `acc` = "
def insertHead : Str := Str.of "insert into wx_vote_url_status set acc = "
def insertUrl : Str := Str.of " ,url = "

theorem updateSql_eq (col : Column) (n : Int) (acc : Str) :
    updateSql col n acc = [39].intercalate [updateHead col, Decimal.signed n, updateWhere, cStr acc, Str.of ";"] := by
  simp [updateSql, updateHead, updateWhere, Str.of, List.intercalate_cons_cons]

theorem insertSql_eq (acc url : Str) :
    insertSql acc url = [39].intercalate [insertHead, cStr acc, insertUrl, cStr url, Str.of ";"] := by
  simp [insertSql, insertHead, insertUrl, Str.of, List.intercalate_cons_cons]

theorem quote_notMem_updateHead (col : Column) : 39 ∉ updateHead col := by
  rcases col <;> decide

theorem literal_cStr {w : Str} (hw : literal w) : cStr w = w := by
  unfold literal at hw
  refine List.takeWhile_eq_self_iff.mpr fun c hc => ?_
  have := List.all_eq_true.mp hw c hc
  simp at this ⊢
  exact this.2

theorem quote_notMem_literal {w : Str} (hw : literal w) : 39 ∉ w := by
  intro h
  have := List.all_eq_true.mp hw 39 h
  simp at this

theorem quote_notMem_signed (n : Int) : 39 ∉ Decimal.signed n := by
  intro h
  rcases Decimal.mem_signed h with h | h
  · exact absurd h (by decide)
  · exact absurd h (by decide)

def Tables.update (t : Tables) (col : Column) (n : Int) (acc : Str) : Tables :=
  { t with accounts := t.accounts.map fun r => if r.1 = acc then (r.1, col.set n r.2) else r }

def Tables.exec (text : Str) (t : Tables) : Option Tables :=
  match text.splitOn 39 with
  | [p, x, m, y, _] =>
    if p = insertHead ∧ m = insertUrl then some { t with votes := t.votes ++ [(x, y)] }
    else if p = updateHead .status ∧ m = updateWhere then (Decimal.readSigned x).map fun n => t.update .status n y
    else if p = updateHead .dailytask ∧ m = updateWhere then
      (Decimal.readSigned x).map fun n => t.update .dailytask n y
    else none
  | _ => none

theorem splitOn_updateSql (col : Column) (n : Int) {acc : Str} (hacc : literal acc) :
    (updateSql col n acc).splitOn 39 = [updateHead col, Decimal.signed n, updateWhere, acc, Str.of ";"] := by
  rw [updateSql_eq, literal_cStr hacc]
  refine List.splitOn_intercalate 39 ?_ (List.cons_ne_nil _ _)
  have hwhere : 39 ∉ updateWhere := by decide
  have hend : 39 ∉ Str.of ";" := by decide
  simp [quote_notMem_updateHead, quote_notMem_signed, hwhere, quote_notMem_literal hacc, hend]

theorem splitOn_insertSql {acc url : Str} (hacc : literal acc) (hurl : literal url) :
    (insertSql acc url).splitOn 39 = [insertHead, acc, insertUrl, url, Str.of ";"] := by
  rw [insertSql_eq, literal_cStr hacc, literal_cStr hurl]
  refine List.splitOn_intercalate 39 ?_ (List.cons_ne_nil _ _)
  have hhead : 39 ∉ insertHead := by decide
  have hmid : 39 ∉ insertUrl := by decide
  have hend : 39 ∉ Str.of ";" := by decide
  simp [hhead, hmid, quote_notMem_literal hacc, quote_notMem_literal hurl, hend]

theorem Tables.exec_updateSql (t : Tables) (col : Column) (n : Int) {acc : Str} (hacc : literal acc) :
    t.exec (updateSql col n acc) = some (t.update col n acc) := by
  have hinsert : updateWhere ≠ insertUrl := by decide
  have hcol : updateHead .dailytask ≠ updateHead .status := by decide
  unfold Tables.exec
  rw [splitOn_updateSql col n hacc]
  rcases col
  · simp [hinsert, Decimal.readSigned_signed]
  · simp [hinsert, hcol, Decimal.readSigned_signed]

theorem Tables.exec_insertSql (t : Tables) {acc url : Str} (hacc : literal acc) (hurl : literal url) :
    t.exec (insertSql acc url) = some { t with votes := t.votes ++ [(acc, url)] } := by
  unfold Tables.exec
  rw [splitOn_insertSql hacc hurl]
  simp

/-- A server that compares names byte by byte and holds every value. -/
def tablesMySql : MySql where
  Db := Tables
  rows t := t.accounts
  urls t a := (t.votes.filter (·.1 = a)).map (·.2)
  same a b := a = b
  keeps _ := true
  keepsInt _ := true
  exec := Tables.exec
  same_refl a := by simp
  exec_update {db db' col n acc} hacc _ h := by
    rw [Tables.exec_updateSql db col n hacc] at h
    obtain rfl := Option.some.inj h
    simp [Tables.update]
  exec_insert {db db' acc url} hacc hurl _ _ h := by
    rw [Tables.exec_insertSql db hacc hurl] at h
    obtain rfl := Option.some.inj h
    refine ⟨rfl, fun a u => ?_⟩
    simp [List.filter_append]

theorem tablesMySql_alone (db : Tables) (acc : Str) : tablesMySql.Alone db acc :=
  fun _ _ h => of_decide_eq_true h

/-! ### Every run -/

/-- **As long as each statement says what it should and is executed, or
changes nothing, `load_data` would give what is in memory.** -/
theorem reload_same (M : MySql) (db : M.Db) {s : Store M}
    (h : Trans.Reach Store.step Store.Kept (Store.boot db) s) : s.Agrees :=
  h.invariant ⟨rfl, rfl⟩ fun _ _ _ hs hop hstep => Store.agrees_step hs hop hstep

/-- One account, no votes. -/
def oneAccount : Tables := ⟨[(Str.of "a", ⟨[], [], [], 0, 0, ∅⟩)], []⟩

def voteA (sql : SqlCall) : Store.Setter := .voteStatus (Str.of "a") (Str.of "u") sql

/-- A vote that is stored. -/
def storedVote : Store tablesMySql :=
  ((Store.boot (M := tablesMySql) oneAccount).call (voteA .success)).get rfl

/-- The reset at midnight changes nothing: it may fail. -/
theorem reload_same_reset : storedVote.Agrees := by
  have hvote : (Store.boot (M := tablesMySql) oneAccount).step (.set (voteA .success)) = some storedVote := rfl
  have hreset : storedVote.step (.resetAllEverydayTask [.noConnection]) = some storedVote := rfl
  refine reload_same tablesMySql oneAccount ((Trans.Reach.single ?_ hvote).trans (Trans.Reach.single ?_ hreset))
  · exact fun _ => ⟨⟨by decide, fun _ => ⟨rfl, tablesMySql_alone _ _⟩, fun _ => ⟨rfl, rfl, rfl⟩⟩, Or.inl rfl⟩
  · refine ⟨fun _ => ⟨⟨by decide, fun h => ?_, fun h => ?_⟩, Or.inr rfl⟩, fun _ _ => trivial⟩
    · cases h
    · cases h

/-- A vote whose statement fails. -/
def failedVote : Store tablesMySql :=
  ((Store.boot (M := tablesMySql) oneAccount).call (voteA .exception)).get rfl

/-- After a vote whose statement fails, memory has it and the database not. -/
theorem vote_not_stored : ¬ ∀ (M : MySql) (db : M.Db) (s : Store M),
    Trans.Reach Store.step (fun _ _ => True) (Store.boot db) s → s.Agrees := by
  intro h
  have hstep : (Store.boot (M := tablesMySql) oneAccount).step (.set (voteA .exception)) = some failedVote := rfl
  have hagree := (h tablesMySql oneAccount failedVote (Trans.Reach.single trivial hstep)).2
  exact absurd (congrFun hagree (Str.of "a")) (by decide)

end ScheduleCenter
