/-
# The device table and the database

`device_mgr` has the status of each device in `devices_pro` and in the rows of
`device_info`. `init` loads the ips with the status OFFLINE, whatever the row
says. `set_status` does nothing if memory has the status already; else it
changes memory and then tries the statement once. So memory holds back what the
row may have missed (`WriteThrough.Filter`).

So what the row has after a run is told by its history: the last call that
changed the status of the ip and whose statement got through, or else what was
loaded. After each call without an SQL error the row has the status if and only
if no call repeats a status of its ip that was not written like this
(`stored_along_iff`); none does if all rows are OFFLINE at the start and no
statement fails (`stored_of_success`). A status whose statement failed is not
written when it is set again (`retry_not_stored`).

Key definitions: `Ip`, `DeviceSql`, `DeviceTable`, `DeviceTable.setStatus`, `DeviceTable.Stored`,
`DeviceTable.statusBefore`, `DeviceTable.writtenBefore`, `DeviceTable.HistoryOk`.
Key theorems: `DeviceTable.abs_setStatus`, `abs_run`, `stored_along_iff`, `stored_of_success`, `retry_not_stored`.
-/
import ScheduleCenter.Database

namespace ScheduleCenter

open WriteThrough

/-- The text of an IPv4 address: what the socket of a phone gives. -/
structure Ip where
  text : Str
  short : text.length ≤ 15
  chars : ∀ c ∈ text, c = 46 ∨ Decimal.isDigit c
deriving DecidableEq

theorem Ip.chars_of_all {w : Str} (h : w.all fun c => c = 46 || Decimal.isDigit c) :
    ∀ c ∈ w, c = 46 ∨ Decimal.isDigit c := by
  simpa using h

/-- ``"INSERT INTO device_info (`ip`, `status`) VALUES ('%s', '%d') ON DUPLICATE
KEY UPDATE `status`='%d'"``. -/
def upsertSql (ip : Ip) (status : Int32) : Str :=
  Str.of "INSERT INTO device_info (`ip`, `status`) VALUES ('" ++ ip.text ++ Str.of "', '" ++
    Decimal.signed status.toInt ++ Str.of "') ON DUPLICATE KEY UPDATE `status`='" ++
    Decimal.signed status.toInt ++ Str.of "'"

/-- A MySQL server with the table `device_info`, whose key is `ip`. -/
structure DeviceSql where
  Db : Type
  /-- The status in the row of an ip. -/
  row : Db → Table Ip Int32
  /-- The ips that `select *` gives. -/
  ips : Db → List Ip
  mem_ips : ∀ db ip, ip ∈ ips db ↔ (row db ip).isSome
  /-- `execute`; `none` is a `SQLException`. -/
  exec : Str → Db → Option Db
  exec_upsert : ∀ {db db' : Db} {ip : Ip} {status : Int32}, exec (upsertSql ip status) db = some db' →
    row db' = Function.update (row db) ip (some status)

/-- `DEVICE_STATUS_OFFLINE`. -/
def statusOffline : Int32 := 2

/-- `devices_pro` and the database. -/
structure DeviceTable (M : DeviceSql) where
  devicesPro : Table Ip Int32
  db : M.Db

/-- A call of `set_status`, with what comes of its statement if it gets there. -/
structure StatusCall where
  ip : Ip
  status : Int32
  sql : SqlCall
deriving DecidableEq

namespace DeviceTable

variable {M : DeviceSql}

/-- `init`. -/
def init (db : M.Db) : DeviceTable M := ⟨fun ip => if ip ∈ M.ips db then some statusOffline else none, db⟩

/-- `devices_pro[ip].status`: of a new record it is 0. -/
def status (t : DeviceTable M) (ip : Ip) : Int32 := (t.devicesPro ip).getD 0

/-- `set_status`: `operator[]` has made the record if there was none. -/
def setStatus (t : DeviceTable M) (c : StatusCall) : Option (DeviceTable M) :=
  let devicesPro := Function.update t.devicesPro c.ip (some c.status)
  if t.status c.ip = c.status then some { t with devicesPro := devicesPro }
  else if c.sql = .success then (M.exec (upsertSql c.ip c.status) t.db).map fun db => ⟨devicesPro, db⟩
  else some { t with devicesPro := devicesPro }

/-- No SQL error occurs in the call. -/
def NoError (t : DeviceTable M) (c : StatusCall) : Prop := t.status c.ip = c.status ∨ c.sql = .success

/-- Without an SQL error the row of the ip exists with the status after the
call, and the rows of other ips are as before. -/
def Stored (t : DeviceTable M) (c : StatusCall) : Prop :=
  t.NoError c → ∀ t', t.setStatus c = some t' → M.row t'.db = Function.update (M.row t.db) c.ip (some c.status)

/-- If memory has the status already, the row has it. -/
def Held (t : DeviceTable M) (c : StatusCall) : Prop :=
  t.status c.ip = c.status → M.row t.db c.ip = some c.status

/-! ### One call -/

/-- The text fits into the 640 bytes of its buffer. -/
theorem length_upsertSql_lt (ip : Ip) (n : Int32) : (upsertSql ip n).length < 640 := by
  have hip := ip.short
  have hlt := n.toInt_lt
  have hle := n.le_toInt
  have hdigits : (Decimal.signed n.toInt).length ≤ 11 := Decimal.length_signed_le (by decide) (by omega)
  have hvalues : (Str.of "INSERT INTO device_info (`ip`, `status`) VALUES ('").length = 50 := by decide
  have hcomma : (Str.of "', '").length = 4 := rfl
  have hupdate : (Str.of "') ON DUPLICATE KEY UPDATE `status`='").length = 37 := rfl
  have hquote : (Str.of "'").length = 1 := rfl
  simp only [upsertSql, List.length_append, hvalues, hcomma, hupdate, hquote]
  omega

/-- Memory has the status after every call. -/
theorem devicesPro_setStatus {t t' : DeviceTable M} {c : StatusCall} (h : t.setStatus c = some t') :
    t'.devicesPro = Function.update t.devicesPro c.ip (some c.status) := by
  unfold setStatus at h
  split_ifs at h
  · obtain rfl := Option.some.inj h
    rfl
  · obtain ⟨db', -, rfl⟩ := Option.map_eq_some_iff.mp h
    rfl
  · obtain rfl := Option.some.inj h
    rfl

/-- What memory shows, in front of the rows. -/
def abs (t : DeviceTable M) : Filter Ip Int32 := ⟨t.status, M.row t.db⟩

theorem status_update (d : Table Ip Int32) (db : M.Db) (ip : Ip) (n : Int32) :
    (DeviceTable.mk (M := M) (Function.update d ip (some n)) db).status =
      Function.update (fun ip => (d ip).getD 0) ip n := by
  funext i
  by_cases hi : i = ip
  · subst hi
    simp [status]
  · simp [status, Function.update_of_ne hi]

/-- **`set_status` is the setting of a cache that holds back.** -/
theorem abs_setStatus {t t' : DeviceTable M} {c : StatusCall} (h : t.setStatus c = some t') :
    t'.abs = t.abs.set c.ip c.status (c.sql = .success) := by
  unfold setStatus at h
  by_cases hheld : t.status c.ip = c.status
  · rw [if_pos hheld] at h
    obtain rfl := Option.some.inj h
    have hsame : Function.update t.status c.ip c.status = t.status := Function.update_eq_self_iff.mpr hheld.symm
    rw [Filter.set_of_eq hheld, abs, status_update]
    exact congrArg (fun cache => (⟨cache, M.row t.db⟩ : WriteThrough.Filter Ip Int32)) hsame
  · rw [if_neg hheld] at h
    rw [Filter.set_of_ne hheld]
    by_cases hsql : c.sql = .success
    · rw [if_pos hsql] at h
      obtain ⟨db', hdb', rfl⟩ := Option.map_eq_some_iff.mp h
      rw [abs, status_update, M.exec_upsert hdb', if_pos (by simpa using hsql)]
      rfl
    · rw [if_neg hsql] at h
      obtain rfl := Option.some.inj h
      rw [abs, status_update, if_neg (by simpa using hsql)]
      rfl

theorem stored_iff_held {t t' : DeviceTable M} {c : StatusCall} (h : t.setStatus c = some t') :
    t.Stored c ↔ t.Held c := by
  by_cases herr : t.NoError c
  · have hset := Filter.set_store_iff (p := t.abs) (decide (c.sql = .success))
      (herr.imp_right fun hsql => by simpa using hsql)
    rw [← abs_setStatus h] at hset
    have hstored : t.Stored c ↔ M.row t'.db = Function.update (M.row t.db) c.ip (some c.status) := by
      constructor
      · exact fun hs => hs herr t' h
      · intro hrow _ t₂ h₂
        rw [h] at h₂
        rwa [← Option.some.inj h₂]
    rw [hstored]
    exact hset
  · exact iff_of_true (fun hno => absurd hno herr) fun heq => absurd (Or.inl heq) herr

/-! ### Every run -/

/-- A call, as the setting of a cache that holds back. -/
def StatusCall.setting (c : StatusCall) : Setting Ip Int32 := ⟨c.ip, c.status, c.sql = .success⟩

/-- The status `init` gives an ip: OFFLINE to those that are loaded; a record that
`operator[]` makes later has 0. -/
def statusAtInit (db : M.Db) (ip : Ip) : Int32 := if ip ∈ M.ips db then statusOffline else 0

/-- The status the calls have given an ip: that of the last one for it. -/
def statusBefore (db : M.Db) (calls : List StatusCall) (ip : Ip) : Int32 :=
  (lastValue ((calls.map StatusCall.setting).filter (·.key = ip))).getD (statusAtInit db ip)

/-- The status that was last written for an ip: by the last of the calls that
changed its status and whose statement got through, else what its row had. -/
def writtenBefore (db : M.Db) (calls : List StatusCall) (ip : Ip) : Option Int32 :=
  (lastValue ((changes ip (statusAtInit db ip) (calls.map StatusCall.setting)).filter (·.sent))).or (M.row db ip)

/-- A call that repeats the status of its ip repeats one that was written. -/
def HistoryOk (db : M.Db) (calls : List StatusCall) : Prop :=
  ∀ i (hi : i < calls.length), statusBefore db (calls.take i) calls[i].ip = calls[i].status →
    writtenBefore db (calls.take i) calls[i].ip = some calls[i].status

theorem abs_init (db : M.Db) : (init db).abs = ⟨statusAtInit db, M.row db⟩ := by
  have hstatus : (init db).status = statusAtInit db := by
    funext ip
    by_cases hip : ip ∈ M.ips db
    · simp [status, init, statusAtInit, hip]
    · simp [status, init, statusAtInit, hip]
  rw [abs, hstatus]
  rfl

/-- A run of calls, as settings of the cache. -/
theorem abs_run : ∀ {calls : List StatusCall} {t t' : DeviceTable M}, Trans.run setStatus t calls = some t' →
    t'.abs = t.abs.sets (calls.map StatusCall.setting)
  | [], _, _, h => by cases h; rfl
  | c :: calls, t, t', h => by
    obtain ⟨t₁, h₁, h₂⟩ := Trans.run_cons.mp h
    rw [abs_run h₂, abs_setStatus h₁]
    rfl

/-- After a history the next call is held back as its ip's status says, and the row
is the one that was written. -/
theorem held_iff_history {db : M.Db} {done : List StatusCall} {t : DeviceTable M}
    (h : Trans.run setStatus (init db) done = some t) (c : StatusCall) :
    t.Held c ↔ (statusBefore db done c.ip = c.status → writtenBefore db done c.ip = some c.status) := by
  have hrun := abs_run h
  rw [abs_init] at hrun
  have hstatus : t.status c.ip = statusBefore db done c.ip := by
    have hcache := congrArg (fun p => p.cache c.ip) hrun
    rwa [Filter.cache_sets] at hcache
  have hrow : M.row t.db c.ip = writtenBefore db done c.ip := by
    have hstore := congrArg (fun p => p.store c.ip) hrun
    rwa [Filter.store_sets] at hstore
  rw [Held, hstatus, hrow]

/-- **In a run the row has the status after each call without an SQL error if
and only if each call that repeats the status of its ip repeats one that was
written.** -/
theorem stored_along_iff (db : M.Db) (calls : List StatusCall) {t : DeviceTable M}
    (h : Trans.run setStatus (init db) calls = some t) :
    Trans.Along setStatus Stored (init db) calls ↔ HistoryOk db calls := by
  rw [Trans.along_iff_take]
  constructor
  · intro hstored i hi
    obtain ⟨t₁, t₂, hrun, hstep⟩ := Trans.exists_step_take h hi
    rw [← held_iff_history hrun, ← stored_iff_held hstep]
    exact hstored i hi t₁ hrun
  · intro hhistory i hi t₁ hrun
    obtain ⟨t₁', t₂, hrun', hstep⟩ := Trans.exists_step_take h hi
    obtain rfl : t₁' = t₁ := Option.some.inj (hrun'.symm.trans hrun)
    rw [stored_iff_held hstep, held_iff_history hrun]
    exact hhistory i hi

/-- The rows have what memory has. -/
def Synced (t : DeviceTable M) : Prop := ∀ ip n, t.devicesPro ip = some n → M.row t.db ip = some n

/-- The call's statement does not fail, and its status is not that of a new record. -/
def Succeeds (_ : DeviceTable M) (c : StatusCall) : Prop := c.sql = .success ∧ c.status ≠ 0

theorem Synced.held {t : DeviceTable M} (ht : t.Synced) {c : StatusCall} (hc : c.status ≠ 0) : t.Held c := by
  intro heq
  unfold status at heq
  rcases hrec : t.devicesPro c.ip with _ | n
  · rw [hrec] at heq
    exact absurd heq.symm hc
  · rw [hrec] at heq
    exact heq ▸ ht c.ip n hrec

theorem Synced.setStatus {t t' : DeviceTable M} (ht : t.Synced) {c : StatusCall} (hc : t.Succeeds c)
    (h : t.setStatus c = some t') : t'.Synced := by
  have hrow := (stored_iff_held h).mpr (ht.held hc.2) (Or.inr hc.1) t' h
  intro ip n hip
  rw [devicesPro_setStatus h] at hip
  rw [hrow]
  by_cases hi : ip = c.ip
  · subst hi
    rw [Function.update_self] at hip ⊢
    exact hip
  · rw [Function.update_of_ne hi] at hip ⊢
    exact ht ip n hip

/-- If the rows are OFFLINE at the start and no statement fails, every call is
stored. -/
theorem stored_of_success {db : M.Db} (hdb : ∀ ip n, M.row db ip = some n → n = statusOffline)
    {calls : List StatusCall} {t : DeviceTable M} (h : Trans.run setStatus (init db) calls = some t)
    (hcalls : Trans.Along setStatus Succeeds (init db) calls) : Trans.Along setStatus Stored (init db) calls := by
  refine Trans.along_of_invariant (I := Synced) (fun t c t' ht hc hstep => ?_) ?_ hcalls h
  · exact ⟨ht.setStatus hc hstep, (stored_iff_held hstep).mpr (ht.held hc.2)⟩
  · intro ip n hip
    simp only [init, Option.ite_none_right_eq_some, Option.some.injEq] at hip
    obtain ⟨hmem, rfl⟩ := hip
    obtain ⟨m, hm⟩ := Option.isSome_iff_exists.mp ((M.mem_ips db ip).mp hmem)
    exact hdb ip m hm ▸ hm

end DeviceTable

/-! ### A database that understands the statement -/

/-- The rows of `device_info`. -/
abbrev DeviceRows := AList fun _ : Ip => Int32

def Ip.ofText (w : Str) : Option Ip :=
  if h : w.length ≤ 15 ∧ w.all fun c => c = 46 || Decimal.isDigit c then some ⟨w, h.1, chars_of_all h.2⟩ else none

/-- The statement around the texts in quotes. -/
def upsertHead : Str := Str.of "INSERT INTO device_info (`ip`, `status`) VALUES ("
def upsertComma : Str := Str.of ", "
def upsertUpdate : Str := Str.of ") ON DUPLICATE KEY UPDATE `status`="

theorem upsertSql_eq (ip : Ip) (n : Int32) : upsertSql ip n = [39].intercalate
    [upsertHead, ip.text, upsertComma, Decimal.signed n.toInt, upsertUpdate, Decimal.signed n.toInt, []] := by
  simp [upsertSql, upsertHead, upsertComma, upsertUpdate, Str.of, List.intercalate_cons_cons]

def DeviceRows.exec (text : Str) (rows : DeviceRows) : Option DeviceRows :=
  match text.splitOn 39 with
  | [p, x, m, y, u, _, _] =>
    if p = upsertHead ∧ m = upsertComma ∧ u = upsertUpdate then
      (Ip.ofText x).bind fun ip => (Decimal.readSigned y).map fun n => rows.insert ip (Int32.ofInt n)
    else none
  | _ => none

theorem Ip.quote_notMem (ip : Ip) : 39 ∉ ip.text := by
  intro h
  rcases ip.chars 39 h with h | h
  · exact absurd h (by decide)
  · exact absurd h (by decide)

theorem Ip.ofText_text (ip : Ip) : Ip.ofText ip.text = some ip := by
  have hall : ip.text.all fun c => c = 46 || Decimal.isDigit c := by simpa using ip.chars
  exact dif_pos ⟨ip.short, hall⟩

theorem DeviceRows.exec_upsertSql (rows : DeviceRows) (ip : Ip) (n : Int32) :
    exec (upsertSql ip n) rows = some (rows.insert ip n) := by
  have hsplit : (upsertSql ip n).splitOn 39 =
      [upsertHead, ip.text, upsertComma, Decimal.signed n.toInt, upsertUpdate, Decimal.signed n.toInt, []] := by
    rw [upsertSql_eq]
    refine List.splitOn_intercalate 39 ?_ (List.cons_ne_nil _ _)
    have hhead : 39 ∉ upsertHead := by decide
    have hcomma : 39 ∉ upsertComma := by decide
    have hupdate : 39 ∉ upsertUpdate := by decide
    simp [hhead, hcomma, hupdate, ip.quote_notMem, quote_notMem_signed]
  unfold exec
  rw [hsplit]
  simp [Ip.ofText_text, Decimal.readSigned_signed]

/-- A server with these rows only. -/
def rowsSql : DeviceSql where
  Db := DeviceRows
  row rows := rows.lookup
  ips rows := rows.keys
  mem_ips rows ip := by rw [AList.lookup_isSome, AList.mem_keys]
  exec := DeviceRows.exec
  exec_upsert {rows rows' ip n} h := by
    rw [DeviceRows.exec_upsertSql] at h
    obtain rfl := Option.some.inj h
    funext i
    by_cases hi : i = ip
    · subst hi
      rw [AList.lookup_insert, Function.update_self]
    · rw [AList.lookup_insert_ne hi, Function.update_of_ne hi]

namespace DeviceTable

/-- The phone at 10.0.0.1. -/
def phoneIp : Ip := ⟨Str.of "10.0.0.1", by decide, Ip.chars_of_all (by decide)⟩

/-- It comes online. -/
def online (sql : SqlCall) : StatusCall := ⟨phoneIp, 1, sql⟩

/-- No rows yet. -/
def noRows : DeviceTable rowsSql := init (M := rowsSql) (∅ : DeviceRows)

/-- It comes online, its going offline is not written, and it comes online twice. -/
def flaky : List StatusCall :=
  [online .success, ⟨phoneIp, statusOffline, .exception⟩, online .success, online .exception]

theorem stored_flaky : Trans.Along setStatus Stored noRows flaky := by
  have hsome : (Trans.run setStatus noRows flaky).isSome := by decide +kernel
  have hhistory : HistoryOk (M := rowsSql) (∅ : DeviceRows) flaky := by
    unfold HistoryOk
    decide +kernel
  exact (stored_along_iff (M := rowsSql) (∅ : DeviceRows) flaky (Option.some_get hsome).symm).mpr hhistory

/-- A status whose statement failed is not written when it is set again. -/
theorem retry_not_stored : ¬ ∀ (M : DeviceSql) (db : M.Db) (calls : List StatusCall) (t : DeviceTable M),
    Trans.run setStatus (init db) calls = some t → Trans.Along setStatus Stored (init db) calls := by
  intro h
  have hal := h rowsSql (∅ : DeviceRows) [online .exception, online .success] _ rfl
  have hagain := ((Trans.along_cons rfl).mp ((Trans.along_cons rfl).mp hal).2).1
  have hrow := hagain (Or.inl rfl) _ rfl
  exact absurd (congrFun hrow phoneIp) (by decide)

end DeviceTable
end ScheduleCenter
