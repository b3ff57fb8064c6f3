/-
# The phones of the server are the phones of the pool

Two models speak of the connected phones. `PhonePool` has the sockets, the
completions of their reads and each handler of `pho_conn_pool` line by line;
`Server` has only the ips of `connections_` and takes a handler in two to four
steps, between which the sessions run. Without resets the first refines the
second: every run of the pool is answered, handler by handler, by a run of the
server, from any state of its sessions and tasks that agrees on the phones,
and both agree again at the end on who is connected and on every status
(`phones_refined`). An accept is answered by an accept, a read error of an open
socket by a disconnect, `stop_all` by a disconnect of each; what a replaced
connection completes is answered by nothing.

Key definitions: `DeviceStatus.code`, `Pool.ips`, `phoneActs`, `Agrees`, `Tracks`.
Key theorems: `run_accept`, `run_disconnect`, `run_disconnectEach`, `Tracks.answer`, `phones_refined`.
-/
import ScheduleCenter.PhonePool
import ScheduleCenter.Steps

namespace ScheduleCenter

/-- The `DEVICE_STATUS_` constants. -/
def DeviceStatus.code : DeviceStatus → Int32
  | .onlineIdle => 1
  | .offline => 2
  | .taskBegin => 3
  | .wxVoting => 4
  | .wxVoteEnd => 5
  | .dailyTask => 6
  | .dailyTaskEnd => 7

theorem DeviceMgr.lookup_setStatus (d : DeviceMgr) (ip ip' : Str) (status : DeviceStatus) :
    (d.setStatus ip status).lookup ip' = if ip' = ip then some status else d.lookup ip' := by
  unfold setStatus
  by_cases hip : ip' = ip
  · rw [if_pos hip, hip]
    split_ifs with hsame
    · exact hsame
    · exact AList.lookup_insert d
  · rw [if_neg hip]
    split_ifs
    · rfl
    · exact AList.lookup_insert_ne hip

/-- The loop of `device_mgr::init`. -/
theorem DeviceMgr.lookup_insertEach (ip : Str) : ∀ (ips : List Str) (d : DeviceMgr),
    (ips.foldl (fun d ip => d.insert ip DeviceStatus.offline) d).lookup ip =
      if ip ∈ ips then some .offline else d.lookup ip
  | [], _ => by simp
  | ip' :: ips, d => by
    rw [List.foldl_cons, lookup_insertEach ip ips]
    by_cases hip : ip ∈ ips
    · rw [if_pos hip, if_pos (List.mem_cons_of_mem ip' hip)]
    · rw [if_neg hip]
      by_cases hhead : ip = ip'
      · rw [if_pos (hhead ▸ List.mem_cons_self), hhead, AList.lookup_insert]
      · rw [if_neg (by simp [hhead, hip]), AList.lookup_insert_ne hhead]

theorem Ip.text_inj {ip ip' : Ip} : ip.text = ip'.text ↔ ip = ip' := by
  cases ip
  cases ip'
  simp

/-! ### What a handler of the pool does to the server -/

namespace Server

/-- The pool and the device table of the server, set. -/
@[simps]
def withPhones (t : Server) (conns : List Str) (devices : DeviceMgr) : Server :=
  { t with conns := conns, devices := devices }

/-- A phone has connected. -/
def joinedPhone (t : Server) (ip : Str) : Server :=
  t.withPhones (ip :: t.conns) (t.devices.setStatus ip .onlineIdle)

/-- A phone has been stopped. -/
def stoppedPhone (t : Server) (ip : Str) : Server :=
  t.withPhones (t.conns.erase ip) (t.devices.setStatus ip .offline)

/-- The last connection of the ip, if there is one, has been stopped. -/
def stoppedLast (t : Server) (ip : Str) : Server := if ip ∈ t.conns then t.stoppedPhone ip else t

/-- Every ip has been stopped. -/
def stoppedPhones (t : Server) (ips : List Str) : Server := ips.foldl stoppedPhone t

/-- Between two handlers of the main thread. -/
structure Idle (t : Server) : Prop where
  alive : t.dead = false
  idle : t.main = .idle

variable {t : Server} {ip : Str}

theorem Idle.withPhones (h : t.Idle) (conns : List Str) (devices : DeviceMgr) : (t.withPhones conns devices).Idle :=
  ⟨h.alive, h.idle⟩

/-- Nothing but the phones is new. -/
def OnlyPhones (t t' : Server) : Prop := t' = t.withPhones t'.conns t'.devices

theorem OnlyPhones.refl (t : Server) : OnlyPhones t t := rfl

theorem OnlyPhones.trans {t₁ t₂ t₃ : Server} (h₁ : OnlyPhones t₁ t₂) (h₂ : OnlyPhones t₂ t₃) : OnlyPhones t₁ t₃ := by
  unfold OnlyPhones at *
  rw [h₁] at h₂
  exact h₂

theorem onlyPhones_stoppedPhones : ∀ {ips : List Str} {t : Server}, OnlyPhones t (t.stoppedPhones ips)
  | [], t => .refl t
  | ip :: _, t => by
    have hhead : OnlyPhones t (t.stoppedPhone ip) := rfl
    exact hhead.trans onlyPhones_stoppedPhones

theorem Idle.of_onlyPhones {t' : Server} (h : t.Idle) (hphones : OnlyPhones t t') : t'.Idle := by
  unfold OnlyPhones at hphones
  rw [hphones]
  exact ⟨h.alive, h.idle⟩

/-- The steps of `pho_conn_pool::start`. -/
def acceptActs (t : Server) (ip : Str) : List Act :=
  if ip ∈ t.conns then [.accept ip, .main, .main, .main] else [.accept ip, .main, .main]

/-- The steps of `pho_conn_pool::stop`. -/
def disconnectActs (ip : Str) : List Act := [.disconnect ip, .main]

theorem run_accept (h : t.Idle) : Trans.run step t (t.acceptActs ip) = some ((t.stoppedLast ip).joinedPhone ip) := by
  have halive := h.alive
  have hidle := h.idle
  unfold acceptActs stoppedLast
  by_cases hip : ip ∈ t.conns
  · rw [if_pos hip, if_pos hip]
    simp [Trans.run, step, mainStep, halive, hidle, hip, joinedPhone, stoppedPhone, setStatus, withPhones]
  · rw [if_neg hip, if_neg hip]
    simp [Trans.run, step, mainStep, halive, hidle, hip, joinedPhone, setStatus, withPhones]

theorem run_disconnect (h : t.Idle) (hip : ip ∈ t.conns) :
    Trans.run step t (disconnectActs ip) = some (t.stoppedPhone ip) := by
  have halive := h.alive
  have hidle := h.idle
  simp [disconnectActs, Trans.run, step, mainStep, halive, hidle, hip, stoppedPhone, setStatus, withPhones]

/-- Phones of different ips disconnect one after another. -/
theorem run_disconnectEach : ∀ {ips : List Str} {t : Server}, t.Idle → ips.Nodup → (∀ ip ∈ ips, ip ∈ t.conns) →
    Trans.run step t (ips.flatMap disconnectActs) = some (t.stoppedPhones ips)
  | [], _, _, _, _ => rfl
  | ip :: ips, t, h, hnodup, hmem => by
    obtain ⟨hip, hrest⟩ := List.nodup_cons.mp hnodup
    have hstill : ∀ ip' ∈ ips, ip' ∈ (t.stoppedPhone ip).conns := by
      intro ip' hip'
      have hne : ip' ≠ ip := fun heq => hip (heq ▸ hip')
      exact (List.mem_erase_of_ne hne).mpr (hmem ip' (List.mem_cons_of_mem ip hip'))
    rw [List.flatMap_cons]
    apply Trans.run_append.mpr
    exact ⟨_, run_disconnect h (hmem ip List.mem_cons_self),
      run_disconnectEach (h.withPhones _ _) hrest hstill⟩

end Server

namespace PhonePool

open Questions WriteThrough

/-! ### The phones of both -/

/-- The ips of the connections. -/
def Pool.ips (s : Pool) : List Str := s.connections.map fun c => (s.phones c).ip.text

theorem Pool.mem_ips {s : Pool} {ip : Ip} : ip.text ∈ s.ips ↔ ∃ c ∈ s.connections, (s.phones c).ip = ip := by
  simp [Pool.ips, Ip.text_inj]

/-- The pool and the server have the same phones, with the same statuses. -/
structure Agrees (s : Pool) (t : Server) : Prop where
  conns : s.ips.Perm t.conns
  devices : ∀ ip : Ip, s.devicesPro ip = (t.devices.lookup ip.text).map DeviceStatus.code

section Agrees

variable {s : Pool} {t : Server} {i : ℕ} {ip : Ip}

/-- `set_status` on both sides. -/
theorem lookup_setStatus_code {n : Int32} {status : DeviceStatus} (hn : n = status.code)
    (h : ∀ ip : Ip, s.devicesPro ip = (t.devices.lookup ip.text).map DeviceStatus.code) (ip' : Ip) :
    (s.setStatus ip n).devicesPro ip' =
      ((t.devices.setStatus ip.text status).lookup ip'.text).map DeviceStatus.code := by
  have hdevice : (s.setStatus ip n).devicesPro ip' = if ip' = ip then some n else s.devicesPro ip' :=
    Function.update_apply ..
  rw [hdevice, DeviceMgr.lookup_setStatus]
  by_cases hip : ip' = ip
  · rw [if_pos hip, if_pos (Ip.text_inj.mpr hip), hn]
    rfl
  · rw [if_neg hip, if_neg (mt Ip.text_inj.mp hip)]
    exact h ip'

theorem Agrees.mem_iff (h : Agrees s t) : ip.text ∈ t.conns ↔ ∃ c ∈ s.connections, (s.phones c).ip = ip := by
  rw [← h.conns.mem_iff, Pool.mem_ips]

/-- Taking a connection out takes its ip out. -/
theorem ips_stopped (hi : i ∈ s.connections) : s.ips.Perm ((s.phones i).ip.text :: (s.stopped i).ips) := by
  have hout : (s.stopped i).ips = (s.connections.erase i).map fun c => (s.phones c).ip.text :=
    List.map_congr_left fun c _ => congrArg Ip.text Pool.ip_stopped
  rw [hout]
  exact (List.perm_cons_erase hi).map fun c => (s.phones c).ip.text

theorem Agrees.stopped (h : Agrees s t) (hi : i ∈ s.connections) :
    Agrees (s.stopped i) (t.stoppedPhone (s.phones i).ip.text) where
  conns := by
    have herase := ((ips_stopped hi).symm.trans h.conns).erase (s.phones i).ip.text
    rwa [List.erase_cons_head] at herase
  devices := lookup_setStatus_code rfl h.devices

theorem ips_accept (h : s.Inv) : (s.accept ip).ips = s.ips :=
  List.map_congr_left fun c hc => by rw [Pool.phones_accept_of_lt (h.bound c hc)]

theorem ips_joined (pos : ℕ) : (s.joined i pos).ips.Perm ((s.phones i).ip.text :: s.ips) := by
  have hips : (s.joined i pos).ips =
      (s.connections.take pos ++ i :: s.connections.drop pos).map fun c => (s.phones c).ip.text :=
    List.map_congr_left fun c _ => congrArg Ip.text Pool.ip_joined
  have hperm : (s.connections.take pos ++ i :: s.connections.drop pos).Perm (i :: s.connections) := by
    apply List.perm_middle.trans
    rw [List.take_append_drop]
  rw [hips]
  exact hperm.map fun c => (s.phones c).ip.text

theorem Agrees.joined (h : Agrees s t) (hinv : s.Inv) (pos : ℕ) :
    Agrees ((s.accept ip).joined s.accepted pos) (t.joinedPhone ip.text) where
  conns := by
    have hnew : ((s.accept ip).phones s.accepted).ip = ip := congrArg PhoneConnection.ip Pool.phones_accept_self
    have hjoined := ips_joined (s := s.accept ip) (i := s.accepted) pos
    rw [hnew, ips_accept hinv] at hjoined
    exact hjoined.trans (h.conns.cons ip.text)
  devices := by
    have hnew : ((s.accept ip).phones s.accepted).ip = ip := congrArg PhoneConnection.ip Pool.phones_accept_self
    have hupdate : ((s.accept ip).joined s.accepted pos).devicesPro =
        Function.update s.devicesPro ((s.accept ip).phones s.accepted).ip (some statusOnlineIdle) := rfl
    have hjoined : ((s.accept ip).joined s.accepted pos).devicesPro = (s.setStatus ip statusOnlineIdle).devicesPro := by
      rw [hupdate, hnew]
      rfl
    rw [hjoined]
    exact lookup_setStatus_code rfl h.devices

/-- A read of a connection is started or done. -/
theorem Agrees.setRead {r : ReadOp} (h : Agrees s t) : Agrees (s.setRead i r) t where
  conns := by
    have hips : (s.setRead i r).ips = s.ips := List.map_congr_left fun c _ => congrArg Ip.text Pool.ip_setRead
    rw [hips]
    exact h.conns
  devices := h.devices

/-- Both stop the last connection of the ip, or neither has one. -/
theorem Agrees.stoppedLast (h : Agrees s t) (hinv : s.Inv) (ip : Ip) :
    ∃ u : Pool, (s.accept ip).stoppedLast ((s.accept ip).found ip) = u.accept ip ∧ u.Inv ∧
      u.accepted = s.accepted ∧ Agrees u (t.stoppedLast ip.text) := by
  have hphones : ∀ c ∈ s.connections, (s.accept ip).phones c = s.phones c :=
    fun c hc => Pool.phones_accept_of_lt (hinv.bound c hc)
  unfold Server.stoppedLast
  rcases hp : (s.accept ip).found ip with _ | p
  · have hnone : ip.text ∉ t.conns := by
      rw [h.mem_iff]
      rintro ⟨c, hc, hip⟩
      have hne := List.find?_eq_none.mp hp c hc
      rw [hphones c hc] at hne
      exact hne (by simpa using hip)
    rw [if_neg hnone]
    exact ⟨s, rfl, hinv, rfl, h⟩
  · have hmem : p ∈ s.connections := List.mem_of_find?_eq_some hp
    have hip : (s.phones p).ip = ip := by
      have hsome := List.find?_some hp
      rw [hphones p hmem] at hsome
      simpa using hsome
    rw [if_pos (h.mem_iff.mpr ⟨p, hmem, hip⟩)]
    refine ⟨s.stopped p, Pool.stopped_accept (hinv.bound p hmem), hinv.stopped hmem, rfl, ?_⟩
    rw [← hip]
    exact h.stopped hmem

/-! ### `stop_all` -/

theorem stoppedEach_connections (l : List ℕ) : ∀ {cs : List ℕ} {s : Pool},
    ({ s with connections := l } : Pool).stoppedEach cs = { s.stoppedEach cs with connections := l }
  | [], _ => rfl
  | _ :: _, _ => by rw [Pool.stoppedEach, Pool.stoppedEach, ← stoppedEach_connections l]; rfl

/-- `stop_all` stops the first and then all the others. -/
theorem stoppedAll_stopped {cs : List ℕ} (hcs : s.connections = i :: cs) :
    (s.stopped i).stoppedAll = s.stoppedAll := by
  have hrest : (s.stopped i).connections = cs := by
    have herase : (s.stopped i).connections = s.connections.erase i := rfl
    rw [herase, hcs, List.erase_cons_head]
  have hother : s.stopped i =
      { (s.setStatus (s.phones i).ip statusOffline).close i with connections := s.connections.erase i } := rfl
  unfold Pool.stoppedAll
  rw [hrest, hcs, Pool.stoppedEach, hother, stoppedEach_connections]

theorem ips_stopped_head {cs : List ℕ} (hcs : s.connections = i :: cs) :
    s.ips = (s.phones i).ip.text :: (s.stopped i).ips := by
  have hrest : (s.stopped i).ips = cs.map fun c => (s.phones c).ip.text := by
    have hout : (s.stopped i).ips = (s.connections.erase i).map fun c => (s.phones c).ip.text :=
      List.map_congr_left fun c _ => congrArg Ip.text Pool.ip_stopped
    rw [hout, hcs, List.erase_cons_head]
  rw [hrest, Pool.ips, hcs, List.map_cons]

theorem Agrees.stoppedAll : ∀ {cs : List ℕ} {s : Pool} {t : Server}, s.connections = cs → Agrees s t → s.Inv →
    Agrees s.stoppedAll (t.stoppedPhones s.ips)
  | [], s, t, hcs, h, _ => by
    have hall : s.stoppedAll = s := by
      unfold Pool.stoppedAll
      rw [hcs, Pool.stoppedEach]
      exact Pool.ext rfl rfl hcs.symm rfl
    have hips : s.ips = [] := by rw [Pool.ips, hcs, List.map_nil]
    rw [hall, hips]
    exact h
  | i :: cs, s, t, hcs, h, hinv => by
    have hi : i ∈ s.connections := hcs ▸ List.mem_cons_self
    have hrest : (s.stopped i).connections = cs := by
      have herase : (s.stopped i).connections = s.connections.erase i := rfl
      rw [herase, hcs, List.erase_cons_head]
    rw [← stoppedAll_stopped hcs, ips_stopped_head hcs]
    exact Agrees.stoppedAll hrest (h.stopped hi) (hinv.stopped hi)

/-- No ip is connected twice. -/
theorem nodup_ips (h : s.Inv) : s.ips.Nodup :=
  List.Nodup.map_on (fun _ hi _ hj hip => h.eq_of_ip hi hj (Ip.text_inj.mp hip)) h.nodup

end Agrees

/-! ### One event, and a run -/

/-- What the server does at an event of the pool. -/
def phoneActs (s : Io) : Event → List Act
  | .accept ip _ =>
    if ip.text ∈ s.pool.ips then [.accept ip.text, .main, .main, .main] else [.accept ip.text, .main, .main]
  | .handleRead i => if s.pool.Fails i then Server.disconnectActs (s.pool.phones i).ip.text else []
  | .stopAll => s.pool.ips.flatMap Server.disconnectActs
  | .complete _ _ | .find _ => []

/-- The pool and the server between two handlers. -/
structure Tracks (s : Io) (t : Server) : Prop where
  running : s.ended = false
  inv : s.pool.Inv
  idle : t.Idle
  agrees : Agrees s.pool t

section Run

variable {debug : Bool} {s s' : Io} {t : Server} {e : Event}

/-- What the server does at an event leads to the phones of the pool. -/
theorem Agrees.after (h : Tracks s t) (e : Event) :
    ∃ t', Trans.run Server.step t (phoneActs s e) = some t' ∧ Agrees (s.pool.after e) t' ∧ Server.OnlyPhones t t' := by
  have hinv := h.inv
  cases e with
  | accept ip pos =>
    obtain ⟨u, hu, huinv, haccepted, hagrees⟩ := h.agrees.stoppedLast hinv ip
    refine ⟨(t.stoppedLast ip.text).joinedPhone ip.text, ?_, ?_, ?_⟩
    · have hacts : phoneActs s (.accept ip pos) = t.acceptActs ip.text := by
        unfold phoneActs Server.acceptActs
        simp only [h.agrees.conns.mem_iff]
      rw [hacts]
      exact Server.run_accept h.idle
    · rw [Pool.after, hu, ← haccepted]
      exact hagrees.joined huinv pos
    · unfold Server.stoppedLast
      split_ifs
      · rfl
      · rfl
  | complete i r => exact ⟨t, rfl, h.agrees.setRead, .refl t⟩
  | handleRead i =>
    by_cases hfails : s.pool.Fails i
    · have hmem : i ∈ s.pool.connections := (hinv.isOpen i).mp hfails.2
      have hsuccess : (s.pool.phones i).read ≠ .done .success := by simp [hfails.1]
      have hconn : (s.pool.phones i).ip.text ∈ t.conns := h.agrees.mem_iff.mpr ⟨i, hmem, rfl⟩
      refine ⟨t.stoppedPhone (s.pool.phones i).ip.text, ?_, ?_, rfl⟩
      · rw [phoneActs, if_pos hfails]
        exact Server.run_disconnect h.idle hconn
      · rw [Pool.after, if_neg hsuccess, if_pos hfails]
        have hstopped := (h.agrees.setRead (i := i) (r := .none)).stopped hmem
        rwa [Pool.ip_setRead] at hstopped
    · refine ⟨t, ?_, ?_, .refl t⟩
      · rw [phoneActs, if_neg hfails]
        rfl
      · rw [Pool.after, if_neg hfails]
        split_ifs
        · exact h.agrees.setRead.setRead
        · exact h.agrees.setRead
  | stopAll =>
    have hconns : ∀ ip ∈ s.pool.ips, ip ∈ t.conns := fun ip hip => h.agrees.conns.mem_iff.mp hip
    have hrun := Server.run_disconnectEach h.idle (nodup_ips hinv) hconns
    exact ⟨_, hrun, h.agrees.stoppedAll rfl hinv, Server.onlyPhones_stoppedPhones⟩
  | find ip => exact ⟨t, rfl, h.agrees, .refl t⟩

/-- **One event.** -/
theorem Tracks.answer (h : Tracks s t) (hs : step noReset debug s e = some s') :
    ∃ t', Trans.run Server.step t (phoneActs s e) = some t' ∧ Tracks s' t' ∧ Server.OnlyPhones t t' := by
  obtain ⟨t', hrun, hagrees, hphones⟩ := Agrees.after h e
  have hanswered : answered (answers noReset) (s.pool.asks debug e) s.asked :=
    answered_of_forall (fun _ _ => rfl) _ _
  refine ⟨t', hrun, ?_, hphones⟩
  rw [(step_ran h.inv hs).ok hanswered]
  exact ⟨rfl, inv_after h.inv hs, h.idle.of_onlyPhones hphones, hagrees⟩

/-- `devices_pro` after `device_mgr::init`. -/
def loadedDevices (ips : List Ip) : Table Ip Int32 := fun ip => if ip ∈ ips then some statusOffline else none

/-- The phones of a new process. -/
theorem tracks_boot (rows : List (Str × AccountPro)) (ips : List Ip) :
    Tracks (.init (loadedDevices ips)) (.boot rows (ips.map Ip.text)) where
  running := rfl
  inv := Pool.inv_init _
  idle := ⟨rfl, rfl⟩
  agrees := by
    refine ⟨List.Perm.refl _, fun ip => ?_⟩
    have hboot : ((Server.boot rows (ips.map Ip.text)).devices.lookup ip.text) =
        if ip ∈ ips then some .offline else none := by
      have hinsert := DeviceMgr.lookup_insertEach ip.text (ips.map Ip.text) ∅
      have hmem : ip.text ∈ ips.map Ip.text ↔ ip ∈ ips := List.mem_map_of_injective fun _ _ => Ip.text_inj.mp
      apply hinsert.trans
      simp only [hmem, AList.lookup_empty]
    have hinit : (Pool.init (loadedDevices ips)).devicesPro ip = if ip ∈ ips then some statusOffline else none := rfl
    rw [hboot]
    apply hinit.trans
    split_ifs
    · rfl
    · rfl

/-- **The pool refines the server.** A run of the pool without resets is answered
by a run of the server, from any state of the rest that has the same phones; then
both have the same phones with the same statuses, a session finds its phone in
the one exactly if in the other, and the rest is as it was. -/
theorem phones_refined {es : List Event} (h : Tracks s t) (hrun : Trans.run (step noReset debug) s es = some s') :
    ∃ t', Trans.run Server.step t (Trans.emits (step noReset debug) phoneActs s es) = some t' ∧
      s'.pool.ips.Perm t'.conns ∧
      (∀ ip : Ip, s'.pool.devicesPro ip = (t'.devices.lookup ip.text).map DeviceStatus.code) ∧
      (∀ ip : Ip, (s'.pool.found ip).isSome ↔ ip.text ∈ t'.conns) ∧
      Tracks s' t' ∧ t' = t.withPhones t'.conns t'.devices := by
  have hstep : ∀ s e s' u, Tracks s u ∧ Server.OnlyPhones t u → step noReset debug s e = some s' →
      ∃ u', Trans.run Server.step u (phoneActs s e) = some u' ∧ Tracks s' u' ∧ Server.OnlyPhones t u' := by
    rintro s e s' u ⟨hu, hphones⟩ hs
    obtain ⟨u', hrun, hu', hphones'⟩ := hu.answer hs
    exact ⟨u', hrun, hu', hphones.trans hphones'⟩
  obtain ⟨t', ht', htracks, hphones⟩ := Trans.run_answer hstep ⟨h, .refl t⟩ hrun
  refine ⟨t', ht', htracks.agrees.conns, htracks.agrees.devices, fun ip => ?_, htracks, hphones⟩
  rw [htracks.agrees.mem_iff, Pool.found, List.find?_isSome]
  simp

/-- The phone connects, connects again, and its old connection ends. -/
theorem phones_refined_reconnect :
    ∃ s' t', Trans.run Server.step (.boot [] [somePhone.text])
        (Trans.emits (step noReset true) phoneActs (.init (loadedDevices [somePhone])) reconnect) = some t' ∧
      s'.pool.ips.Perm t'.conns ∧ Tracks s' t' := by
  have hsome : (Trans.run (step noReset true) (.init (loadedDevices [somePhone])) reconnect).isSome := by
    decide +kernel
  obtain ⟨t', hrun, hconns, -, -, htracks, -⟩ :=
    phones_refined (tracks_boot [] [somePhone]) (Option.some_get hsome).symm
  exact ⟨_, t', hrun, hconns, htracks⟩

end Run

end PhonePool

end ScheduleCenter
