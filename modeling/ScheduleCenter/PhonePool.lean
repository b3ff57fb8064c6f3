/-
# The phones that are connected

`pho_conn_pool` has the connections of the phones in a set and keeps their ips
ONLINE in the device table. `start` takes in a new connection and first stops
the one of the same ip, `stop` takes a connection out and closes its socket, and
`stop_all` all of them. Each read of a connection is done at some time, and its
handler runs later: in between, the connection may have been replaced and its
socket closed. Without resets the set has at most one connection of an ip, the
last one, and an ip is OFFLINE exactly if it has none (`connections_current`).

The pool finds out about a connection by asking its socket for the peer, and
`remote_endpoint()` throws if the peer has reset. A handler asks several
sockets, and any peer may reset between two questions (`Questions`); nothing
catches the exception, and the process ends. So a phone that resets is taken out
only if nobody asks for its ip any more, though to take it out the pool asks
(`ended_of_reset`, `absorbed_along_iff`).

Not modelled: what the bytes of a read say, the signal of a command that has
ended, and the status that a session writes.

Key definitions: `Pool`, `start`, `stop`, `stopAll`, `findConnection`, `handlePhoneAccept`, `step`, `Pool.Inv`.
Key theorems: `step_cases`, `step_ran`, `step_inv`, `connections_current`, `ended_of_reset`, `absorbed_along_iff`.
-/
import ScheduleCenter.DeviceDatabase
import ScheduleCenter.Base.Questions
import ScheduleCenter.Base.Trans

namespace ScheduleCenter

namespace PhonePool

open Questions WriteThrough

/-- What a read completes with: bytes, `operation_aborted` or another error. -/
inductive ReadResult
  | success | aborted | error
deriving DecidableEq

/-- The read of a connection: none, one under way, or one that is done and
whose handler is queued. -/
inductive ReadOp
  | none | waiting | done (r : ReadResult)
deriving DecidableEq

/-- A `phone_connection`: the ip of its peer, whether its socket is open, its read. -/
structure PhoneConnection where
  ip : Ip
  isOpen : Bool
  read : ReadOp

/-- A new object: its socket is not open and has no peer. -/
def PhoneConnection.new : PhoneConnection := ⟨⟨[], by decide, by simp⟩, false, .none⟩

/-- The connections, by the order in which they were accepted; `connections_`,
in the order of their addresses; and `devices_pro`. -/
@[ext]
structure Pool where
  accepted : ℕ
  phones : ℕ → PhoneConnection
  connections : List ℕ
  devicesPro : Table Ip Int32

namespace Pool

/-- No connection, and the device table as it was loaded. -/
def init (devicesPro : Table Ip Int32) : Pool := ⟨0, fun _ => .new, [], devicesPro⟩

/-- `devices_pro[ip].status`. -/
def status (s : Pool) (ip : Ip) : Int32 := (s.devicesPro ip).getD 0

def set (s : Pool) (i : ℕ) (p : PhoneConnection) : Pool := { s with phones := Function.update s.phones i p }

/-- A phone connects: the next object has a socket. -/
def accept (s : Pool) (ip : Ip) : Pool :=
  { s with accepted := s.accepted + 1, phones := Function.update s.phones s.accepted ⟨ip, true, .none⟩ }

def setRead (s : Pool) (i : ℕ) (r : ReadOp) : Pool := s.set i { s.phones i with read := r }

/-- `socket_.close()`. -/
def close (s : Pool) (i : ℕ) : Pool := s.set i { s.phones i with isOpen := false }

/-- What `set_status` does to `devices_pro`. -/
def setStatus (s : Pool) (ip : Ip) (n : Int32) : Pool :=
  { s with devicesPro := Function.update s.devicesPro ip (some n) }

def erase (s : Pool) (i : ℕ) : Pool := { s with connections := s.connections.erase i }

/-- `connections_.insert`: its address is the one after `pos` of those in the set. -/
def insert (s : Pool) (i pos : ℕ) : Pool :=
  { s with connections := s.connections.take pos ++ i :: s.connections.drop pos }

end Pool

/-- `DEVICE_STATUS_ONLINE_IDLE`. -/
def statusOnlineIdle : Int32 := 1

/-! ### The handlers

`reset i n`: the peer of connection `i` has reset before the question `n`. With
`debug`, `_DEBUG_PRINTF` prints, so its arguments are evaluated. -/

section Handlers

variable (reset : ℕ → ℕ → Bool) (debug : Bool)

/-- The peers that have not reset answer. -/
def answers (i n : ℕ) : Bool := !reset i n

/-- `socket().remote_endpoint().address()`. -/
def remoteEndpoint (i : ℕ) : Prog Pool Ip := do
  let s ← state
  if (s.phones i).isOpen then do
    ask (answers reset) i
    pure (s.phones i).ip
  else throw ()

/-- `_DEBUG_PRINTF` with the ip of a connection. -/
def debugPrint (i : ℕ) : Prog Pool Unit :=
  if debug then do
    let _ ← remoteEndpoint reset i
    pure ()
  else pure ()

/-- `phone_connection::start`: an `async_read_some`. -/
def PhoneConnection.start (i : ℕ) : Prog Pool Unit := update fun s => s.setRead i .waiting

/-- `phone_connection::stop`. -/
def PhoneConnection.stop (i : ℕ) : Prog Pool Unit := update fun s => if (s.phones i).isOpen then s.close i else s

/-- `pho_conn_pool::find_connection`, over the rest of `connections_`. -/
def findConnection (ip : Ip) : List ℕ → Prog Pool (Option ℕ)
  | [] => pure none
  | c :: cs => do
    let peer ← remoteEndpoint reset c
    if peer = ip then pure (some c) else findConnection ip cs

/-- `pho_conn_pool::stop`. -/
def stop (i : ℕ) : Prog Pool Unit := do
  debugPrint reset debug i
  let ip ← remoteEndpoint reset i
  update fun s => s.setStatus ip statusOffline
  update fun s => s.erase i
  PhoneConnection.stop i

/-- The last connection of the ip, if there is one, is stopped. -/
def stopLast (i : ℕ) : Option ℕ → Prog Pool Unit
  | some pconn => do
    debugPrint reset debug i
    stop reset debug pconn
  | none => pure ()

/-- `pho_conn_pool::start`. -/
def start (i pos : ℕ) : Prog Pool Unit := do
  let ip ← remoteEndpoint reset i
  let s ← state
  let pconn ← findConnection reset ip s.connections
  stopLast reset debug i pconn
  let ip ← remoteEndpoint reset i
  update fun s => s.setStatus ip statusOnlineIdle
  PhoneConnection.start i
  update fun s => s.insert i pos

/-- The loop of `pho_conn_pool::stop_all`. -/
def stopEach : List ℕ → Prog Pool Unit
  | [] => pure ()
  | c :: cs => do
    let ip ← remoteEndpoint reset c
    update fun s => s.setStatus ip statusOffline
    PhoneConnection.stop c
    stopEach cs

/-- `pho_conn_pool::stop_all`. -/
def stopAll : Prog Pool Unit := do
  let s ← state
  stopEach reset s.connections
  update fun s => { s with connections := [] }

/-- `phone_connection::handle_read`: what the bytes say (`do_read_msg`) is of no
concern to the pool. -/
def PhoneConnection.handleRead (i : ℕ) : ReadResult → Prog Pool Unit
  | .success => PhoneConnection.start i
  | .aborted => pure ()
  | .error => do
    let s ← state
    if (s.phones i).isOpen then PhonePool.stop reset debug i else pure ()

/-- `main_task::handle_phone_accept`, without an error. -/
def handlePhoneAccept (ip : Ip) (pos : ℕ) : Prog Pool Unit := do
  let s ← state
  update fun s => s.accept ip
  debugPrint reset debug s.accepted
  start reset debug s.accepted pos

/-- The first lines of `a_session::start`. -/
def sessionFind (ip : Ip) : Prog Pool Unit := do
  let s ← state
  let _ ← findConnection reset ip s.connections
  pure ()

end Handlers

/-! ### The io thread -/

/-- The pool, the number of questions asked, and whether an exception has ended the process. -/
structure Io where
  pool : Pool
  asked : ℕ
  ended : Bool

def Io.init (devicesPro : Table Ip Int32) : Io := ⟨.init devicesPro, 0, false⟩

/-- What happens: the handler of an accept runs; a read is done and its handler
queued; that handler runs; `stop_all` is called; a session looks for its phone. -/
inductive Event
  | accept (ip : Ip) (pos : ℕ)
  | complete (i : ℕ) (r : ReadResult)
  | handleRead (i : ℕ)
  | stopAll
  | find (ip : Ip)

/-- Runs a handler from a state of the pool. -/
def Io.call (s : Io) (pool : Pool) (x : Prog Pool Unit) : Io :=
  match x (pool, s.asked) with
  | .ok _ p => ⟨p.1, p.2, false⟩
  | .error _ p => ⟨p.1, p.2, true⟩

/-- A read on a closed socket is done with an error. -/
def step (reset : ℕ → ℕ → Bool) (debug : Bool) (s : Io) (e : Event) : Option Io :=
  if s.ended then none
  else match e with
  | .accept ip pos => some (s.call s.pool (handlePhoneAccept reset debug ip pos))
  | .complete i r =>
    if (s.pool.phones i).read = .waiting ∧ ((s.pool.phones i).isOpen ∨ r ≠ .success) then
      some { s with pool := s.pool.setRead i (.done r) }
    else none
  | .handleRead i =>
    match (s.pool.phones i).read with
    | .done r => some (s.call (s.pool.setRead i .none) (PhoneConnection.handleRead reset debug i r))
    | _ => none
  | .stopAll => some (s.call s.pool (PhonePool.stopAll reset))
  | .find ip => some (s.call s.pool (sessionFind reset ip))

/-! ### What the handlers ask, and what they do -/

namespace Pool

/-- The connections `find_connection` asks: up to the first with the ip. -/
def visited (s : Pool) (ip : Ip) : List ℕ → List ℕ
  | [] => []
  | c :: cs => if (s.phones c).ip = ip then [c] else c :: s.visited ip cs

/-- The connection it finds. -/
def found (s : Pool) (ip : Ip) : Option ℕ := s.connections.find? fun c => (s.phones c).ip = ip

/-- A connection has been stopped. -/
def stopped (s : Pool) (i : ℕ) : Pool := ((s.setStatus (s.phones i).ip statusOffline).erase i).close i

/-- The one that is found has been stopped. -/
def stoppedLast (s : Pool) : Option ℕ → Pool
  | some p => s.stopped p
  | none => s

/-- A connection has been taken in. -/
def joined (s : Pool) (i pos : ℕ) : Pool :=
  ((s.setStatus (s.phones i).ip statusOnlineIdle).setRead i .waiting).insert i pos

/-- The sockets are closed, the ips are OFFLINE. -/
def stoppedEach (s : Pool) : List ℕ → Pool
  | [] => s
  | c :: cs => ((s.setStatus (s.phones c).ip statusOffline).close c).stoppedEach cs

end Pool

section Runs

variable {reset : ℕ → ℕ → Bool} {debug : Bool} {s : Pool} {i : ℕ}

/-- The question of a `_DEBUG_PRINTF`. -/
def printed (debug : Bool) (i : ℕ) : List ℕ := if debug then [i] else []

theorem runs_remoteEndpoint (h : (s.phones i).isOpen) :
    Runs (answers reset) (remoteEndpoint reset i) s [i] (s.phones i).ip s := by
  apply runs_state.bind_nil
  rw [if_pos h]
  exact runs_ask.bind runs_pure

theorem runs_debugPrint (h : (s.phones i).isOpen) :
    Runs (answers reset) (debugPrint reset debug i) s (printed debug i) () s := by
  cases debug with
  | true => exact (runs_remoteEndpoint h).bind runs_pure
  | false => exact runs_pure

theorem runs_findConnection {ip : Ip} : ∀ {cs : List ℕ}, (∀ c ∈ cs, (s.phones c).isOpen) →
    Runs (answers reset) (findConnection reset ip cs) s (s.visited ip cs) (cs.find? fun c => (s.phones c).ip = ip) s
  | [], _ => runs_pure
  | c :: cs, h => by
    have hc : Runs (answers reset) (remoteEndpoint reset c) s [c] (s.phones c).ip s :=
      runs_remoteEndpoint (h c List.mem_cons_self)
    rw [findConnection, Pool.visited]
    by_cases hip : (s.phones c).ip = ip
    · rw [if_pos hip, List.find?_cons_of_pos (by simpa using hip)]
      apply hc.bind
      rw [if_pos hip]
      exact runs_pure
    · rw [if_neg hip, List.find?_cons_of_neg (by simpa using hip)]
      apply hc.bind
      rw [if_neg hip]
      exact runs_findConnection fun d hd => h d (List.mem_cons_of_mem _ hd)

theorem runs_closeSocket (h : (s.phones i).isOpen) :
    Runs (answers reset) (PhoneConnection.stop i) s [] () (s.close i) := by
  rw [← if_pos (h : (s.phones i).isOpen = true) (c := (s.phones i).isOpen = true) (t := s.close i) (e := s)]
  exact runs_update

theorem runs_stop (h : (s.phones i).isOpen) :
    Runs (answers reset) (stop reset debug i) s (printed debug i ++ [i]) () (s.stopped i) := by
  apply (runs_debugPrint h).bind
  apply (runs_remoteEndpoint h).bind_last
  apply runs_update.bind_nil
  apply runs_update.bind_nil
  apply runs_closeSocket
  exact h

/-- What `stopLast` asks. -/
def askedLast (debug : Bool) (i : ℕ) : Option ℕ → List ℕ
  | some p => printed debug i ++ (printed debug p ++ [p])
  | none => []

theorem runs_stopLast (hi : (s.phones i).isOpen) {o : Option ℕ} (ho : ∀ p ∈ o, (s.phones p).isOpen) :
    Runs (answers reset) (stopLast reset debug i o) s (askedLast debug i o) () (s.stoppedLast o) := by
  cases o with
  | none => exact runs_pure
  | some p => exact (runs_debugPrint hi).bind (runs_stop (ho p rfl))

/-- What `start` asks. -/
def Pool.askedStart (s : Pool) (debug : Bool) (i : ℕ) : List ℕ :=
  i :: (s.visited (s.phones i).ip s.connections ++ (askedLast debug i (s.found (s.phones i).ip) ++ [i]))

/-- `start` asks the new connection, those before the one of its ip, and the new
one again; in between it stops the one of its ip. -/
theorem runs_start (pos : ℕ) (hi : (s.phones i).isOpen) (hmem : i ∉ s.connections)
    (hopen : ∀ c ∈ s.connections, (s.phones c).isOpen) :
    Runs (answers reset) (start reset debug i pos) s (s.askedStart debug i) ()
      ((s.stoppedLast (s.found (s.phones i).ip)).joined i pos) := by
  have hfound : ∀ p ∈ s.found (s.phones i).ip, p ∈ s.connections := fun p hp => List.mem_of_find?_eq_some hp
  have hstill : (s.stoppedLast (s.found (s.phones i).ip)).phones i = s.phones i := by
    rcases hp : s.found (s.phones i).ip with _ | p
    · rfl
    · have hne : i ≠ p := fun h => hmem (h ▸ hfound p hp)
      exact Function.update_of_ne hne _ _
  have hlast : ((s.stoppedLast (s.found (s.phones i).ip)).phones i).isOpen := by
    rw [hstill]
    exact hi
  apply (runs_remoteEndpoint hi).bind
  apply runs_state.bind_nil
  apply (runs_findConnection hopen).bind
  apply (runs_stopLast hi fun p hp => hopen p (hfound p hp)).bind
  apply (runs_remoteEndpoint hlast).bind_last
  apply runs_update.bind_nil
  apply runs_update.bind_nil
  exact runs_update

/-- The loop of `stop_all` asks each connection. -/
theorem runs_stopEach : ∀ {cs : List ℕ} {s : Pool}, cs.Nodup → (∀ c ∈ cs, (s.phones c).isOpen) →
    Runs (answers reset) (stopEach reset cs) s cs () (s.stoppedEach cs)
  | [], _, _, _ => runs_pure
  | c :: cs, s, hnodup, hopen => by
    have hc := hopen c List.mem_cons_self
    have hcs : ∀ d ∈ cs, (((s.setStatus (s.phones c).ip statusOffline).close c).phones d).isOpen := by
      intro d hd
      have hne : d ≠ c := fun h => (List.nodup_cons.mp hnodup).1 (h ▸ hd)
      have hsame : ((s.setStatus (s.phones c).ip statusOffline).close c).phones d = s.phones d :=
        Function.update_of_ne hne _ _
      rw [hsame]
      exact hopen d (List.mem_cons_of_mem _ hd)
    apply (runs_remoteEndpoint hc).bind
    apply runs_update.bind_nil
    apply (runs_closeSocket (s := s.setStatus (s.phones c).ip statusOffline) hc).bind_nil
    exact runs_stopEach (List.nodup_cons.mp hnodup).2 hcs

end Runs

/-! ### The invariant -/

namespace Pool

variable {s : Pool} {i j : ℕ} {ip : Ip}

section Fields

variable {r : ReadOp} {n : Int32}

theorem phones_set {p : PhoneConnection} : (s.set i p).phones j = if j = i then p else s.phones j :=
  Function.update_apply ..

/-- What a change of a connection keeps. -/
theorem phones_set_congr {α : Type} (f : PhoneConnection → α) {p : PhoneConnection} (h : f p = f (s.phones i)) :
    f ((s.set i p).phones j) = f (s.phones j) := by
  rw [phones_set]
  split_ifs with hj
  · rw [h, hj]
  · rfl

@[simp]
theorem ip_setRead : ((s.setRead i r).phones j).ip = (s.phones j).ip := phones_set_congr PhoneConnection.ip rfl

@[simp]
theorem isOpen_setRead : ((s.setRead i r).phones j).isOpen = (s.phones j).isOpen :=
  phones_set_congr PhoneConnection.isOpen rfl

@[simp]
theorem ip_close : ((s.close i).phones j).ip = (s.phones j).ip := phones_set_congr PhoneConnection.ip rfl

@[simp]
theorem read_close : ((s.close i).phones j).read = (s.phones j).read := phones_set_congr PhoneConnection.read rfl

@[simp]
theorem isOpen_close : ((s.close i).phones j).isOpen ↔ j ≠ i ∧ (s.phones j).isOpen := by
  rw [close, phones_set]
  split_ifs with h
  · simp [h]
  · simp [h]

@[simp]
theorem status_setStatus {ip' : Ip} : (s.setStatus ip n).status ip' = if ip' = ip then n else s.status ip' := by
  have hdevice : (s.setStatus ip n).devicesPro ip' = if ip' = ip then some n else s.devicesPro ip' :=
    Function.update_apply ..
  rw [status, hdevice]
  split_ifs
  · rfl
  · rfl

@[simp] theorem phones_setStatus : (s.setStatus ip n).phones = s.phones := rfl
@[simp] theorem status_setRead : (s.setRead i r).status = s.status := rfl
@[simp] theorem connections_setRead : (s.setRead i r).connections = s.connections := rfl
@[simp] theorem accepted_setRead : (s.setRead i r).accepted = s.accepted := rfl
@[simp] theorem status_close : (s.close i).status = s.status := rfl

theorem mem_insert {k pos : ℕ} : k ∈ (s.insert i pos).connections ↔ k = i ∨ k ∈ s.connections := by
  have hmem : k ∈ s.connections ↔ k ∈ s.connections.take pos ∨ k ∈ s.connections.drop pos := by
    rw [← List.mem_append, List.take_append_drop]
  rw [hmem, insert, List.mem_append, List.mem_cons]
  tauto

theorem nodup_insert {pos : ℕ} (h : s.connections.Nodup) (hi : i ∉ s.connections) :
    (s.insert i pos).connections.Nodup := by
  rw [insert, List.nodup_middle, List.take_append_drop]
  exact List.nodup_cons.mpr ⟨hi, h⟩

end Fields

/-- Between two handlers: the open sockets are those of the set, each the last
one accepted for its ip; and the ips without one are OFFLINE. -/
structure Inv (s : Pool) : Prop where
  nodup : s.connections.Nodup
  reads : ∀ i, (s.phones i).read ≠ .none → i < s.accepted
  bound : ∀ i ∈ s.connections, i < s.accepted
  isOpen : ∀ i, (s.phones i).isOpen ↔ i ∈ s.connections
  last : ∀ i ∈ s.connections, ∀ j < s.accepted, (s.phones j).ip = (s.phones i).ip → j ≤ i
  offline : ∀ i < s.accepted,
    s.status (s.phones i).ip = statusOffline ↔ ∀ j ∈ s.connections, (s.phones j).ip ≠ (s.phones i).ip

/-- At most one connection of an ip. -/
theorem Inv.eq_of_ip (h : s.Inv) (hi : i ∈ s.connections) (hj : j ∈ s.connections)
    (hip : (s.phones i).ip = (s.phones j).ip) : i = j :=
  Nat.le_antisymm (h.last j hj i (h.bound i hi) hip) (h.last i hi j (h.bound j hj) hip.symm)

theorem inv_init (devicesPro : Table Ip Int32) : (init devicesPro).Inv where
  nodup := List.nodup_nil
  reads := by simp [init, PhoneConnection.new]
  bound := by simp [init]
  isOpen := by simp [init, PhoneConnection.new]
  last := by simp [init]
  offline := by simp [init]

theorem Inv.setRead (h : s.Inv) (r : ReadOp) (hi : i < s.accepted) : (s.setRead i r).Inv where
  nodup := h.nodup
  reads j hj := by
    by_cases hji : j = i
    · exact hji ▸ hi
    · rw [Pool.setRead, phones_set, if_neg hji] at hj
      exact h.reads j hj
  bound := h.bound
  isOpen := by simpa using h.isOpen
  last := by simpa using h.last
  offline := by simpa using h.offline

theorem Inv.mem_stopped (h : s.Inv) : j ∈ (s.stopped i).connections ↔ j ≠ i ∧ j ∈ s.connections :=
  h.nodup.mem_erase_iff

theorem ip_stopped : ((s.stopped i).phones j).ip = (s.phones j).ip := ip_close

theorem read_stopped : ((s.stopped i).phones j).read = (s.phones j).read := read_close

theorem isOpen_stopped : ((s.stopped i).phones j).isOpen ↔ j ≠ i ∧ (s.phones j).isOpen := isOpen_close

theorem status_stopped :
    (s.stopped i).status ip = if ip = (s.phones i).ip then statusOffline else s.status ip :=
  status_setStatus

theorem Inv.stopped (h : s.Inv) (hi : i ∈ s.connections) : (s.stopped i).Inv where
  nodup := h.nodup.erase i
  reads j hj := h.reads j (read_stopped ▸ hj)
  bound j hj := h.bound j (h.mem_stopped.mp hj).2
  isOpen j := by rw [isOpen_stopped, h.isOpen j, h.mem_stopped]
  last j hj k hk hip := by
    rw [ip_stopped, ip_stopped] at hip
    exact h.last j (h.mem_stopped.mp hj).2 k hk hip
  offline j hj := by
    simp only [ip_stopped, status_stopped, h.mem_stopped]
    split_ifs with hip
    · simp only [true_iff]
      rintro k ⟨hne, hk⟩ hkj
      exact hne (h.eq_of_ip hk hi (hkj.trans hip))
    · rw [h.offline j hj]
      constructor
      · exact fun hall k hk => hall k hk.2
      · intro hall k hk
        by_cases hki : k = i
        · rw [hki]
          exact fun heq => hip heq.symm
        · exact hall k ⟨hki, hk⟩

/-! ### A connection is taken in -/

theorem phones_accept : (s.accept ip).phones j = if j = s.accepted then ⟨ip, true, .none⟩ else s.phones j :=
  Function.update_apply ..

theorem phones_accept_self : (s.accept ip).phones s.accepted = ⟨ip, true, .none⟩ := Function.update_self ..

theorem phones_accept_of_lt (hj : j < s.accepted) : (s.accept ip).phones j = s.phones j :=
  Function.update_of_ne hj.ne _ _

/-- Stopping an earlier one and accepting commute. -/
theorem stopped_accept (hi : i < s.accepted) : (s.accept ip).stopped i = (s.stopped i).accept ip := by
  have hphones : ((s.accept ip).stopped i).phones = ((s.stopped i).accept ip).phones := by
    have hlater : ((s.accept ip).stopped i).phones =
        Function.update (s.accept ip).phones i { (s.accept ip).phones i with isOpen := false } := rfl
    rw [hlater, phones_accept_of_lt hi]
    exact Function.update_comm hi.ne' _ _ _
  have hdevices : ((s.accept ip).stopped i).devicesPro = ((s.stopped i).accept ip).devicesPro := by
    have hlater : ((s.accept ip).stopped i).devicesPro =
        Function.update s.devicesPro ((s.accept ip).phones i).ip (some statusOffline) := rfl
    rw [hlater, phones_accept_of_lt hi]
    rfl
  exact Pool.ext rfl hphones rfl hdevices

/-- Once the one that is found is stopped, none of the ip is left. -/
theorem Inv.stoppedLast (h : s.Inv) (ip : Ip) :
    ∃ t : Pool, (s.accept ip).stoppedLast ((s.accept ip).found ip) = t.accept ip ∧ t.Inv ∧
      t.accepted = s.accepted ∧ ∀ j ∈ t.connections, (t.phones j).ip ≠ ip := by
  have hphones : ∀ j ∈ s.connections, (s.accept ip).phones j = s.phones j :=
    fun j hj => phones_accept_of_lt (h.bound j hj)
  rcases hp : (s.accept ip).found ip with _ | p
  · refine ⟨s, rfl, h, rfl, fun j hj => ?_⟩
    have hne := List.find?_eq_none.mp hp j hj
    rw [hphones j hj] at hne
    simpa using hne
  · have hmem : p ∈ s.connections := List.mem_of_find?_eq_some hp
    have hip : (s.phones p).ip = ip := by
      have hsome := List.find?_some hp
      rw [hphones p hmem] at hsome
      simpa using hsome
    refine ⟨s.stopped p, stopped_accept (h.bound p hmem), h.stopped hmem, rfl, fun j hj hj' => ?_⟩
    obtain ⟨hne, hj⟩ := h.mem_stopped.mp hj
    rw [ip_stopped] at hj'
    exact hne (h.eq_of_ip hj hmem (hj'.trans hip.symm))

theorem mem_joined {k pos : ℕ} : k ∈ (s.joined i pos).connections ↔ k = i ∨ k ∈ s.connections := mem_insert

theorem ip_joined {pos : ℕ} : ((s.joined i pos).phones j).ip = (s.phones j).ip := ip_setRead

theorem isOpen_joined {pos : ℕ} : ((s.joined i pos).phones j).isOpen = (s.phones j).isOpen := isOpen_setRead

theorem status_joined {pos : ℕ} :
    (s.joined i pos).status ip = if ip = (s.phones i).ip then statusOnlineIdle else s.status ip :=
  status_setStatus

/-- The new connection is the only one of its ip. -/
theorem Inv.joined (h : s.Inv) (hnone : ∀ j ∈ s.connections, (s.phones j).ip ≠ ip) (pos : ℕ) :
    ((s.accept ip).joined s.accepted pos).Inv where
  nodup := nodup_insert h.nodup fun hmem => (h.bound _ hmem).false
  reads j hj := by
    by_cases hself : j = s.accepted
    · rw [hself]
      exact Nat.lt_succ_self _
    · have hread : (((s.accept ip).joined s.accepted pos).phones j).read = (s.phones j).read := by
        rw [Pool.joined, insert, Pool.setRead, phones_set, if_neg hself, phones_setStatus, phones_accept, if_neg hself]
      exact Nat.lt_succ_of_lt (h.reads j (hread ▸ hj))
  bound j hj := by
    rcases mem_joined.mp hj with rfl | hj
    · exact Nat.lt_succ_self _
    · exact Nat.lt_succ_of_lt (h.bound j hj)
  isOpen j := by
    rw [isOpen_joined, mem_joined, phones_accept]
    split_ifs with hj
    · simp [hj]
    · simp only [hj, false_or]
      exact h.isOpen j
  last j hj k hk hip := by
    rw [ip_joined, ip_joined] at hip
    have hle : k ≤ s.accepted := Nat.lt_succ_iff.mp hk
    rcases mem_joined.mp hj with rfl | hj
    · exact hle
    · rw [phones_accept_of_lt (h.bound j hj)] at hip
      rcases hle.lt_or_eq with hlt | rfl
      · rw [phones_accept_of_lt hlt] at hip
        exact h.last j hj k hlt hip
      · rw [phones_accept_self] at hip
        exact absurd hip.symm (hnone j hj)
  offline j hj := by
    simp only [ip_joined, status_joined, mem_joined, phones_accept_self]
    have hle : j ≤ s.accepted := Nat.lt_succ_iff.mp hj
    by_cases hip : ((s.accept ip).phones j).ip = ip
    · rw [if_pos hip]
      refine iff_of_false (by decide) fun hall => hall s.accepted (Or.inl rfl) ?_
      rw [phones_accept_self, hip]
    · have hlt : j < s.accepted := by
        refine hle.lt_of_ne ?_
        rintro rfl
        exact hip (congrArg PhoneConnection.ip phones_accept_self)
      rw [if_neg hip]
      rw [phones_accept_of_lt hlt] at hip ⊢
      constructor
      · rintro hoff k (rfl | hk)
        · rw [phones_accept_self]
          exact Ne.symm hip
        · rw [phones_accept_of_lt (h.bound k hk)]
          exact (h.offline j hlt).mp hoff k hk
      · intro hall
        refine (h.offline j hlt).mpr fun k hk => ?_
        have hk' := hall k (Or.inr hk)
        rwa [phones_accept_of_lt (h.bound k hk)] at hk'

/-! ### All are stopped -/

theorem accepted_stoppedEach : ∀ {cs : List ℕ} {s : Pool}, (s.stoppedEach cs).accepted = s.accepted
  | [], _ => rfl
  | _ :: cs, _ => by rw [stoppedEach, accepted_stoppedEach]; rfl

/-- What closing a socket keeps, the loop keeps. -/
theorem phones_stoppedEach_congr {α : Type} (f : PhoneConnection → α) (hf : ∀ p, f { p with isOpen := false } = f p) :
    ∀ {cs : List ℕ} {s : Pool}, f ((s.stoppedEach cs).phones j) = f (s.phones j)
  | [], _ => rfl
  | c :: cs, s => by
    rw [stoppedEach, phones_stoppedEach_congr f hf, close, phones_set_congr f (hf _), phones_setStatus]

theorem isOpen_stoppedEach : ∀ {cs : List ℕ} {s : Pool},
    ((s.stoppedEach cs).phones j).isOpen ↔ j ∉ cs ∧ (s.phones j).isOpen
  | [], _ => by simp [stoppedEach]
  | c :: cs, s => by
    rw [stoppedEach, isOpen_stoppedEach, isOpen_close, phones_setStatus, List.mem_cons]
    tauto

theorem status_stoppedEach : ∀ {cs : List ℕ} {s : Pool},
    (s.stoppedEach cs).status ip = if ∃ c ∈ cs, (s.phones c).ip = ip then statusOffline else s.status ip
  | [], _ => by simp [stoppedEach]
  | c :: cs, s => by
    rw [stoppedEach, status_stoppedEach]
    simp only [ip_close, phones_setStatus, status_close, status_setStatus, List.exists_mem_cons_iff]
    by_cases hcs : ∃ d ∈ cs, (s.phones d).ip = ip
    · rw [if_pos hcs, if_pos (Or.inr hcs)]
    · rw [if_neg hcs]
      by_cases hc : (s.phones c).ip = ip
      · rw [if_pos hc.symm, if_pos (Or.inl hc)]
      · rw [if_neg (Ne.symm hc), if_neg (not_or_intro hc hcs)]

/-- No connection is left. -/
def stoppedAll (s : Pool) : Pool := { s.stoppedEach s.connections with connections := [] }

theorem Inv.stoppedAll (h : s.Inv) : s.stoppedAll.Inv where
  nodup := List.nodup_nil
  reads j hj := by
    have hread : (s.stoppedAll.phones j).read = (s.phones j).read :=
      phones_stoppedEach_congr PhoneConnection.read fun _ => rfl
    have haccepted : s.stoppedAll.accepted = s.accepted := accepted_stoppedEach
    exact haccepted ▸ h.reads j (hread ▸ hj)
  bound := by simp [Pool.stoppedAll]
  isOpen j := by
    have hclosed : ¬ ((s.stoppedEach s.connections).phones j).isOpen := by
      rw [isOpen_stoppedEach, h.isOpen j]
      exact fun hj => hj.1 hj.2
    simpa [Pool.stoppedAll] using hclosed
  last := by simp [Pool.stoppedAll]
  offline j hj := by
    have hlt : j < s.accepted := accepted_stoppedEach ▸ hj
    have hip : (s.stoppedAll.phones j).ip = (s.phones j).ip :=
      phones_stoppedEach_congr PhoneConnection.ip fun _ => rfl
    have hstatus : s.stoppedAll.status (s.phones j).ip = statusOffline := by
      refine status_stoppedEach.trans ?_
      split_ifs with hex
      · rfl
      · exact (h.offline j hlt).mpr fun k hk heq => hex ⟨k, hk, heq⟩
    rw [hip, hstatus]
    simp [Pool.stoppedAll]

end Pool

/-! ### One event -/

/-- A read error of a connection whose socket is open: the handler calls `stop`. -/
def Pool.Fails (s : Pool) (i : ℕ) : Prop := (s.phones i).read = .done .error ∧ (s.phones i).isOpen

instance (s : Pool) (i : ℕ) : Decidable (s.Fails i) := inferInstanceAs (Decidable (_ ∧ _))

/-- Whom the event asks for its ip, in order, if all of them answer. -/
def Pool.asks (debug : Bool) (s : Pool) : Event → List ℕ
  | .accept ip _ => printed debug s.accepted ++ (s.accept ip).askedStart debug s.accepted
  | .complete _ _ => []
  | .handleRead i => if s.Fails i then printed debug i ++ [i] else []
  | .stopAll => s.connections
  | .find ip => s.visited ip s.connections

/-- The pool after the event, if all of them have answered. -/
def Pool.after (s : Pool) : Event → Pool
  | .accept ip pos => ((s.accept ip).stoppedLast ((s.accept ip).found ip)).joined s.accepted pos
  | .complete i r => s.setRead i (.done r)
  | .handleRead i =>
    if (s.phones i).read = .done .success then (s.setRead i .none).setRead i .waiting
    else if s.Fails i then (s.setRead i .none).stopped i
    else s.setRead i .none
  | .stopAll => s.stoppedAll
  | .find _ => s

section Step

variable {reset : ℕ → ℕ → Bool} {debug : Bool} {s s' : Io} {e : Event}

/-- All that are asked answer: none of their peers has reset by then. -/
def Io.Answered (reset : ℕ → ℕ → Bool) (debug : Bool) (s : Io) (e : Event) : Prop :=
  answered (answers reset) (s.pool.asks debug e) s.asked

instance : Decidable (s.Answered reset debug e) := inferInstanceAs (Decidable (_ = true))

/-- What comes of a handler. -/
structure Io.Ran (reset : ℕ → ℕ → Bool) (s s' : Io) (l : List ℕ) (pool : Pool) : Prop where
  ok : answered (answers reset) l s.asked → s' = ⟨pool, s.asked + l.length, false⟩
  error : ¬ answered (answers reset) l s.asked → s'.ended = true

theorem Io.ran_call {x : Prog Pool Unit} {pool pool' : Pool} {l : List ℕ}
    (hx : Runs (answers reset) x pool l () pool') : s.Ran reset (s.call pool x) l pool' where
  ok h := by rw [call, hx.ok _ h]
  error h := by
    obtain ⟨p, hp⟩ := hx.error _ h
    rw [call, hp]

theorem runs_handleRead {pool : Pool} {i : ℕ} {r : ReadResult} (hr : (pool.phones i).read = .done r) :
    Runs (answers reset) (PhoneConnection.handleRead reset debug i r) (pool.setRead i .none)
      (pool.asks debug (.handleRead i)) () (pool.after (.handleRead i)) := by
  cases r with
  | success =>
    have hfails : ¬ pool.Fails i := by simp [Pool.Fails, hr]
    have hasks : pool.asks debug (.handleRead i) = [] := if_neg hfails
    have hafter : pool.after (.handleRead i) = (pool.setRead i .none).setRead i .waiting := if_pos hr
    rw [hasks, hafter, PhoneConnection.handleRead, PhoneConnection.start]
    exact runs_update
  | aborted =>
    have hfails : ¬ pool.Fails i := by simp [Pool.Fails, hr]
    have hasks : pool.asks debug (.handleRead i) = [] := if_neg hfails
    have hafter : pool.after (.handleRead i) = pool.setRead i .none := by simp [Pool.after, hr, hfails]
    rw [hasks, hafter]
    exact runs_pure
  | error =>
    apply runs_state.bind_nil
    by_cases hopen : (pool.phones i).isOpen
    · have hfails : pool.Fails i := ⟨hr, hopen⟩
      have hasks : pool.asks debug (.handleRead i) = printed debug i ++ [i] := if_pos hfails
      have hafter : pool.after (.handleRead i) = (pool.setRead i .none).stopped i := by simp [Pool.after, hr, hfails]
      have hopen' : ((pool.setRead i .none).phones i).isOpen := by rwa [Pool.isOpen_setRead]
      rw [hasks, hafter, if_pos hopen']
      exact runs_stop hopen'
    · have hfails : ¬ pool.Fails i := fun hf => hopen hf.2
      have hasks : pool.asks debug (.handleRead i) = [] := if_neg hfails
      have hafter : pool.after (.handleRead i) = pool.setRead i .none := by simp [Pool.after, hr, hfails]
      have hclosed : ¬ ((pool.setRead i .none).phones i).isOpen := by rwa [Pool.isOpen_setRead]
      rw [hasks, hafter, if_neg hclosed]
      exact runs_pure

theorem runs_handlePhoneAccept {pool : Pool} (h : pool.Inv) (ip : Ip) (pos : ℕ) :
    Runs (answers reset) (handlePhoneAccept reset debug ip pos) pool (pool.asks debug (.accept ip pos)) ()
      (pool.after (.accept ip pos)) := by
  have hself : (pool.accept ip).phones pool.accepted = ⟨ip, true, .none⟩ := Pool.phones_accept_self
  have hopen : ((pool.accept ip).phones pool.accepted).isOpen := by rw [hself]
  have hmem : pool.accepted ∉ pool.connections := fun hmem => (h.bound _ hmem).false
  have hothers : ∀ c ∈ pool.connections, ((pool.accept ip).phones c).isOpen := by
    intro c hc
    rw [Pool.phones_accept_of_lt (h.bound c hc)]
    exact (h.isOpen c).mpr hc
  have hafter : ((pool.accept ip).stoppedLast ((pool.accept ip).found
      ((pool.accept ip).phones pool.accepted).ip)).joined pool.accepted pos = pool.after (.accept ip pos) := by
    rw [hself]
    rfl
  apply runs_state.bind_nil
  apply runs_update.bind_nil
  rw [← hafter]
  exact (runs_debugPrint hopen).bind (runs_start pos hopen hmem hothers)

theorem runs_stopAll {pool : Pool} (h : pool.Inv) :
    Runs (answers reset) (stopAll reset) pool pool.connections () pool.stoppedAll := by
  apply runs_state.bind_nil
  apply (runs_stopEach h.nodup fun c hc => (h.isOpen c).mpr hc).bind_last
  exact runs_update

theorem runs_sessionFind {pool : Pool} (h : pool.Inv) (ip : Ip) :
    Runs (answers reset) (sessionFind reset ip) pool (pool.visited ip pool.connections) () pool := by
  apply runs_state.bind_nil
  apply (runs_findConnection fun c hc => (h.isOpen c).mpr hc).bind_last
  exact runs_pure

/-- What an event can be, and where it leads. -/
inductive StepCase (reset : ℕ → ℕ → Bool) (debug : Bool) (s : Io) : Event → Io → Prop
  | accept (ip : Ip) (pos : ℕ) :
    StepCase reset debug s (.accept ip pos) (s.call s.pool (handlePhoneAccept reset debug ip pos))
  | complete {i : ℕ} {r : ReadResult} (hread : (s.pool.phones i).read = .waiting) :
    StepCase reset debug s (.complete i r) { s with pool := s.pool.setRead i (.done r) }
  | handleRead {i : ℕ} {r : ReadResult} (hread : (s.pool.phones i).read = .done r) :
    StepCase reset debug s (.handleRead i)
      (s.call (s.pool.setRead i .none) (PhoneConnection.handleRead reset debug i r))
  | stopAll : StepCase reset debug s .stopAll (s.call s.pool (stopAll reset))
  | find (ip : Ip) : StepCase reset debug s (.find ip) (s.call s.pool (sessionFind reset ip))

theorem step_cases (hs : step reset debug s e = some s') : s.ended = false ∧ StepCase reset debug s e s' := by
  unfold step at hs
  split_ifs at hs with hended
  refine ⟨by simpa using hended, ?_⟩
  cases e with
  | accept ip pos =>
    obtain rfl := Option.some.inj hs
    exact .accept ip pos
  | complete i r =>
    dsimp only at hs
    split_ifs at hs with hwaiting
    obtain rfl := Option.some.inj hs
    exact .complete hwaiting.1
  | handleRead i =>
    dsimp only at hs
    split at hs
    · obtain rfl := Option.some.inj hs
      exact .handleRead ‹_›
    · cases hs
  | stopAll =>
    obtain rfl := Option.some.inj hs
    exact .stopAll
  | find ip =>
    obtain rfl := Option.some.inj hs
    exact .find ip

/-- **One event.** It leaves the pool of `after` if all that it asks answer, and
ends the process if not. -/
theorem step_ran (h : s.pool.Inv) (hs : step reset debug s e = some s') :
    s.Ran reset s' (s.pool.asks debug e) (s.pool.after e) := by
  obtain ⟨hrunning, hcase⟩ := step_cases hs
  cases hcase with
  | accept ip pos => exact Io.ran_call (runs_handlePhoneAccept h ip pos)
  | complete => exact ⟨fun _ => by rw [hrunning]; rfl, fun hnone => absurd rfl hnone⟩
  | handleRead hread => exact Io.ran_call (runs_handleRead hread)
  | stopAll => exact Io.ran_call (runs_stopAll h)
  | find ip => exact Io.ran_call (runs_sessionFind h ip)

/-- The read that the event is about has been started. -/
def Pool.Pending (s : Pool) : Event → Prop
  | .complete i _ => (s.phones i).read ≠ .none
  | .handleRead i => (s.phones i).read ≠ .none
  | _ => True

theorem step_pending (hs : step reset debug s e = some s') : s.pool.Pending e := by
  cases (step_cases hs).2 with
  | complete hread => simp [Pool.Pending, hread]
  | handleRead hread => simp [Pool.Pending, hread]
  | _ => trivial

theorem inv_after (h : s.pool.Inv) (hs : step reset debug s e = some s') : (s.pool.after e).Inv := by
  have hread := step_pending hs
  cases e with
  | accept ip pos =>
    obtain ⟨t, ht, hinv, haccepted, hnone⟩ := h.stoppedLast ip
    rw [Pool.after, ht, ← haccepted]
    exact hinv.joined hnone pos
  | complete i r => exact h.setRead _ (h.reads i hread)
  | handleRead i =>
    have hi := h.reads i hread
    rw [Pool.after]
    split_ifs with hsuccess hfails
    · exact (h.setRead _ hi).setRead _ hi
    · exact (h.setRead _ hi).stopped ((h.isOpen i).mp hfails.2)
    · exact h.setRead _ hi
  | stopAll => exact h.stoppedAll
  | find ip => exact h

/-- The invariant holds until an exception ends the process. -/
theorem step_inv (h : s.pool.Inv) (hs : step reset debug s e = some s') : s'.ended = true ∨ s'.pool.Inv := by
  have hran := step_ran h hs
  by_cases hanswered : s.Answered reset debug e
  · rw [hran.ok hanswered]
    exact Or.inr (inv_after h hs)
  · exact Or.inl (hran.error hanswered)

/-- A connection that is not in the set: its completion leaves the set and the statuses. -/
theorem handleRead_stale {i : ℕ} (h : s.pool.Inv) (hi : i ∉ s.pool.connections)
    (hs : step reset debug s (.handleRead i) = some s') :
    s'.ended = false ∧ s'.pool.connections = s.pool.connections ∧ s'.pool.devicesPro = s.pool.devicesPro := by
  have hfails : ¬ s.pool.Fails i := fun hf => hi ((h.isOpen i).mp hf.2)
  have hasks : s.pool.asks debug (.handleRead i) = [] := if_neg hfails
  have hran := step_ran h hs
  rw [hasks] at hran
  rw [hran.ok rfl, Pool.after, if_neg hfails]
  split_ifs
  · exact ⟨rfl, rfl, rfl⟩
  · exact ⟨rfl, rfl, rfl⟩

/-! ### Without resets -/

/-- A later connection of its ip has been accepted. -/
def Pool.Replaced (s : Pool) (i : ℕ) : Prop := ∃ j < s.accepted, i < j ∧ (s.phones j).ip = (s.phones i).ip

/-- No peer resets: an open socket gives its ip. -/
def noReset (_ _ : ℕ) : Bool := false

theorem reached_inv {devicesPro : Table Ip Int32} {ok : Io → Event → Prop}
    (hreach : Trans.Reach (step noReset debug) ok (.init devicesPro) s) : s.ended = false ∧ s.pool.Inv := by
  apply hreach.invariant (I := fun s => s.ended = false ∧ s.pool.Inv) ⟨rfl, Pool.inv_init devicesPro⟩
  rintro s e s' ⟨-, hinv⟩ - hs
  have hanswered : answered (answers noReset) (s.pool.asks debug e) s.asked :=
    answered_of_forall (fun _ _ => rfl) _ _
  rw [(step_ran hinv hs).ok hanswered]
  exact ⟨rfl, inv_after hinv hs⟩

/-- **One connection per phone.** In every state between two handlers the set has
at most one connection of an ip, the last one accepted, and an ip is OFFLINE
exactly if it has none; a completion of a replaced connection changes neither. -/
theorem connections_current {devicesPro : Table Ip Int32} {es : List Event}
    (hrun : Trans.run (step noReset debug) (.init devicesPro) es = some s) :
    s.ended = false ∧ s.pool.connections.Nodup ∧
      (∀ i ∈ s.pool.connections, ∀ j ∈ s.pool.connections, (s.pool.phones i).ip = (s.pool.phones j).ip → i = j) ∧
      (∀ i ∈ s.pool.connections, i < s.pool.accepted ∧ ¬ s.pool.Replaced i) ∧
      (∀ i < s.pool.accepted, s.pool.status (s.pool.phones i).ip = statusOffline ↔
        ∀ j ∈ s.pool.connections, (s.pool.phones j).ip ≠ (s.pool.phones i).ip) ∧
      ∀ i s', s.pool.Replaced i → step noReset debug s (.handleRead i) = some s' →
        s'.ended = false ∧ s'.pool.connections = s.pool.connections ∧ s'.pool.devicesPro = s.pool.devicesPro := by
  obtain ⟨hended, hinv⟩ := reached_inv (Trans.Reach.of_run hrun)
  have hlast : ∀ i ∈ s.pool.connections, ¬ s.pool.Replaced i := by
    rintro i hi ⟨j, hj, hij, hip⟩
    exact absurd (hinv.last i hi j hj hip) (Nat.not_le.mpr hij)
  refine ⟨hended, hinv.nodup, fun i hi j hj hip => hinv.eq_of_ip hi hj hip, ?_, hinv.offline, ?_⟩
  · exact fun i hi => ⟨hinv.bound i hi, hlast i hi⟩
  · exact fun i s' hreplaced hs => handleRead_stale hinv (fun hi => hlast i hi hreplaced) hs

/-! ### With resets -/

/-- After the handler of a read error: the connection is out of the set, its
socket is closed and its ip is OFFLINE. -/
def Pool.Gone (s s' : Pool) : Event → Prop
  | .handleRead i => (s.phones i).read = .done .error →
    i ∉ s'.connections ∧ ¬ (s'.phones i).isOpen ∧ s'.status (s.phones i).ip = statusOffline
  | _ => True

/-- The read error of a connection that is out of the set comes when the set has
no other of its ip. -/
def Pool.NoneElse (s : Pool) : Event → Prop
  | .handleRead i => (s.phones i).read = .done .error → i ∉ s.connections →
    ∀ j ∈ s.connections, (s.phones j).ip ≠ (s.phones i).ip
  | _ => True

instance (s : Pool) : ∀ e, Decidable (s.NoneElse e)
  | .handleRead _ => inferInstanceAs (Decidable (_ → _ → ∀ j ∈ s.connections, _))
  | .accept _ _ | .complete _ _ | .stopAll | .find _ => isTrue trivial

/-- The handler returns, and a disconnect is recorded. -/
def Absorbed (reset : ℕ → ℕ → Bool) (debug : Bool) (s : Io) (e : Event) : Prop :=
  ∀ s', step reset debug s e = some s' → s'.ended = false ∧ s.pool.Gone s'.pool e

/-- All that the event asks answer, and no late error comes after a reconnect. -/
def Answering (reset : ℕ → ℕ → Bool) (debug : Bool) (s : Io) (e : Event) : Prop :=
  s.Answered reset debug e ∧ s.pool.NoneElse e

instance : Decidable (Answering reset debug s e) := inferInstanceAs (Decidable (_ ∧ _))

theorem gone_after_iff (h : s.pool.Inv) (hs : step reset debug s e = some s') :
    s.pool.Gone (s.pool.after e) e ↔ s.pool.NoneElse e := by
  cases e with
  | handleRead i =>
    refine forall_congr' fun hr => ?_
    have hi := h.reads i (step_pending hs)
    have hsuccess : (s.pool.phones i).read ≠ .done .success := by simp [hr]
    rw [Pool.after, if_neg hsuccess]
    by_cases hmem : i ∈ s.pool.connections
    · have hinv := h.setRead .none hi
      rw [if_pos ⟨hr, (h.isOpen i).mpr hmem⟩, hinv.mem_stopped, Pool.isOpen_stopped, Pool.status_stopped, Pool.ip_setRead]
      simp [hmem]
    · have hclosed : ¬ (s.pool.phones i).isOpen := fun hopen => hmem ((h.isOpen i).mp hopen)
      rw [if_neg fun hf : s.pool.Fails i => hclosed hf.2, Pool.isOpen_setRead, Pool.status_setRead, h.offline i hi]
      simp [hmem, hclosed]
  | _ => exact Iff.rfl

theorem absorbed_iff_answering (h : s.pool.Inv) (hs : step reset debug s e = some s') :
    Absorbed reset debug s e ↔ Answering reset debug s e := by
  have hran := step_ran h hs
  by_cases hanswered : s.Answered reset debug e
  · have hs' := hran.ok hanswered
    constructor
    · intro habsorbed
      have hgone := (habsorbed s' hs).2
      rw [hs'] at hgone
      exact ⟨hanswered, (gone_after_iff h hs).mp hgone⟩
    · intro hanswering t ht
      obtain rfl : s' = t := Option.some.inj (hs.symm.trans ht)
      rw [hs']
      exact ⟨rfl, (gone_after_iff h hs).mpr hanswering.2⟩
  · have hended := hran.error hanswered
    constructor
    · intro habsorbed
      rw [(habsorbed s' hs).1] at hended
      cases hended
    · exact fun hanswering => absurd hanswering.1 hanswered

/-- A phone that has reset, and whose read error comes to its handler, ends the process. -/
theorem ended_of_reset {i : ℕ} (h : s.pool.Inv) (hfails : s.pool.Fails i) (hreset : reset i s.asked)
    (hs : step reset debug s (.handleRead i) = some s') : s'.ended = true := by
  apply (step_ran h hs).error
  have hasks : s.pool.asks debug (.handleRead i) = printed debug i ++ [i] := if_pos hfails
  rw [hasks]
  cases debug with
  | true => simp [printed, answered, answers, hreset]
  | false => simp [printed, answered, answers, hreset]

theorem inv_of_step (h : s.ended = true ∨ s.pool.Inv) (hs : step reset debug s e = some s') : s.pool.Inv := by
  refine h.resolve_left fun hended => ?_
  rw [(step_cases hs).1] at hended
  cases hended

/-- **When disconnects are absorbed.** In a run every handler returns and records
what is disconnected, exactly if at each event all that it asks for their ip
have not reset, and no read error comes after its phone has connected again. -/
theorem absorbed_along_iff {devicesPro : Table Ip Int32} {es : List Event}
    (hrun : Trans.run (step reset debug) (.init devicesPro) es = some s) :
    Trans.Along (step reset debug) (Absorbed reset debug) (.init devicesPro) es ↔
      Trans.Along (step reset debug) (Answering reset debug) (.init devicesPro) es := by
  have hinit : (Io.init devicesPro).ended = true ∨ (Io.init devicesPro).pool.Inv := Or.inr (Pool.inv_init devicesPro)
  constructor
  · intro habsorbed
    refine Trans.along_of_invariant (I := fun s => s.ended = true ∨ s.pool.Inv) ?_ hinit habsorbed hrun
    intro s e s' h hs' hs
    have hinv := inv_of_step h hs
    exact ⟨step_inv hinv hs, (absorbed_iff_answering hinv hs).mp hs'⟩
  · intro hanswering
    refine Trans.along_of_invariant (I := fun s => s.ended = true ∨ s.pool.Inv) ?_ hinit hanswering hrun
    intro s e s' h hs' hs
    have hinv := inv_of_step h hs
    exact ⟨step_inv hinv hs, (absorbed_iff_answering hinv hs).mpr hs'⟩

end Step

/-! ### Two runs -/

/-- The ip of a phone. -/
def somePhone : Ip := ⟨Str.of "10.0.0.7", by decide, Ip.chars_of_all (by decide)⟩

/-- A phone connects again while a read of its old connection is done; then that
read and the next one of the closed socket come to their handlers. -/
def reconnect : List Event :=
  [.accept somePhone 0, .complete 0 .success, .accept somePhone 1, .handleRead 0, .complete 0 .error, .handleRead 0]

theorem connections_current_reconnect :
    ∃ s, Trans.run (step noReset true) (.init fun _ => none) reconnect = some s ∧
      s.pool.connections = [1] ∧ s.ended = false ∧
      ∀ i ∈ s.pool.connections, i < s.pool.accepted ∧ ¬ s.pool.Replaced i := by
  have hsome : (Trans.run (step noReset true) (.init fun _ => none) reconnect).isSome := by decide +kernel
  have hrun := (Option.some_get hsome).symm
  have hall := connections_current hrun
  exact ⟨_, hrun, rfl, hall.1, hall.2.2.2.1⟩

/-- The phone that connects first resets after it has been taken in. -/
def resetsLater (i n : ℕ) : Bool := i = 0 && 3 ≤ n

/-- It connects, and its read ends with an error. -/
def disconnect : List Event := [.accept somePhone 0, .complete 0 .error, .handleRead 0]

theorem absorbed_along_iff_disconnect :
    Trans.Along (step noReset true) (Absorbed noReset true) (.init fun _ => none) disconnect := by
  have hsome : (Trans.run (step noReset true) (.init fun _ => none) disconnect).isSome := by decide +kernel
  refine (absorbed_along_iff (Option.some_get hsome).symm).mpr ?_
  decide +kernel

theorem reset_not_absorbed :
    ¬ Trans.Along (step resetsLater true) (Absorbed resetsLater true) (.init fun _ => none) disconnect := by
  intro h
  have h₁ := ((Trans.along_cons rfl).mp h).2
  have h₂ := ((Trans.along_cons rfl).mp h₁).2
  have h₃ := ((Trans.along_cons rfl).mp h₂).1
  exact absurd (h₃ _ rfl).1 (by decide +kernel)

end PhonePool

end ScheduleCenter
