/-
# The link to the scheduler

`sche_conn_pool` takes one connection and refuses all others while it has it:
`start` closes the socket of a newcomer before anything is read from it. The
connection goes when one of its reads fails, or with `handle_stop`. So there is
never more than one open socket, payloads of two connections do not alternate,
and the last reader is the only one that `on_read` hears (`payloads_in_blocks`).
A connection that stays silent is kept for good, and every other one is refused
meanwhile (`kept_silent`).

A request for a result is answered on the same socket with a length and the
text, by one `write_some`, whose count is not looked at. The scheduler gets the
texts it has asked for, in order, if and only if each of these writes took the
whole frame (`replies_iff`).

Not modelled: `_DEBUG_PRINTF`, and how the bytes of a read become a payload.

Key definitions: `ScheduleLink.State`, `ScheduleLink.step`, `StepCase`, `ScheduleLink.Inv`, `lenHeader`.
Key theorems: `ScheduleLink.step_cases`, `inv_step`, `payloads_in_blocks`, `kept_silent`, `replies_iff`.
-/
import ScheduleCenter.TaskText
import ScheduleCenter.ReceivedBytes
import ScheduleCenter.Base.Prefixed
import ScheduleCenter.Base.Trans

namespace ScheduleCenter
namespace ScheduleLink

/-- What a read completes with: a payload for `on_read`, `operation_aborted` or
another error. -/
inductive ReadResult
  | data (d : Str)
  | aborted
  | error
deriving DecidableEq

/-- The read of a connection: none, one under way, or one that is done and
whose handler is queued. -/
inductive ReadOp
  | none
  | waiting
  | done (r : ReadResult)
deriving DecidableEq

/-- A `schedule_connection`: whether its socket is open, its read, and the bytes
written to the socket. -/
structure Conn where
  isOpen : Bool
  read : ReadOp
  written : Str

/-- A new object. -/
def Conn.new : Conn := ⟨false, .none, []⟩

/-- `io_service_` runs; `handle_stop` has stopped it; an exception has ended it. -/
inductive Phase
  | running | stopped | ended
deriving DecidableEq

/-- The connections in the order in which they were accepted; `connections_`; and
whether `schedule_acceptor_` is open. -/
structure State where
  phase : Phase
  listening : Bool
  accepted : ℕ
  conns : ℕ → Conn
  connections : List ℕ

def start : State := ⟨.running, true, 0, fun _ => .new, []⟩

namespace State

def set (s : State) (i : ℕ) (c : Conn) : State := { s with conns := Function.update s.conns i c }

def setRead (s : State) (i : ℕ) (r : ReadOp) : State := s.set i { s.conns i with read := r }

/-- `socket_.close()`: the read under way is aborted. -/
def close (s : State) (i : ℕ) : State :=
  s.set i { s.conns i with
    isOpen := false, read := if (s.conns i).read = .waiting then .done .aborted else (s.conns i).read }

/-- `schedule_connection::start`: an `async_read_some`. -/
def startConn (s : State) (i : ℕ) : State := s.setRead i .waiting

/-- `schedule_connection::stop`. -/
def stopConn (s : State) (i : ℕ) : State := if (s.conns i).isOpen then s.close i else s

/-- `sche_conn_pool::stop`. -/
def poolStop (s : State) (i : ℕ) : State := { s with connections := s.connections.erase i }.stopConn i

/-- `sche_conn_pool::start`. -/
def poolStart (s : State) (i : ℕ) : State :=
  if s.connections.length > 0 then s.poolStop i
  else { s.startConn i with connections := i :: s.connections }

/-- `sche_conn_pool::stop_all`. -/
def poolStopAll (s : State) : State := { s.connections.foldl stopConn s with connections := [] }

/-- The next object has got a socket. -/
def accept (s : State) : State :=
  { s with accepted := s.accepted + 1, conns := Function.update s.conns s.accepted ⟨true, .none, []⟩ }

/-- `main_task::handle_schedule_accept`, with or without an error. -/
def handleScheduleAccept (s : State) (ok : Bool) : State :=
  if !s.listening then s else if ok then s.accept.poolStart s.accepted else s

/-- `main_task::handle_stop`, without the phones. -/
def handleStop (s : State) : State := { { s with listening := false }.poolStopAll with phase := .stopped }

end State

/-! ### Replies -/

/-- `int len` before the text. -/
def lenHeader : Prefixed.Header UInt8 where
  width := 4
  write n := leBytes (BitVec.ofNat 32 n)
  read b := (leInt b).toNat
  limit := 2 ^ 31
  width_pos := by decide
  length_write _ := rfl
  read_write n hn := by
    have h := leInt_leBytes (BitVec.ofNat 32 n) []
    rw [List.append_nil] at h
    rw [h, BitVec.toNat_ofNat, Nat.mod_eq_of_lt (by omega)]
  read_append b c h := by
    rw [← leInt_take (b ++ c), List.take_append_of_le_length h, leInt_take]

/-- The buffer of a reply: `new` throws if `len + 4` is no size. -/
def replyBuffer (ret : Str) : Option Str :=
  if ret.length + 4 < 2 ^ 31 then some (lenHeader.frame ret) else none

/-! ### The io thread -/

/-- What happens: the handler of an accept runs; a read gets a payload or fails;
the handler of a read runs, where `ret` is what `get_result` finds and `count`
what `write_some` returns, if it does not throw; a signal to stop. -/
inductive Event
  | accept (ok : Bool)
  | complete (i : ℕ) (r : ReadResult)
  | handleRead (i : ℕ) (ret : Str) (count : Option ℕ)
  | stop

variable (readJson : ReadJson)

/-- The end of `CMD_SCHE_WX_GET_RESULT`: `none` if `write_some` cannot have
returned this. -/
def State.answer (s : State) (i : ℕ) (ret : Str) (count : Option ℕ) : Option State :=
  match replyBuffer ret, count with
  | some buf, some n =>
    if 0 < n ∧ n ≤ buf.length then
      some (s.set i { s.conns i with read := .waiting, written := (s.conns i).written ++ buf.take n })
    else none
  | _, _ => some { s with phase := .ended }

/-- `schedule_connection::handle_read`, with `on_read`. -/
def State.handleRead (s : State) (i : ℕ) (r : ReadResult) (ret : Str) (count : Option ℕ) : Option State :=
  match r with
  | .data d =>
    match ScheduleConnection.onRead readJson d with
    | .error _ => some { s with phase := .ended }
    | .ok (.getResult _) => s.answer i ret count
    | .ok _ => some (s.setRead i .waiting)
  | .aborted => some s
  | .error => some (if (s.conns i).isOpen then s.poolStop i else s)

def step (s : State) (e : Event) : Option State :=
  if s.phase ≠ .running then none
  else match e with
  | .accept ok => some (s.handleScheduleAccept ok)
  | .complete i r => if (s.conns i).read = .waiting ∧ r ≠ .aborted then some (s.setRead i (.done r)) else none
  | .handleRead i ret count =>
    match (s.conns i).read with
    | .done r => (s.setRead i .none).handleRead readJson i r ret count
    | _ => none
  | .stop => some s.handleStop

/-- The payload that `on_read` gets at a step, and from whom. -/
def heard (s : State) : Event → List (ℕ × Str)
  | .handleRead i _ _ =>
    match (s.conns i).read with
    | .done (.data d) => [(i, d)]
    | _ => []
  | _ => []

/-- The connection that `sche_conn_pool::start` refuses at a step. -/
def refused (s : State) : Event → List ℕ
  | .accept true => if s.listening = true ∧ s.connections.length > 0 then [s.accepted] else []
  | _ => []

/-- The text with which connection `i` is answered at a step, and how many bytes
of the frame are written. -/
def answered (i : ℕ) (s : State) : Event → List (Str × ℕ)
  | .handleRead j ret (some n) =>
    match (s.conns j).read with
    | .done (.data d) =>
      match ScheduleConnection.onRead readJson d with
      | .ok (.getResult _) => if j = i ∧ ret.length + 4 < 2 ^ 31 then [(ret, n)] else []
      | _ => []
    | _ => []
  | _ => []

/-! ### What a step can do -/

@[simp]
theorem State.conns_set (s : State) (i j : ℕ) (c : Conn) :
    (s.set i c).conns j = if j = i then c else s.conns j := by
  simp [State.set, Function.update_apply]

@[simp]
theorem State.conns_setRead (s : State) (i j : ℕ) (r : ReadOp) :
    (s.setRead i r).conns j = if j = i then { s.conns i with read := r } else s.conns j := by
  simp [State.setRead]

@[simp]
theorem State.written_setRead (s : State) (i j : ℕ) (r : ReadOp) :
    ((s.setRead i r).conns j).written = (s.conns j).written := by
  rw [conns_setRead]
  split
  · subst_vars
    rfl
  · rfl

@[simp]
theorem State.written_stopConn (s : State) (i j : ℕ) : ((s.stopConn i).conns j).written = (s.conns j).written := by
  unfold stopConn
  split
  · unfold close
    rw [conns_set]
    split
    · subst_vars
      rfl
    · rfl
  · rfl

/-- A connection that is stopped is closed, and is no longer in the pool. -/
theorem State.conns_poolStop (s : State) (i j : ℕ) (hr : (s.conns i).read = .none) :
    (s.poolStop i).conns j = if j = i then { s.conns i with isOpen := false } else s.conns j := by
  unfold poolStop stopConn
  split
  · simp [close, State.set, Function.update_apply, hr]
  · rename_i h
    split
    · subst_vars
      rw [← (by simpa using h : (s.conns j).isOpen = false)]
    · rfl

@[simp]
theorem State.connections_poolStop (s : State) (i : ℕ) : (s.poolStop i).connections = s.connections.erase i := by
  unfold poolStop stopConn
  split <;> rfl

@[simp]
theorem State.rest_poolStop (s : State) (i : ℕ) :
    (s.poolStop i).phase = s.phase ∧ (s.poolStop i).accepted = s.accepted := by
  unfold poolStop stopConn
  split <;> exact ⟨rfl, rfl⟩

/-- A step, case by case. -/
inductive StepCase (s : State) : Event → State → Prop
  | noAccept {ok : Bool} : StepCase s (.accept ok) s
  | refuse (h : s.connections ≠ []) : StepCase s (.accept true) (s.accept.poolStop s.accepted)
  | take (h : s.connections = []) :
      StepCase s (.accept true) { s.accept.startConn s.accepted with connections := [s.accepted] }
  | complete {i : ℕ} {r : ReadResult} (hw : (s.conns i).read = .waiting) (hr : r ≠ .aborted) :
      StepCase s (.complete i r) (s.setRead i (.done r))
  | throws {i : ℕ} {ret : Str} {count : Option ℕ}
      (hno : ∀ j, answered readJson j s (.handleRead i ret count) = []) :
      StepCase s (.handleRead i ret count) { s.setRead i .none with phase := .ended }
  | answer {i n : ℕ} {id : Int} {ret d : Str} (hd : (s.conns i).read = .done (.data d))
      (hcall : ScheduleConnection.onRead readJson d = .ok (.getResult id)) (hret : ret.length + 4 < 2 ^ 31)
      (hn : n ≤ lenHeader.size ret) :
      StepCase s (.handleRead i ret (some n)) ((s.setRead i .none).set i { s.conns i with
        read := .waiting, written := (s.conns i).written ++ (lenHeader.frame ret).take n })
  | readOn {i : ℕ} {ret d : Str} {count : Option ℕ} (hd : (s.conns i).read = .done (.data d))
      (hcall : ∀ id, ScheduleConnection.onRead readJson d ≠ .ok (.getResult id)) :
      StepCase s (.handleRead i ret count) ((s.setRead i .none).setRead i .waiting)
  | drop {i : ℕ} {r : ReadResult} {ret : Str} {count : Option ℕ} (hd : (s.conns i).read = .done r)
      (h : r = .aborted ∨ (s.conns i).isOpen = false) :
      StepCase s (.handleRead i ret count) (s.setRead i .none)
  | fail {i : ℕ} {ret : Str} {count : Option ℕ} (hd : (s.conns i).read = .done .error) :
      StepCase s (.handleRead i ret count) ((s.setRead i .none).poolStop i)
  | stop : StepCase s .stop s.handleStop

variable {readJson} {s s' : State} {e : Event}

theorem handleScheduleAccept_cases (s : State) (ok : Bool) :
    StepCase readJson s (.accept ok) (s.handleScheduleAccept ok) := by
  unfold State.handleScheduleAccept
  split
  · exact .noAccept
  · cases ok with
    | false => exact .noAccept
    | true =>
      unfold State.poolStart
      by_cases h : s.connections = []
      · have hlen : ¬ s.accept.connections.length > 0 := by simp [State.accept, h]
        rw [if_pos rfl, if_neg hlen, show s.accept.connections = [] from h]
        exact .take h
      · have hlen : s.accept.connections.length > 0 := List.length_pos_iff.mpr h
        rw [if_pos rfl, if_pos hlen]
        exact .refuse h

theorem answer_cases {i : ℕ} {id : Int} {ret d : Str} {count : Option ℕ} (hd : (s.conns i).read = .done (.data d))
    (hcall : ScheduleConnection.onRead readJson d = .ok (.getResult id))
    (h : (s.setRead i .none).answer i ret count = some s') : StepCase readJson s (.handleRead i ret count) s' := by
  unfold State.answer replyBuffer at h
  by_cases hret : ret.length + 4 < 2 ^ 31
  · rw [if_pos hret] at h
    cases count with
    | none =>
      cases h
      exact .throws fun _ => rfl
    | some n =>
      simp only at h
      split at h
      · rename_i hn
        cases h
        have hle : n ≤ lenHeader.size ret := by rw [← lenHeader.length_frame]; exact hn.2
        have hcase := StepCase.answer hd hcall hret hle
        simpa using hcase
      · cases h
  · rw [if_neg hret] at h
    cases h
    refine .throws fun j => ?_
    cases count with
    | none => rfl
    | some n => simp only [answered, hd, hcall, hret, and_false, if_false]

theorem handleRead_cases {i : ℕ} {r : ReadResult} {ret : Str} {count : Option ℕ} (hr : (s.conns i).read = .done r)
    (h : (s.setRead i .none).handleRead readJson i r ret count = some s') :
    StepCase readJson s (.handleRead i ret count) s' := by
  cases r with
  | data d =>
    simp only [State.handleRead] at h
    cases hcall : ScheduleConnection.onRead readJson d with
    | error x =>
      rw [hcall] at h
      cases h
      refine .throws fun j => ?_
      cases count with
      | none => rfl
      | some n => simp [answered, hr, hcall]
    | ok call =>
      rw [hcall] at h
      cases call with
      | getResult id => exact answer_cases hr hcall h
      | nothing =>
        cases h
        exact .readOn hr (by simp [hcall])
      | addTask ti =>
        cases h
        exact .readOn hr (by simp [hcall])
  | aborted =>
    cases h
    exact .drop hr (Or.inl rfl)
  | error =>
    cases h
    split
    · exact .fail hr
    · rename_i hopen
      exact .drop hr (Or.inr (by simpa using hopen))

theorem step_cases (h : step readJson s e = some s') : s.phase = .running ∧ StepCase readJson s e s' := by
  unfold step at h
  split at h
  · cases h
  rename_i hphase
  refine ⟨by simpa using hphase, ?_⟩
  cases e with
  | accept ok =>
    cases h
    exact handleScheduleAccept_cases s ok
  | complete i r =>
    simp only at h
    split at h
    · rename_i hg
      cases h
      exact .complete hg.1 hg.2
    · cases h
  | handleRead i ret count =>
    simp only at h
    split at h
    · exact handleRead_cases ‹_› h
    · cases h
  | stop =>
    cases h
    exact .stop

/-! ### One connection -/

/-- The pool has one connection at most. Its socket is open and it reads; no
other socket is open, and nothing is read from it. -/
structure Inv (s : State) : Prop where
  one : s.connections.length ≤ 1
  known : ∀ i ∈ s.connections, i < s.accepted
  live : ∀ i ∈ s.connections,
    (s.conns i).isOpen = true ∧ (s.conns i).read ≠ .none ∧ (s.conns i).read ≠ .done .aborted
  gone : ∀ i, i ∉ s.connections → (s.conns i).isOpen = false ∧ (s.conns i).read = .none

theorem inv_start : Inv start where
  one := by simp [start]
  known := by simp [start]
  live := by simp [start]
  gone _ _ := ⟨rfl, rfl⟩

theorem Inv.eq_singleton (h : Inv s) {i : ℕ} (hi : i ∈ s.connections) : s.connections = [i] := by
  obtain ⟨j, hj⟩ := List.length_eq_one_iff.mp (le_antisymm h.one (List.length_pos_of_mem hi))
  rw [hj] at hi ⊢
  rw [List.mem_singleton.mp hi]

/-- Who reads is in the pool. -/
theorem Inv.mem_of_read (h : Inv s) {i : ℕ} {r : ReadOp} (hr : (s.conns i).read = r) (hne : r ≠ .none) :
    i ∈ s.connections := by
  by_contra hi
  exact hne (hr.symm.trans (h.gone i hi).2)

/-- The read of a connection in the pool goes on. -/
theorem Inv.of_read (h : Inv s) {i : ℕ} {c : Conn} (hi : i ∈ s.connections) (ho : c.isOpen = true)
    (hr : c.read ≠ .none ∧ c.read ≠ .done .aborted) (hconn : s'.connections = s.connections)
    (hacc : s'.accepted = s.accepted) (hconns : ∀ j, s'.conns j = if j = i then c else s.conns j) : Inv s' where
  one := by rw [hconn]; exact h.one
  known j hj := by rw [hacc]; rw [hconn] at hj; exact h.known j hj
  live j hj := by
    rw [hconn] at hj
    rw [hconns]
    split
    · exact ⟨ho, hr⟩
    · exact h.live j hj
  gone j hj := by
    rw [hconn] at hj
    rw [hconns, if_neg (by rintro rfl; exact hj hi)]
    exact h.gone j hj

theorem inv_step (h : Inv s) (hs : step readJson s e = some s') (hrun : s'.phase = .running) : Inv s' := by
  cases (step_cases hs).2
  case noAccept => exact h
  case refuse hne =>
    have hnew : s.accepted ∉ s.connections := fun hi => absurd (h.known _ hi) (lt_irrefl _)
    have hconn : (s.accept.poolStop s.accepted).connections = s.connections := by
      rw [State.connections_poolStop]
      exact List.erase_of_not_mem hnew
    have hread : (s.accept.conns s.accepted).read = .none := by simp [State.accept]
    have hconns : ∀ j, (s.accept.poolStop s.accepted).conns j =
        if j = s.accepted then ⟨false, .none, []⟩ else s.conns j := by
      intro j
      rw [State.conns_poolStop _ _ _ hread]
      simp only [State.accept, Function.update_apply, if_true]
      split <;> rfl
    refine ⟨by rw [hconn]; exact h.one, fun j hj => ?_, fun j hj => ?_, fun j hj => ?_⟩
    · rw [hconn] at hj
      rw [(State.rest_poolStop _ _).2]
      exact Nat.lt_succ_of_lt (h.known j hj)
    · rw [hconn] at hj
      rw [hconns, if_neg (by rintro rfl; exact hnew hj)]
      exact h.live j hj
    · rw [hconn] at hj
      rw [hconns]
      split
      · exact ⟨rfl, rfl⟩
      · exact h.gone j hj
  case take he =>
    have hconns : ∀ j, (s.accept.startConn s.accepted).conns j =
        if j = s.accepted then ⟨true, .waiting, []⟩ else s.conns j := by
      intro j
      simp only [State.startConn, State.conns_setRead, State.accept, Function.update_apply, if_true]
      split <;> rfl
    refine ⟨le_refl _, fun j hj => ?_, fun j hj => ?_, fun j hj => ?_⟩
    · rw [List.mem_singleton.mp hj]
      exact Nat.lt_succ_self _
    · rw [List.mem_singleton.mp hj]
      show ((s.accept.startConn s.accepted).conns s.accepted).isOpen = true ∧ _
      rw [hconns, if_pos rfl]
      exact ⟨rfl, by simp, by simp⟩
    · show ((s.accept.startConn s.accepted).conns j).isOpen = false ∧ _
      rw [hconns, if_neg (by simpa using hj)]
      exact h.gone j (by simp [he])
  case complete i r hw hr =>
    have hi := h.mem_of_read hw (by simp)
    exact h.of_read hi (c := { s.conns i with read := .done r }) (h.live i hi).1
      ⟨by simp, by simpa using hr⟩ rfl rfl fun j => State.conns_setRead s i j _
  case throws => cases hrun
  case answer i n id ret d hd hcall hret hn =>
    have hi := h.mem_of_read hd (by simp)
    refine h.of_read hi (c := { s.conns i with
      read := .waiting, written := (s.conns i).written ++ (lenHeader.frame ret).take n })
      (h.live i hi).1 ⟨by simp, by simp⟩ rfl rfl fun j => ?_
    rw [State.conns_set, State.conns_setRead]
    split <;> rfl
  case readOn i ret d count hd hcall =>
    have hi := h.mem_of_read hd (by simp)
    refine h.of_read hi (c := { s.conns i with read := .waiting }) (h.live i hi).1 ⟨by simp, by simp⟩ rfl rfl
      fun j => ?_
    simp only [State.conns_setRead, if_true]
    split <;> rfl
  case drop i r ret count hd hdrop =>
    -- who reads has an open socket, and its read is not aborted
    have hi := h.mem_of_read hd (by simp)
    rcases hdrop with rfl | hclosed
    · exact absurd hd (h.live i hi).2.2
    · rw [(h.live i hi).1] at hclosed
      cases hclosed
  case fail i ret count hd =>
    have hi := h.mem_of_read hd (by simp)
    have hconn : ((s.setRead i .none).poolStop i).connections = [] := by
      rw [State.connections_poolStop]
      show s.connections.erase i = []
      rw [h.eq_singleton hi]
      simp
    have hconns : ∀ j, ((s.setRead i .none).poolStop i).conns j =
        if j = i then { s.conns i with isOpen := false, read := .none } else s.conns j := by
      intro j
      rw [State.conns_poolStop _ _ _ (by simp)]
      simp only [State.conns_setRead, if_true]
      split <;> rfl
    refine ⟨by rw [hconn]; simp, by rw [hconn]; simp, by rw [hconn]; simp, fun j _ => ?_⟩
    rw [hconns]
    split
    · exact ⟨rfl, rfl⟩
    · exact h.gone j (by rw [h.eq_singleton hi]; simpa)
  case stop => cases hrun

theorem inv_of_reach (hr : Trans.Reach (step readJson) (fun _ _ => True) start s) : s.phase = .running → Inv s :=
  hr.invariant (I := fun s => s.phase = .running → Inv s) (fun _ => inv_start)
    fun _ _ _ h _ hs hrun => inv_step (h (step_cases hs).1) hs hrun

/-- `handle_stop` leaves no socket open. -/
theorem Inv.closed_of_stop (h : Inv s) (i : ℕ) : (s.handleStop.conns i).isOpen = false := by
  have hstopped : ∀ c, (s.handleStop.conns c).isOpen = ((s.connections.foldl State.stopConn
      { s with listening := false }).conns c).isOpen := fun _ => rfl
  rw [hstopped]
  by_cases hi : i ∈ s.connections
  · rw [h.eq_singleton hi]
    simp [State.stopConn, (h.live i hi).1, State.close]
  · rcases hc : s.connections with _ | ⟨c, cs⟩
    · exact (h.gone i hi).1
    · have hmem : c ∈ s.connections := by rw [hc]; exact List.mem_cons_self
      have hsingle := h.eq_singleton hmem
      rw [hc] at hsingle hi
      obtain rfl : cs = [] := by simpa using hsingle
      have hne : i ≠ c := by simpa using hi
      have hclosed := (h.gone i (by rw [hc]; exact hi)).1
      simp only [List.foldl_cons, List.foldl_nil, State.stopConn]
      split
      · simpa [State.close, hne] using hclosed
      · exact hclosed

/-! ### Whom `on_read` hears -/

/-- What has been heard so far: in blocks, none of them of a later connection than the
one in the pool. -/
structure Heard (s : State) (g : List (ℕ × Str)) : Prop where
  inv : s.phase = .running → Inv s
  stopped : s.phase = .stopped → ∀ i, (s.conns i).isOpen = false
  sorted : (g.map (·.1)).Pairwise (· ≤ ·)
  known : ∀ p ∈ g, p.1 < s.accepted
  current : s.phase = .running → ∀ p ∈ g, ∀ i ∈ s.connections, p.1 ≤ i

/-- A payload comes from the connection in the pool. -/
theorem Inv.connections_of_heard (h : Inv s) {p : ℕ × Str} (hp : p ∈ heard s e) : s.connections = [p.1] := by
  unfold heard at hp
  split at hp
  · split at hp
    · rw [List.mem_singleton.mp hp]
      exact h.eq_singleton (h.mem_of_read ‹_› (by simp))
    · cases hp
  · cases hp

/-- A connection comes in as the last one that was accepted, when nothing is heard. -/
theorem connections_step (hs : step readJson s e = some s') :
    s.accepted ≤ s'.accepted ∧ ∀ i ∈ s'.connections, i ∈ s.connections ∨ i = s.accepted ∧ heard s e = [] := by
  cases (step_cases hs).2
  case refuse hne =>
    refine ⟨by rw [(State.rest_poolStop _ _).2]; exact Nat.le_succ _, fun i hi => ?_⟩
    rw [State.connections_poolStop] at hi
    exact Or.inl (List.mem_of_mem_erase hi)
  case take he => exact ⟨Nat.le_succ _, fun i hi => Or.inr ⟨List.mem_singleton.mp hi, rfl⟩⟩
  case fail i ret count hd =>
    refine ⟨by rw [(State.rest_poolStop _ _).2]; exact le_refl _, fun j hj => ?_⟩
    rw [State.connections_poolStop] at hj
    exact Or.inl (List.mem_of_mem_erase hj)
  case stop =>
    refine ⟨le_of_eq ?_, fun i hi => by cases hi⟩
    show s.accepted = (s.connections.foldl State.stopConn { s with listening := false }).accepted
    have hfold : ∀ (l : List ℕ) (u : State), (l.foldl State.stopConn u).accepted = u.accepted := by
      intro l
      induction l with
      | nil => exact fun _ => rfl
      | cons c l ih =>
        intro u
        rw [List.foldl_cons, ih, State.stopConn]
        split <;> rfl
    exact (hfold s.connections { s with listening := false }).symm
  all_goals exact ⟨le_refl _, fun i hi => Or.inl hi⟩

/-- Only `handle_stop` stops. -/
theorem stop_of_stopped (hs : step readJson s e = some s') (h : s'.phase = .stopped) : s' = s.handleStop := by
  have hrun := (step_cases hs).1
  cases (step_cases hs).2
  case stop => rfl
  case throws => cases h
  case refuse =>
    rw [(State.rest_poolStop _ _).1] at h
    exact absurd (hrun.symm.trans h) (by simp)
  case fail =>
    rw [(State.rest_poolStop _ _).1] at h
    exact absurd (hrun.symm.trans h) (by simp)
  all_goals exact absurd (hrun.symm.trans h) (by simp)

theorem heard_step {g : List (ℕ × Str)} (h : Heard s g) (hs : step readJson s e = some s') :
    Heard s' (g ++ heard s e) := by
  have hrun := (step_cases hs).1
  have hinv := h.inv hrun
  obtain ⟨hle, hconn⟩ := connections_step hs
  have hfrom : ∀ q ∈ heard s e, s.connections = [q.1] := fun q hq => hinv.connections_of_heard hq
  refine ⟨inv_step hinv hs, fun hstop i => ?_, ?_, fun p hp => ?_, fun _ p hp i hi => ?_⟩
  · rw [stop_of_stopped hs hstop]
    exact hinv.closed_of_stop i
  · rw [List.map_append, List.pairwise_append]
    refine ⟨h.sorted, ?_, fun a ha b hb => ?_⟩
    · unfold heard
      split
      · split <;> simp
      · exact List.Pairwise.nil
    · obtain ⟨p, hp, rfl⟩ := List.mem_map.mp ha
      obtain ⟨q, hq, rfl⟩ := List.mem_map.mp hb
      exact h.current hrun p hp q.1 (by rw [hfrom q hq]; exact List.mem_singleton_self _)
  · rcases List.mem_append.mp hp with hp | hp
    · exact lt_of_lt_of_le (h.known p hp) hle
    · exact lt_of_lt_of_le (hinv.known p.1 (by rw [hfrom p hp]; exact List.mem_singleton_self _)) hle
  · rcases hconn i hi with hold | ⟨rfl, hnone⟩
    · rcases List.mem_append.mp hp with hp | hp
      · exact h.current hrun p hp i hold
      · rw [hfrom p hp] at hold
        exact le_of_eq (List.mem_singleton.mp hold).symm
    · rw [hnone, List.append_nil] at hp
      exact le_of_lt (h.known p hp)

/-- The connections that were refused are closed, and nothing is read from them. -/
def Refused (s : State) (g : List ℕ) : Prop :=
  ∀ i ∈ g, i < s.accepted ∧ i ∉ s.connections ∧ (s.conns i).isOpen = false ∧ (s.conns i).read = .none

/-- A step leaves the connections alone that are not in the pool. -/
theorem conns_step (h : Inv s) (hs : step readJson s e = some s') {i : ℕ} (hi : i < s.accepted)
    (hout : i ∉ s.connections) :
    i ∉ s'.connections ∧ (s'.conns i).isOpen = false ∧ (s'.conns i).read = .none := by
  obtain ⟨hclosed, hread⟩ := h.gone i hout
  refine ⟨fun hin => ?_, ?_⟩
  · rcases (connections_step hs).2 i hin with hold | ⟨rfl, -⟩
    · exact hout hold
    · exact absurd hi (lt_irrefl _)
  -- who has a read is in the pool
  have hne : ∀ {j : ℕ} {r : ReadOp}, (s.conns j).read = r → r ≠ .none → i ≠ j := by
    rintro j r hj hr rfl
    exact hr (hj.symm.trans hread)
  cases (step_cases hs).2
  case noAccept => exact ⟨hclosed, hread⟩
  case refuse =>
    rw [State.conns_poolStop _ _ _ (by simp [State.accept]), if_neg hi.ne]
    simpa [State.accept, hi.ne] using ⟨hclosed, hread⟩
  case take => simpa [State.startConn, State.accept, hi.ne] using ⟨hclosed, hread⟩
  case complete j r hw hr => simpa [hne hw (by simp)] using ⟨hclosed, hread⟩
  case throws j ret count hno =>
    show ((s.setRead j .none).conns i).isOpen = false ∧ ((s.setRead j .none).conns i).read = .none
    rw [State.conns_setRead]
    split
    · subst_vars
      exact ⟨hclosed, rfl⟩
    · exact ⟨hclosed, hread⟩
  case answer j n id ret d hd hcall hret hn => simpa [hne hd (by simp)] using ⟨hclosed, hread⟩
  case readOn j ret d count hd hcall => simpa [hne hd (by simp)] using ⟨hclosed, hread⟩
  case drop j r ret count hd hdrop => simpa [hne hd (by simp)] using ⟨hclosed, hread⟩
  case fail j ret count hd =>
    rw [State.conns_poolStop _ _ _ (by simp), if_neg (hne hd (by simp))]
    simpa [hne hd (by simp)] using ⟨hclosed, hread⟩
  case stop =>
    refine ⟨h.closed_of_stop i, ?_⟩
    show ((s.connections.foldl State.stopConn { s with listening := false }).conns i).read = .none
    have hfold : ∀ (l : List ℕ) (u : State), i ∉ l → (u.conns i).read = .none →
        ((l.foldl State.stopConn u).conns i).read = .none := by
      intro l
      induction l with
      | nil => exact fun _ _ hu => hu
      | cons c l ih =>
        intro u hic hu
        rw [List.foldl_cons]
        refine ih _ (fun hl => hic (List.mem_cons_of_mem c hl)) ?_
        have hc : i ≠ c := fun hic' => hic (hic' ▸ List.mem_cons_self)
        unfold State.stopConn
        split
        · simpa [State.close, hc] using hu
        · exact hu
    exact hfold s.connections { s with listening := false } hout hread

theorem refused_step {g : List ℕ} (h : Inv s) (hg : Refused s g) (hs : step readJson s e = some s') :
    Refused s' (g ++ refused s e) := by
  intro i hi
  rcases List.mem_append.mp hi with hi | hi
  · obtain ⟨hlt, hout, -⟩ := hg i hi
    exact ⟨lt_of_lt_of_le hlt (connections_step hs).1, conns_step h hs hlt hout⟩
  · unfold refused at hi
    split at hi
    · split at hi
      · rename_i hrefused
        rw [List.mem_singleton.mp hi]
        have hne : s.connections ≠ [] := List.length_pos_iff.mp hrefused.2
        have heq : s' = s.accept.poolStop s.accepted := by
          have hrun := (step_cases hs).1
          unfold step at hs
          rw [if_neg (by simpa using hrun)] at hs
          rw [← Option.some.inj hs, State.handleScheduleAccept, State.poolStart]
          simp [hrefused.1, State.accept, List.length_pos_iff.mpr hne]
        have hconn : s.accepted ∉ s.connections := fun hin => absurd (h.known _ hin) (lt_irrefl _)
        rw [heq]
        refine ⟨?_, ?_, ?_⟩
        · rw [(State.rest_poolStop _ _).2]
          exact Nat.lt_succ_self _
        · rw [State.connections_poolStop]
          exact fun hin => hconn (List.mem_of_mem_erase hin)
        · rw [State.conns_poolStop _ _ _ (by simp [State.accept]), if_pos rfl]
          simp [State.accept]
      · cases hi
    · cases hi

/-- **One scheduler at a time.** In every run the payloads come in blocks, one for each
connection that the pool has had, in the order in which these were accepted; each is from
the only connection in the pool; the socket of the connection in the pool is open, and no
other one is; a connection that was refused is never read; and after `handle_stop` no
socket is open. -/
theorem payloads_in_blocks {es : List Event} (hr : Trans.run (step readJson) start es = some s) :
    ((Trans.emits (step readJson) heard start es).map (·.1)).Pairwise (· ≤ ·) ∧
    Trans.Along (step readJson) (fun s e => ∀ p ∈ heard s e, s.connections = [p.1]) start es ∧
    (s.phase = .running → s.connections.length ≤ 1 ∧ ∀ i, (s.conns i).isOpen = true ↔ i ∈ s.connections) ∧
    (∀ i ∈ Trans.emits (step readJson) refused start es,
      i ∉ s.connections ∧ (s.conns i).isOpen = false ∧ (s.conns i).read = .none) ∧
    (s.phase = .stopped → ∀ i, (s.conns i).isOpen = false) := by
  have hstart : Heard start [] := ⟨fun _ => inv_start, fun h => absurd h (by simp [start]), List.Pairwise.nil,
    by simp, by simp⟩
  have hany : Trans.Along (step readJson) (fun _ _ => True) start es :=
    Trans.along_of_forall (fun _ _ => trivial) es start
  have hheard : Heard s ([] ++ Trans.emits (step readJson) heard start es) :=
    Trans.emits_invariant (fun _ _ _ _ h _ hs => heard_step h hs) hstart hany hr
  have hrefused : (s.phase = .running → Inv s) ∧ Refused s ([] ++ Trans.emits (step readJson) refused start es) :=
    Trans.emits_invariant (I := fun s g => (s.phase = .running → Inv s) ∧ Refused s g)
      (fun _ _ _ _ h _ hs => ⟨inv_step (h.1 (step_cases hs).1) hs, refused_step (h.1 (step_cases hs).1) h.2 hs⟩)
      ⟨fun _ => inv_start, fun _ hi => absurd hi List.not_mem_nil⟩ hany hr
  rw [List.nil_append] at hheard hrefused
  refine ⟨hheard.sorted, ?_, fun hrun => ⟨(hheard.inv hrun).one, fun i => ⟨fun hi => ?_, fun hi => ?_⟩⟩,
    fun i hi => (hrefused.2 i hi).2, hheard.stopped⟩
  · refine Trans.along_of_invariant (P := fun _ _ => True) (I := fun s => s.phase = .running → Inv s)
      (fun s e s' h _ hs => ?_) (fun _ => inv_start) hany hr
    have hinv := h (step_cases hs).1
    exact ⟨inv_step hinv hs, fun p hp => hinv.connections_of_heard hp⟩
  · by_contra hnot
    rw [((hheard.inv hrun).gone i hnot).1] at hi
    cases hi
  · exact ((hheard.inv hrun).live i hi).1

/-- A request for the result of a task. -/
def askResult : Str := Str.of "ask"

/-- A parser that knows this request. -/
def readAsk : ReadJson := fun s =>
  if s = askResult then
    some (.node [] [(keyTaskCmd, .node (Str.of "268435457") []), (keyTaskId, .node (Str.of "7") [])])
  else none

/-- A scheduler connects, another one is refused; the first asks twice, and the second
reply is cut. -/
def askTwice : List Event :=
  [.accept true, .accept true, .complete 0 (.data askResult), .handleRead 0 (Str.of "no") (some 6),
    .complete 0 (.data askResult), .handleRead 0 (Str.of "ok") (some 3)]

/-- The first scheduler is lost after its payload; the second was refused, and the third
comes in. -/
def askInTurn : List Event :=
  [.accept true, .accept true, .complete 0 (.data askResult), .handleRead 0 (Str.of "no") (some 6),
    .complete 0 .error, .handleRead 0 [] none, .accept true, .complete 2 (.data askResult),
    .handleRead 2 (Str.of "ok") (some 6)]

def askedInTurn : State := (Trans.run (step readAsk) start askInTurn).get (by decide +kernel)

theorem payloads_in_blocks_inTurn :
    (Trans.emits (step readAsk) heard start askInTurn).map (·.1) = [0, 2] ∧
    Trans.emits (step readAsk) refused start askInTurn = [1] ∧
    ((Trans.emits (step readAsk) heard start askInTurn).map (·.1)).Pairwise (· ≤ ·) ∧
    (askedInTurn.conns 2).isOpen = true ∧ (askedInTurn.conns 1).read = .none := by
  have hrefused : Trans.emits (step readAsk) refused start askInTurn = [1] := by decide +kernel
  have hin : 2 ∈ askedInTurn.connections := by decide +kernel
  obtain ⟨hsorted, -, hpool, hnever, -⟩ := payloads_in_blocks
    (Option.some_get (show (Trans.run (step readAsk) start askInTurn).isSome by decide +kernel)).symm
  exact ⟨by decide +kernel, hrefused, hsorted, ((hpool rfl).2 2).mpr hin,
    (hnever 1 (by rw [hrefused]; exact List.mem_singleton_self 1)).2.2⟩

/-- **A silent scheduler is kept.** While the read of the connection in the pool does not
complete and no signal comes, it stays the only one: every other connection is closed when
it comes, and `on_read` hears nobody. -/
theorem kept_silent {i : ℕ} {es : List Event} (h : Trans.Reach (step readJson) (fun _ _ => True) start s)
    (hrun : s.phase = .running) (hc : s.connections = [i]) (hw : (s.conns i).read = .waiting)
    (hes : ∀ e ∈ es, e ≠ .stop ∧ ∀ r, e ≠ .complete i r) (hr : Trans.run (step readJson) s es = some s') :
    s'.connections = [i] ∧ s'.conns i = s.conns i ∧ (∀ j, (s'.conns j).isOpen = true → j = i) ∧
      Trans.emits (step readJson) heard s es = [] := by
  have hkept := Trans.emits_invariant (f := heard) (P := fun _ e => e ≠ .stop ∧ ∀ r, e ≠ .complete i r)
    (I := fun u g => Inv u ∧ u.connections = [i] ∧ u.conns i = s.conns i ∧ g = []) ?_ (g := [])
    ⟨inv_of_reach h hrun, hc, rfl, rfl⟩ (Trans.along_of_mem hes) hr
  · obtain ⟨hinv, hconn, hsame, hnone⟩ := hkept
    refine ⟨hconn, hsame, fun j hj => ?_, hnone⟩
    by_contra hne
    rw [(hinv.gone j (by rw [hconn]; simpa using hne)).1] at hj
    cases hj
  · rintro u g e u' ⟨hinv, hconn, hsame, rfl⟩ ⟨hstop, hcomplete⟩ hs
    have hwait : (u.conns i).read = .waiting := by rw [hsame, hw]
    -- a read that is done is one of the pool's connection, which waits
    have hdone : ∀ {j : ℕ} {r : ReadResult}, (u.conns j).read ≠ .done r := by
      intro j r hj
      have hmem := hinv.mem_of_read hj (by simp)
      rw [hconn, List.mem_singleton] at hmem
      rw [hmem, hwait] at hj
      cases hj
    cases e with
    | stop => exact absurd rfl hstop
    | handleRead j ret count =>
      unfold step at hs
      split at hs
      · cases hs
      · simp only at hs
        split at hs
        · exact absurd ‹_› hdone
        · cases hs
    | complete j r =>
      cases (step_cases hs).2
      case complete hj hr' =>
        have hmem := hinv.mem_of_read hj (by simp)
        rw [hconn, List.mem_singleton] at hmem
        exact absurd (by rw [hmem]) (hcomplete r)
    | accept ok =>
      have hne : i ≠ u.accepted := (hinv.known i (by rw [hconn]; simp)).ne
      have hstays : u'.phase = .running ∧ u'.connections = [i] ∧ u'.conns i = s.conns i := by
        have hrun' := (step_cases hs).1
        cases (step_cases hs).2
        case noAccept => exact ⟨hrun', hconn, hsame⟩
        case take he =>
          rw [hconn] at he
          cases he
        case refuse =>
          refine ⟨by rw [(State.rest_poolStop _ _).1]; exact hrun', ?_, ?_⟩
          · rw [State.connections_poolStop]
            show u.connections.erase u.accepted = [i]
            rw [hconn, List.erase_of_not_mem (by simpa using hne.symm)]
          · rw [State.conns_poolStop _ _ _ (by simp [State.accept]), if_neg hne, ← hsame]
            simp [State.accept, hne]
      exact ⟨inv_step hinv hs hstays.1, hstays.2.1, hstays.2.2, rfl⟩

/-- A scheduler is connected. -/
def oneScheduler : State := (Trans.run (step readAsk) start [.accept true]).get (by decide +kernel)

theorem kept_silent_refused : ∃ s', Trans.run (step readAsk) oneScheduler [.accept true, .accept true] = some s' ∧
    s'.connections = [0] ∧ ∀ j, (s'.conns j).isOpen = true → j = 0 :=
  have h : (Trans.run (step readAsk) oneScheduler [.accept true, .accept true]).isSome := by decide +kernel
  have hone : (Trans.run (step readAsk) start [.accept true]).isSome := by decide +kernel
  have hkept := kept_silent (Trans.Reach.of_run (Option.some_get hone).symm) rfl rfl rfl (by simp)
    (Option.some_get h).symm
  ⟨_, (Option.some_get h).symm, hkept.1, hkept.2.2.1⟩

/-! ### What the scheduler gets -/

/-- What has been written to a connection so far, and the answers it is made of. -/
structure Answers (i : ℕ) (s : State) (g : List (Str × ℕ)) : Prop where
  inv : s.phase = .running → Inv s
  fresh : ∀ j, s.accepted ≤ j → (s.conns j).written = []
  written : (s.conns i).written = lenHeader.cut g
  short : ∀ w ∈ g, w.1.length < lenHeader.limit ∧ w.2 ≤ lenHeader.size w.1

/-- Each connection is written what it is answered, and nobody else is. -/
theorem written_step {i : ℕ} (hinv : Inv s) (hfresh : ∀ j, s.accepted ≤ j → (s.conns j).written = [])
    (hs : step readJson s e = some s') :
    (s'.conns i).written = (s.conns i).written ++ lenHeader.cut (answered readJson i s e) ∧
      ∀ w ∈ answered readJson i s e,
        i ∈ s.connections ∧ w.1.length < lenHeader.limit ∧ w.2 ≤ lenHeader.size w.1 := by
  -- where nothing is answered
  have hsilent : answered readJson i s e = [] → (s'.conns i).written = (s.conns i).written →
      (s'.conns i).written = (s.conns i).written ++ lenHeader.cut (answered readJson i s e) ∧
        ∀ w ∈ answered readJson i s e,
          i ∈ s.connections ∧ w.1.length < lenHeader.limit ∧ w.2 ≤ lenHeader.size w.1 := by
    intro hnone hsame
    rw [hnone, hsame]
    exact ⟨(List.append_nil _).symm, by simp⟩
  -- a new object has been written nothing
  have hnew : ((s.accept).conns i).written = (s.conns i).written := by
    simp only [State.accept, Function.update_apply]
    split
    · exact (hfresh i (by omega)).symm
    · rfl
  cases (step_cases hs).2
  case noAccept => exact hsilent rfl rfl
  case refuse => exact hsilent rfl (by rw [State.poolStop, State.written_stopConn]; exact hnew)
  case take => exact hsilent rfl (by rw [← hnew]; exact State.written_setRead _ _ _ _)
  case complete j r hw hr => exact hsilent rfl (State.written_setRead _ _ _ _)
  case throws j ret count hno => exact hsilent (hno i) (State.written_setRead _ _ _ _)
  case answer j n id ret d hd hcall hret hn =>
    have hans : answered readJson i s (.handleRead j ret (some n)) = if j = i then [(ret, n)] else [] := by
      simp only [answered, hd, hcall, hret, and_true]
    rw [hans, State.conns_set]
    by_cases hji : j = i
    · subst hji
      rw [if_pos rfl, if_pos rfl]
      refine ⟨by simp [Prefixed.Header.cut], fun w hw => ?_⟩
      rw [List.mem_singleton.mp hw]
      exact ⟨hinv.mem_of_read hd (by simp), by show ret.length < 2 ^ 31; omega, hn⟩
    · rw [if_neg hji, if_neg (Ne.symm hji), State.written_setRead]
      exact ⟨(List.append_nil _).symm, by simp⟩
  case readOn j ret d count hd hcall =>
    refine hsilent ?_ (by rw [State.written_setRead, State.written_setRead])
    cases count with
    | none => rfl
    | some n =>
      simp only [answered, hd]
  case drop j r ret count hd hdrop =>
    refine hsilent ?_ (State.written_setRead _ _ _ _)
    have hj := hinv.live j (hinv.mem_of_read hd (by simp))
    rcases hdrop with rfl | hclosed
    · exact absurd hd hj.2.2
    · rw [hj.1] at hclosed
      cases hclosed
  case fail j ret count hd =>
    refine hsilent ?_ (by rw [State.poolStop, State.written_stopConn]; exact State.written_setRead _ _ _ _)
    cases count with
    | none => rfl
    | some n => simp [answered, hd]
  case stop =>
    refine hsilent rfl ?_
    have hfold : ∀ (l : List ℕ) (u : State), ((l.foldl State.stopConn u).conns i).written = (u.conns i).written := by
      intro l
      induction l with
      | nil => exact fun _ => rfl
      | cons c l ih =>
        intro u
        rw [List.foldl_cons, ih, State.written_stopConn]
    exact hfold s.connections { s with listening := false }

theorem answers_step {i : ℕ} {g : List (Str × ℕ)} (h : Answers i s g) (hs : step readJson s e = some s') :
    Answers i s' (g ++ answered readJson i s e) := by
  have hinv := h.inv (step_cases hs).1
  obtain ⟨hwritten, hshort⟩ := written_step (i := i) hinv h.fresh hs
  refine ⟨inv_step hinv hs, fun j hj => ?_, ?_, fun w hw => ?_⟩
  · obtain ⟨hw, hin⟩ := written_step (i := j) hinv h.fresh hs
    have hle : s.accepted ≤ j := le_trans (connections_step hs).1 hj
    have hnone : answered readJson j s e = [] := by
      refine List.eq_nil_iff_forall_not_mem.mpr fun w hw => ?_
      exact absurd (hinv.known j (hin w hw).1) (by omega)
    rw [hw, h.fresh j hle, hnone]
    rfl
  · rw [hwritten, h.written, Prefixed.Header.cut_append]
  · rcases List.mem_append.mp hw with hw | hw
    · exact h.short w hw
    · exact (hshort w hw).2

/-- **The scheduler gets the texts it has asked for, in order, if and only if each write
took the whole frame.** Then it has a prefix of them wherever the bytes are cut on their
way. -/
theorem replies_iff (i : ℕ) {es : List Event} (hr : Trans.run (step readJson) start es = some s) :
    ((lenHeader.parse (s.conns i).written).1 =
        (Trans.emits (step readJson) (answered readJson i) start es).map (·.1) ↔
      ∀ w ∈ Trans.emits (step readJson) (answered readJson i) start es, w.2 = lenHeader.size w.1) ∧
    ((∀ w ∈ Trans.emits (step readJson) (answered readJson i) start es, w.2 = lenHeader.size w.1) →
      ∀ k, (lenHeader.parse ((s.conns i).written.take k)).1 <+:
        (Trans.emits (step readJson) (answered readJson i) start es).map (·.1)) := by
  have hstart : Answers i start [] := ⟨fun _ => inv_start, fun _ _ => rfl, rfl, by simp⟩
  have h : Answers i s ([] ++ Trans.emits (step readJson) (answered readJson i) start es) :=
    Trans.emits_invariant (fun _ _ _ _ h _ hs => answers_step h hs) hstart
      (Trans.along_of_forall (fun _ _ => trivial) es start) hr
  rw [List.nil_append] at h
  have hlimit := fun w hw => (h.short w hw).1
  refine ⟨?_, fun hwhole k => ?_⟩
  · rw [h.written]
    exact lenHeader.parse_cut_iff hlimit fun w hw => (h.short w hw).2
  · rw [h.written, lenHeader.cut_eq_stream hwhole]
    refine lenHeader.parse_take (fun m hm => ?_) k
    obtain ⟨w, hw, rfl⟩ := List.mem_map.mp hm
    exact hlimit w hw

/-- The second reply was cut, so the two are not what the scheduler gets. -/
theorem replies_iff_cut :
    ∃ s, Trans.run (step readAsk) start askTwice = some s ∧
      ¬ (lenHeader.parse (s.conns 0).written).1 =
        (Trans.emits (step readAsk) (answered readAsk 0) start askTwice).map (·.1) :=
  have h : (Trans.run (step readAsk) start askTwice).isSome := by decide +kernel
  have hanswers : Trans.emits (step readAsk) (answered readAsk 0) start askTwice =
      [(Str.of "no", 6), (Str.of "ok", 3)] := by decide +kernel
  ⟨_, (Option.some_get h).symm, fun heq =>
    absurd ((replies_iff 0 (Option.some_get h).symm).1.mp heq (Str.of "ok", 3) (by rw [hanswers]; simp))
      (by decide)⟩

end ScheduleLink
end ScheduleCenter
