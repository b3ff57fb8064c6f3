/-
# Restart slots

A session connects a slot to the signal `op_ok_sig_` of the phone connection
it found, in `a_session::start`, and keeps the handle `restart_lua_conn_`. A
restart reply calls the slots of the connection it comes from, on the main
thread; the slot of a session enters `start` again, which looks for the
connection anew and assigns `pconn_`. The slot is not tied to the session: it
is disconnected where the restart timer runs out, and where the connection is
destroyed, and nowhere else.

Where `start` returns only with the slot gone, finds the connection the slot is
on, and the timer does not take the slot from a call that may still wait for a
restart, every slot is one of a session inside `start`, and who waits for a
restart has one slot, on its own connection (`followed_of_reach`). A session
that ends the ordinary way leaves its slot behind (`left_behind`).

Key definitions: `Slots`, `Slots.callStep`, `Slots.step`, `Slots.Ok`, `Slots.Followed`,
`Slots.SesInv`.
Key theorems: `Slots.callStep_cases`, `Slots.inv_step`, `Slots.followed_of_reach`,
`Slots.left_behind`.
-/
import ScheduleCenter.AccountMgr
import ScheduleCenter.Base.Trans

namespace ScheduleCenter

/-- A `phone_connection`. A pending read, or its completion in the queue,
holds a pointer to it (`reading`). Its socket is open while the pool has it. -/
structure PhoneConn where
  ip : Str
  inPool : Bool
  reading : Bool
deriving DecidableEq, Inhabited

/-- An `a_session`: connections are numbers, a handle is the connection its
slot was connected to. `sock` tells that the socket is connected to the script. -/
structure RestartSession where
  ip : Str
  pconn : Option ℕ
  restartLuaConn : Option ℕ
  sock : Bool
  alive : Bool
deriving DecidableEq, Inhabited

/-- A wait on `restart_lua_timer_`: pending, cancelled by the callback, or
cancelled as the timer was set anew. -/
inductive Wait
  | armed | cancelled | rearmed
deriving DecidableEq

namespace Slots

/-- A place in `start`: `wait true` is the one that `on_read_timeout` leads to,
inside `on_connected`. `bind` is reached by one call of a session at a time, as
a re-entry needs a slot. -/
inductive Pc
  | find | bind | connect
  | wait (inLoop : Bool) (w : Wait)
  | loop | sent | close | finish | done
deriving DecidableEq

def Pc.stopWait (w : Wait) : Pc → Pc
  | .wait inLoop .armed => .wait inLoop w
  | pc => pc

/-- The call may yet wait for a restart, without binding a slot before. -/
def Pc.mayWait (sock : Bool) : Pc → Bool
  | .connect | .sent | .wait _ .armed => true
  | .loop | .wait true _ => sock
  | _ => false

/-- Where a wait ends. -/
def Pc.awoken (inLoop : Bool) : Pc := if inLoop then .loop else .finish

/-- A call of `start`. The thread created for a session makes the first one,
and owns the session. -/
structure Call where
  ses : ℕ
  owner : Bool
  pc : Pc
deriving DecidableEq

/-- The main thread: `emitting p todo` has the slots of `p` in `todo` to call
yet, `running i p todo` is in the call `i` of `start` that one of them made. -/
inductive MainPc
  | idle
  | emitting (p : ℕ) (todo : List ℕ)
  | running (i p : ℕ) (todo : List ℕ)
deriving DecidableEq

/-- How the operation a call is at ends. -/
inductive Event
  | go | ok | err | expired
deriving DecidableEq

inductive Act
  | accept (ip : Str)
  | readError (p : ℕ)
  | readAborted (p : ℕ)
  | restartReply (p : ℕ)
  | destroy (p : ℕ)
  | main
  | spawn (ip : Str)
  | call (i : ℕ) (e : Event)

end Slots

/-- `slots` has a pair of a connection and a session for each connected slot,
in the order of connecting. -/
structure Slots where
  conns : ℕ → PhoneConn
  accepted : ℕ
  sessions : ℕ → RestartSession
  created : ℕ
  calls : ℕ → Slots.Call
  started : ℕ
  slots : List (ℕ × ℕ)
  main : Slots.MainPc

namespace Slots

def boot : Slots :=
  { conns := fun _ => default, accepted := 0, sessions := fun _ => default, created := 0,
    calls := fun _ => ⟨0, false, .done⟩, started := 0, slots := [], main := .idle }

/-! ### Connections -/

/-- The pool has at most one connection of an ip. -/
def findConnection (s : Slots) (ip : Str) : Option ℕ :=
  (List.range s.accepted).find? fun p => (s.conns p).inPool && (s.conns p).ip = ip

def poolStop (s : Slots) (p : ℕ) : Slots :=
  { s with conns := Function.update s.conns p { s.conns p with inPool := false } }

/-- `pho_conn_pool::start` of a new connection. -/
def poolStart (s : Slots) (ip : Str) : Slots :=
  let s₁ :=
    match s.findConnection ip with
    | some p => s.poolStop p
    | none => s
  { s₁ with
    conns := Function.update s₁.conns s.accepted ⟨ip, true, true⟩
    accepted := s.accepted + 1 }

def readDone (s : Slots) (p : ℕ) : Slots :=
  { s with conns := Function.update s.conns p { s.conns p with reading := false } }

/-- No pointer to the connection is left. -/
def Unowned (s : Slots) (p : ℕ) : Prop :=
  (s.conns p).inPool = false ∧ (s.conns p).reading = false ∧
    ∀ x < s.created, (s.sessions x).alive = true → (s.sessions x).pconn ≠ some p

instance (s : Slots) (p : ℕ) : Decidable (s.Unowned p) :=
  inferInstanceAs (Decidable (_ ∧ _ ∧ ∀ x < s.created, _ → _))

/-! ### Sessions -/

/-- The connections that have a slot of the session. -/
def slotsOf (s : Slots) (x : ℕ) : List ℕ := (s.slots.filter fun e => e.2 = x).map fun e => e.1

/-- `restart_lua_conn_.connected()`. -/
def connected (s : Slots) (x : ℕ) : Bool :=
  match (s.sessions x).restartLuaConn with
  | some p => (p, x) ∈ s.slots
  | none => false

/-- `restart_lua_conn_.disconnect()`, if it is connected. -/
def disconnect (s : Slots) (x : ℕ) : List (ℕ × ℕ) :=
  match (s.sessions x).restartLuaConn with
  | some p => s.slots.erase (p, x)
  | none => s.slots

/-- The pending waits of the session are cancelled. -/
def stopWaits (s : Slots) (x : ℕ) (w : Wait) : Slots :=
  { s with
    calls := fun j =>
      if (s.calls j).ses = x then { s.calls j with pc := (s.calls j).pc.stopWait w } else s.calls j }

/-- Call `i` goes to `pc`; its session becomes `r`. -/
def move (s : Slots) (i : ℕ) (r : RestartSession) (slots : List (ℕ × ℕ)) (pc : Pc) : Slots :=
  { s with
    sessions := Function.update s.sessions (s.calls i).ses r
    calls := Function.update s.calls i { s.calls i with pc := pc }
    slots := slots }

/-- Call `i` returns, and with the call of the thread created for it the
session is destroyed. -/
def return_ (s : Slots) (i : ℕ) (r : RestartSession) : Slots :=
  s.move i { r with alive := r.alive && !(s.calls i).owner } s.slots .done

/-- A step of call `i`. What a call does in a session that is destroyed, or with
a null `pconn_`, is left out. -/
def callStep (s : Slots) (i : ℕ) (e : Event) : Option Slots :=
  let x := (s.calls i).ses
  let r := s.sessions x
  if r.alive then
    match (s.calls i).pc, e with
    | .find, .go =>
      match s.findConnection r.ip with
      | none => some (s.return_ i { r with pconn := none })
      | some p => some (s.move i { r with pconn := some p } s.slots .bind)
    | .bind, .go =>
      r.pconn.map fun p =>
        if s.connected x then s.move i r s.slots .connect
        else s.move i { r with restartLuaConn := some p } (s.slots ++ [(p, x)]) .connect
    | .connect, .ok => some (s.move i { r with sock := true } s.slots .loop)
    | .connect, .err => r.pconn.map fun _ => s.move i r s.slots (.wait false .armed)
    -- cancelled
    | .wait inLoop w, .go => if w = .armed then none else some (s.move i r s.slots (.awoken inLoop))
    -- `on_restart_lua_timeout`; its completion may have been queued before a cancel
    | .wait inLoop w, .expired =>
      if w = .rearmed then none else some (s.move i r (s.disconnect x) (.awoken inLoop))
    | .loop, .ok => if r.sock then some (s.move i r s.slots .sent) else none
    | .loop, .err => some (s.move i r s.slots .loop)
    | .loop, .go => some (s.move i r s.slots .close)
    | .sent, .go => some (s.move i r s.slots .loop)
    -- `on_read_timeout`
    | .sent, .expired =>
      r.pconn.map fun _ =>
        (s.stopWaits x .rearmed).move i { r with sock := false } s.slots (.wait true .armed)
    | .close, .go => some (s.move i { r with sock := false } s.slots .finish)
    | .finish, .go => some (s.return_ i r)
    | _, _ => none
  else none

/-- A new call of `start`. -/
def push (s : Slots) (c : Call) : Slots :=
  { s with calls := Function.update s.calls s.started c, started := s.started + 1 }

/-- The main thread goes through the slots of a signal that are connected still. -/
def mainStep (s : Slots) : Option Slots :=
  match s.main with
  | .idle => none
  | .emitting _ [] => some { s with main := .idle }
  | .emitting p (x :: todo) =>
    if (p, x) ∈ s.slots then
      -- `on_restart_lua_end`
      if (s.sessions x).alive then
        some { (s.stopWaits x .cancelled).push ⟨x, false, .find⟩ with main := .running s.started p todo }
      else none
    else some { s with main := .emitting p todo }
  | .running i p todo => if (s.calls i).pc = .done then some { s with main := .emitting p todo } else none

def step (s : Slots) : Act → Option Slots
  | .accept ip => if s.main = .idle then some (s.poolStart ip) else none
  | .readError p =>
    if s.main = .idle ∧ (s.conns p).reading ∧ (s.conns p).inPool then some ((s.poolStop p).readDone p) else none
  | .readAborted p =>
    if s.main = .idle ∧ (s.conns p).reading ∧ (s.conns p).inPool = false then some (s.readDone p) else none
  | .restartReply p =>
    if s.main = .idle ∧ (s.conns p).reading then
      some { s with main := .emitting p ((s.slots.filter fun e => e.1 = p).map fun e => e.2) }
    else none
  | .destroy p => if s.Unowned p then some { s with slots := s.slots.filter fun e => e.1 ≠ p } else none
  | .main => s.mainStep
  | .spawn ip =>
    some { s.push ⟨s.created, true, .find⟩ with
      sessions := Function.update s.sessions s.created ⟨ip, none, none, false, true⟩
      created := s.created + 1 }
  | .call i e => s.callStep i e

/-! ### The slots of the sessions inside `start` -/

/-- Call `j` is one of session `x`, and has not finished. -/
def Inside (s : Slots) (j x : ℕ) : Prop := (s.calls j).ses = x ∧ (s.calls j).pc ≠ .done

instance (s : Slots) (j x : ℕ) : Decidable (s.Inside j x) := inferInstanceAs (Decidable (_ ∧ _))

/-- Call `j` waits for the answer to `restart_lua`. -/
def Waiting (s : Slots) (j : ℕ) : Prop := ∃ inLoop, (s.calls j).pc = .wait inLoop .armed

/-- Slots belong to sessions inside `start`, and a session that waits for a
restart has one slot, on its `pconn_`. -/
structure Followed (s : Slots) : Prop where
  live : ∀ p x, (p, x) ∈ s.slots → ∃ j < s.started, s.Inside j x
  waiting : ∀ j, s.Waiting j →
    ∃ p, (s.sessions (s.calls j).ses).pconn = some p ∧ s.slotsOf (s.calls j).ses = [p]

/-- The thread created for a session returns last, and its slot is gone. -/
def ReturnOk (s : Slots) (i : ℕ) : Prop :=
  (s.calls i).owner = true → s.slotsOf (s.calls i).ses = [] ∧
    ∀ j < s.started, j ≠ i → ¬ s.Inside j (s.calls i).ses

instance (s : Slots) (i : ℕ) : Decidable (s.ReturnOk i) :=
  inferInstanceAs (Decidable (_ → _ ∧ ∀ j < s.started, _ → _))

/-- The connection found is the one the slot is on, if there is a slot. -/
def FindOk (s : Slots) (x : ℕ) : Prop := ∀ p ∈ s.slotsOf x, s.findConnection (s.sessions x).ip = some p

instance (s : Slots) (x : ℕ) : Decidable (s.FindOk x) := inferInstanceAs (Decidable (∀ p ∈ _, _))

/-- When the restart timer has run out on call `i`, no call of its session may
wait for a restart without binding a slot before. -/
def ExpireOk (s : Slots) (i : ℕ) (inLoop : Bool) : Prop :=
  ∀ j < s.started, (s.calls j).ses = (s.calls i).ses →
    (if j = i then Pc.awoken inLoop else (s.calls j).pc).mayWait (s.sessions (s.calls i).ses).sock = false

instance (s : Slots) (i : ℕ) (inLoop : Bool) : Decidable (s.ExpireOk i inLoop) :=
  inferInstanceAs (Decidable (∀ j < s.started, _ → _))

/-- The condition on a step of call `i`. -/
def CallOk (s : Slots) (i : ℕ) : Pc → Event → Prop
  | .find, .go =>
    s.FindOk (s.calls i).ses ∧ (s.findConnection (s.sessions (s.calls i).ses).ip = none → s.ReturnOk i)
  | .wait inLoop _, .expired => s.ExpireOk i inLoop
  | .finish, .go => s.ReturnOk i
  | _, _ => True

def Ok (s : Slots) : Act → Prop
  | .call i e => s.CallOk i (s.calls i).pc e
  | _ => True

instance (s : Slots) (i : ℕ) : ∀ (pc : Pc) (e : Event), Decidable (s.CallOk i pc e)
  | .find, .go => inferInstanceAs (Decidable (s.FindOk _ ∧ (_ → s.ReturnOk i)))
  | .wait inLoop _, .expired => inferInstanceAs (Decidable (s.ExpireOk i inLoop))
  | .finish, .go => inferInstanceAs (Decidable (s.ReturnOk i))
  | .find, .ok | .find, .err | .find, .expired | .wait _ _, .go | .wait _ _, .ok | .wait _ _, .err
  | .finish, .ok | .finish, .err | .finish, .expired
  | .bind, _ | .connect, _ | .loop, _ | .sent, _ | .close, _ | .done, _ => isTrue trivial

instance (s : Slots) : ∀ a : Act, Decidable (s.Ok a)
  | .call i e => inferInstanceAs (Decidable (s.CallOk i (s.calls i).pc e))
  | .accept _ | .readError _ | .readAborted _ | .restartReply _ | .destroy _ | .main | .spawn _ => isTrue trivial

/-! ### A step of a call, case by case -/

inductive CallCase (s : Slots) (i : ℕ) (r : RestartSession) : Pc → Event → Slots → Prop
  | notFound (hf : s.findConnection r.ip = none) :
      CallCase s i r .find .go (s.return_ i { r with pconn := none })
  | found {p : ℕ} (hf : s.findConnection r.ip = some p) :
      CallCase s i r .find .go (s.move i { r with pconn := some p } s.slots .bind)
  | bound (hc : s.connected (s.calls i).ses = true) :
      CallCase s i r .bind .go (s.move i r s.slots .connect)
  | bind {p : ℕ} (hp : r.pconn = some p) (hc : s.connected (s.calls i).ses = false) :
      CallCase s i r .bind .go
        (s.move i { r with restartLuaConn := some p } (s.slots ++ [(p, (s.calls i).ses)]) .connect)
  | connected : CallCase s i r .connect .ok (s.move i { r with sock := true } s.slots .loop)
  | refused : CallCase s i r .connect .err (s.move i r s.slots (.wait false .armed))
  | wake {inLoop : Bool} {w : Wait} (hw : w ≠ .armed) :
      CallCase s i r (.wait inLoop w) .go (s.move i r s.slots (.awoken inLoop))
  | expire {inLoop : Bool} {w : Wait} (hw : w ≠ .rearmed) : CallCase s i r (.wait inLoop w) .expired
      (s.move i r (s.disconnect (s.calls i).ses) (.awoken inLoop))
  | write (hsock : r.sock = true) : CallCase s i r .loop .ok (s.move i r s.slots .sent)
  | writeErr : CallCase s i r .loop .err (s.move i r s.slots .loop)
  | leave : CallCase s i r .loop .go (s.move i r s.slots .close)
  | read : CallCase s i r .sent .go (s.move i r s.slots .loop)
  | timeout : CallCase s i r .sent .expired
      ((s.stopWaits (s.calls i).ses .rearmed).move i { r with sock := false } s.slots (.wait true .armed))
  | close : CallCase s i r .close .go (s.move i { r with sock := false } s.slots .finish)
  | finish : CallCase s i r .finish .go (s.return_ i r)

section Cases

variable {s s' : Slots} {i : ℕ} {e : Event}

theorem callStep_cases (h : s.callStep i e = some s') :
    (s.sessions (s.calls i).ses).alive = true ∧
      CallCase s i (s.sessions (s.calls i).ses) (s.calls i).pc e s' := by
  unfold callStep at h
  simp only at h
  split at h
  swap
  · cases h
  refine ⟨‹_›, ?_⟩
  split at h
  all_goals try simp only [Option.some.injEq, Option.map_eq_some_iff, reduceCtorEq] at h
  all_goals rename_i hpc
  all_goals rw [hpc]
  case h_1 => -- find
    split at h <;> cases h
    · exact .notFound ‹_›
    · exact .found ‹_›
  case h_2 => -- bind
    obtain ⟨p, hp, rfl⟩ := h
    split
    · exact .bound ‹_›
    · exact .bind hp (by simpa using ‹¬ s.connected _ = true›)
  case h_3 => subst h; exact .connected
  case h_4 => obtain ⟨_, _, rfl⟩ := h; exact .refused
  case h_5 => -- a wait is cancelled
    split at h
    · cases h
    · cases h; exact .wake ‹_›
  case h_6 => -- the restart timer expires
    split at h
    · cases h
    · cases h; exact .expire ‹_›
  case h_7 => -- write
    split at h
    · cases h; exact .write ‹_›
    · cases h
  case h_8 => subst h; exact .writeErr
  case h_9 => subst h; exact .leave
  case h_10 => subst h; exact .read
  case h_11 => obtain ⟨_, _, rfl⟩ := h; exact .timeout
  case h_12 => subst h; exact .close
  case h_13 => subst h; exact .finish

end Cases

/-! ### One session -/

/-- What holds of a session: its slot, if it has one, is on `pconn_`; a call that
may yet wait for a restart has the slot; the session lives as long as the call
of its thread, which is the last to return and leaves no slot. -/
structure SesInv (s : Slots) (x : ℕ) : Prop where
  tied : s.slotsOf x = [] ∨
    ∃ p, s.slotsOf x = [p] ∧ (s.sessions x).restartLuaConn = some p ∧ (s.sessions x).pconn = some p
  held : ∀ j, s.Inside j x → (s.calls j).pc.mayWait (s.sessions x).sock = true → s.slotsOf x ≠ []
  owned : (s.sessions x).alive = true → ∃ j, s.Inside j x ∧ (s.calls j).owner = true
  dead : (s.sessions x).alive = false → s.slotsOf x = [] ∧ ∀ j, ¬ s.Inside j x

section SesInv

variable {s s' : Slots} {i x : ℕ}

theorem mayWait_mono {b b' : Bool} (hb : b' = true → b = true) {pc : Pc} (h : pc.mayWait b' = true) :
    pc.mayWait b = true := by
  unfold Pc.mayWait at h ⊢
  split at h <;> simp_all

theorem mem_slotsOf {p : ℕ} : p ∈ s.slotsOf x ↔ (p, x) ∈ s.slots := by
  simp [slotsOf]

theorem SesInv.alive (h : SesInv s x) (hx : s.slotsOf x ≠ []) : (s.sessions x).alive = true := by
  by_contra hd
  exact hx (h.dead (by simpa using hd)).1

theorem SesInv.owner (h : SesInv s x) (hi : s.Inside i x) : ∃ j, s.Inside j x ∧ (s.calls j).owner = true := by
  apply h.owned
  by_contra hd
  exact (h.dead (by simpa using hd)).2 i hi

/-- Nothing that concerns the session has changed, but for who of its calls has
been told that a wait is over. -/
theorem SesInv.congr (h : SesInv s x) (hr : s'.sessions x = s.sessions x) (hs : s'.slotsOf x = s.slotsOf x)
    (hc : ∀ j, s'.Inside j x ↔ s.Inside j x)
    (hw : ∀ j, s.Inside j x → (s'.calls j).owner = (s.calls j).owner ∧
      ∀ sock, (s'.calls j).pc.mayWait sock = true → (s.calls j).pc.mayWait sock = true) : SesInv s' x := by
  constructor
  · rw [hr, hs]
    exact h.tied
  · intro j hj hm
    have hj' := (hc j).mp hj
    rw [hr] at hm
    rw [hs]
    exact h.held j hj' ((hw j hj').2 _ hm)
  · intro ha
    obtain ⟨j, hj, ho⟩ := h.owned (by rwa [hr] at ha)
    refine ⟨j, (hc j).mpr hj, ?_⟩
    rw [(hw j hj).1, ho]
  · intro ha
    obtain ⟨h₁, h₂⟩ := h.dead (by rwa [hr] at ha)
    exact ⟨by rw [hs, h₁], fun j hj => h₂ j ((hc j).mp hj)⟩

theorem SesInv.congr_calls (h : SesInv s x) (hr : s'.sessions x = s.sessions x) (hs : s'.slotsOf x = s.slotsOf x)
    (hc : ∀ j, s'.Inside j x ∨ s.Inside j x → s'.calls j = s.calls j) : SesInv s' x := by
  refine h.congr hr hs (fun j => ⟨fun hj => ?_, fun hj => ?_⟩) fun j hj => ?_
  · have := hc j (.inl hj)
    unfold Inside at hj ⊢
    rwa [← this]
  · have := hc j (.inr hj)
    unfold Inside at hj ⊢
    rwa [this]
  · rw [hc j (.inr hj)]
    exact ⟨rfl, fun _ => id⟩

/-! ### The timer is told to stop -/

/-- Who is told may wait for a restart only if it might have before. -/
theorem mayWait_of_stopWait {w : Wait} {sock : Bool} {pc : Pc} (h : (pc.stopWait w).mayWait sock = true) :
    pc.mayWait sock = true := by
  unfold Pc.stopWait at h
  split at h
  · rfl
  · exact h

@[simp] theorem stopWait_eq_done (w : Wait) (pc : Pc) : pc.stopWait w = .done ↔ pc = .done := by
  unfold Pc.stopWait
  split <;> simp

theorem stopWaits_ses {y j : ℕ} {w : Wait} : ((s.stopWaits y w).calls j).ses = (s.calls j).ses := by
  unfold stopWaits
  dsimp only
  split <;> rfl

theorem inside_stopWaits {y j : ℕ} {w : Wait} : (s.stopWaits y w).Inside j x ↔ s.Inside j x := by
  unfold Inside stopWaits
  dsimp only
  split <;> simp

theorem SesInv.stopWaits (h : SesInv s x) (y : ℕ) (w : Wait) : SesInv (s.stopWaits y w) x := by
  refine h.congr rfl rfl (fun j => inside_stopWaits) fun j _ => ?_
  unfold Slots.stopWaits
  dsimp only
  split
  · exact ⟨rfl, fun _ => mayWait_of_stopWait⟩
  · exact ⟨rfl, fun _ => id⟩

/-! ### Connecting and disconnecting -/

theorem slotsOf_append {p y : ℕ} (hs : s'.slots = s.slots ++ [(p, y)]) (x : ℕ) :
    s'.slotsOf x = s.slotsOf x ++ if y = x then [p] else [] := by
  unfold slotsOf
  rw [hs, List.filter_append, List.map_append]
  by_cases hy : y = x <;> simp [hy]

theorem slotsOf_erase_ne {p y : ℕ} (hs : s'.slots = s.slots.erase (p, y)) (hy : x ≠ y) :
    s'.slotsOf x = s.slotsOf x := by
  unfold slotsOf
  rw [hs, ← List.erase_filter, List.erase_of_not_mem]
  simpa using fun _ => hy.symm

/-- The only slot of the session is disconnected. -/
theorem slotsOf_erase_self {p : ℕ} (hs : s'.slots = s.slots.erase (p, x)) (hx : s.slotsOf x = [p]) :
    s'.slotsOf x = [] := by
  unfold slotsOf at hx ⊢
  obtain ⟨⟨q, y⟩, hf, rfl⟩ := List.map_eq_singleton_iff.mp hx
  have hmem : (q, y) ∈ s.slots.filter fun e => e.2 = x := by simp [hf]
  obtain rfl : y = x := by simpa using (List.mem_filter.mp hmem).2
  rw [hs, ← List.erase_filter, hf]
  simp

theorem SesInv.connected_iff (h : SesInv s x) : s.connected x = true ↔ s.slotsOf x ≠ [] := by
  unfold connected
  constructor
  · intro hc hx
    split at hc
    · have hmem := mem_slotsOf.mpr (of_decide_eq_true hc)
      simp [hx] at hmem
    · cases hc
  · intro hx
    obtain ⟨p, hp, hconn, -⟩ := h.tied.resolve_left hx
    rw [hconn]
    exact decide_eq_true (mem_slotsOf.mp (by simp [hp]))

theorem slotsOf_disconnect_ne {y : ℕ} (hs : s'.slots = s.disconnect y) (hy : x ≠ y) : s'.slotsOf x = s.slotsOf x := by
  unfold disconnect at hs
  split at hs
  · exact slotsOf_erase_ne hs hy
  · simp [slotsOf, hs]

theorem SesInv.slotsOf_disconnect (h : SesInv s x) (hs : s'.slots = s.disconnect x) : s'.slotsOf x = [] := by
  unfold disconnect at hs
  rcases h.tied with hx | ⟨p, hp, hconn, -⟩
  · have hsub : s'.slots.Sublist s.slots := by
      split at hs
      · rw [hs]; exact List.erase_sublist
      · rw [hs]
    exact List.sublist_nil.mp (hx ▸ (hsub.filter _).map _)
  · rw [hconn] at hs
    exact slotsOf_erase_self hs hp

/-! ### Moving a call -/

section Move

variable {r : RestartSession} {slots : List (ℕ × ℕ)} {pc : Pc}

theorem move_sessions : (s.move i r slots pc).sessions (s.calls i).ses = r := Function.update_self ..

theorem move_sessions_ne (hx : x ≠ (s.calls i).ses) : (s.move i r slots pc).sessions x = s.sessions x :=
  Function.update_of_ne hx ..

theorem move_calls : (s.move i r slots pc).calls i = { s.calls i with pc := pc } := Function.update_self ..

theorem move_calls_ne {j : ℕ} (hj : j ≠ i) : (s.move i r slots pc).calls j = s.calls j :=
  Function.update_of_ne hj ..

theorem inside_move {j : ℕ} (hj : j ≠ i) : (s.move i r slots pc).Inside j x ↔ s.Inside j x := by
  unfold Inside
  rw [move_calls_ne hj]

theorem inside_move_self : (s.move i r slots pc).Inside i x ↔ (s.calls i).ses = x ∧ pc ≠ .done := by
  unfold Inside
  rw [move_calls]

/-- A session that the call is not of. -/
theorem SesInv.move_ne (h : SesInv s x) (hx : x ≠ (s.calls i).ses)
    (hs : (s.move i r slots pc).slotsOf x = s.slotsOf x) : SesInv (s.move i r slots pc) x := by
  refine h.congr_calls (move_sessions_ne hx) hs fun j hj => move_calls_ne ?_
  rintro rfl
  rcases hj with ⟨hj, -⟩ | ⟨hj, -⟩
  · rw [move_calls] at hj
    exact hx hj.symm
  · exact hx hj.symm

/-- The session of the call, which goes on. -/
theorem SesInv.move (h : SesInv s (s.calls i).ses) (hi : (s.calls i).pc ≠ .done) (hpc : pc ≠ .done)
    (halive : r.alive = true)
    (htied : (s.move i r slots pc).slotsOf (s.calls i).ses = [] ∨
      ∃ p, (s.move i r slots pc).slotsOf (s.calls i).ses = [p] ∧ r.restartLuaConn = some p ∧ r.pconn = some p)
    (hself : pc.mayWait r.sock = true → (s.move i r slots pc).slotsOf (s.calls i).ses ≠ [])
    (hheld : ∀ j, j ≠ i → s.Inside j (s.calls i).ses → (s.calls j).pc.mayWait r.sock = true →
      (s.move i r slots pc).slotsOf (s.calls i).ses ≠ []) :
    SesInv (s.move i r slots pc) (s.calls i).ses := by
  refine ⟨?_, fun j hj hm => ?_, fun _ => ?_, fun hd => ?_⟩
  · rw [move_sessions]
    exact htied
  · rw [move_sessions] at hm
    by_cases hji : j = i
    · rw [hji, move_calls] at hm
      exact hself hm
    · rw [move_calls_ne hji] at hm
      exact hheld j hji ((inside_move hji).mp hj) hm
  · obtain ⟨j, hj, ho⟩ := h.owner ⟨rfl, hi⟩
    by_cases hji : j = i
    · refine ⟨i, inside_move_self.mpr ⟨rfl, hpc⟩, ?_⟩
      rw [move_calls]
      exact hji ▸ ho
    · refine ⟨j, (inside_move hji).mpr hj, ?_⟩
      rw [move_calls_ne hji]
      exact ho
  · rw [move_sessions, halive] at hd
    cases hd

/-- The session of the call, which returns. -/
theorem SesInv.return_ (h : SesInv s (s.calls i).ses) (hi : (s.calls i).pc ≠ .done)
    (hfresh : ∀ j, s.started ≤ j → (s.calls j).pc = .done) (hok : s.ReturnOk i)
    (halive : r.alive = true) (hsock : r.sock = (s.sessions (s.calls i).ses).sock)
    (htied : s.slotsOf (s.calls i).ses = [] ∨
      ∃ p, s.slotsOf (s.calls i).ses = [p] ∧ r.restartLuaConn = some p ∧ r.pconn = some p) :
    SesInv (s.return_ i r) (s.calls i).ses := by
  have hne : ∀ {j x}, (s.return_ i r).Inside j x → j ≠ i := by
    rintro j x hj rfl
    exact (inside_move_self.mp hj).2 rfl
  have hin : ∀ {j x}, (s.return_ i r).Inside j x → s.Inside j x := fun hj => (inside_move (hne hj)).mp hj
  refine ⟨?_, fun j hj hm => ?_, fun ha => ?_, fun hd => ?_⟩
  · rw [Slots.return_, move_sessions]
    exact htied
  · rw [Slots.return_, move_sessions, move_calls_ne (hne hj)] at hm
    exact h.held j (hin hj) (hsock ▸ hm)
  · rw [Slots.return_, move_sessions] at ha
    obtain ⟨j, hj, ho⟩ := h.owner ⟨rfl, hi⟩
    have hji : j ≠ i := by
      rintro rfl
      simp [ho] at ha
    refine ⟨j, (inside_move hji).mpr hj, ?_⟩
    rw [Slots.return_, move_calls_ne hji]
    exact ho
  · rw [Slots.return_, move_sessions] at hd
    obtain ⟨hslots, hothers⟩ := hok (by simpa [halive] using hd)
    refine ⟨hslots, fun j hj => ?_⟩
    by_cases hlt : j < s.started
    · exact hothers j hlt (hne hj) (hin hj)
    · exact (hin hj).2 (hfresh j (by omega))

end Move

end SesInv

/-! ### All sessions -/

structure Inv (s : Slots) : Prop where
  fresh : ∀ j, s.started ≤ j → (s.calls j).pc = .done
  uncreated : ∀ x, s.created ≤ x → (s.sessions x).alive = false
  ses : ∀ x, SesInv s x

section Inv

variable {s s' : Slots} {i : ℕ} {r : RestartSession} {slots : List (ℕ × ℕ)} {pc : Pc} {a : Act}

/-- A step that only concerns the connections and the main thread. -/
theorem Inv.congr (h : Inv s) (hr : s'.sessions = s.sessions) (hcr : s'.created = s.created)
    (hc : s'.calls = s.calls) (hst : s'.started = s.started) (hs : ∀ x, s'.slotsOf x = s.slotsOf x) : Inv s' := by
  refine ⟨fun j hj => ?_, fun x hx => ?_, fun x => ?_⟩
  · rw [hc]
    exact h.fresh j (hst ▸ hj)
  · rw [hr]
    exact h.uncreated x (hcr ▸ hx)
  · exact (h.ses x).congr_calls (by rw [hr]) (hs x) fun j _ => by rw [hc]

theorem Inv.stopWaits (h : Inv s) (y : ℕ) (w : Wait) : Inv (s.stopWaits y w) := by
  refine ⟨fun j hj => ?_, h.uncreated, fun x => (h.ses x).stopWaits y w⟩
  have hd := h.fresh j hj
  unfold Slots.stopWaits
  dsimp only
  split <;> simp [hd]

/-- A call of a session that lives takes a step; of the sessions only its own
is concerned. -/
theorem Inv.move (h : Inv s) (halive : (s.sessions (s.calls i).ses).alive = true)
    (hi : (s.calls i).pc ≠ .done)
    (hs : ∀ x, x ≠ (s.calls i).ses → (s.move i r slots pc).slotsOf x = s.slotsOf x)
    (hself : SesInv (s.move i r slots pc) (s.calls i).ses) : Inv (s.move i r slots pc) := by
  refine ⟨fun j hj => ?_, fun x hx => ?_, fun x => ?_⟩
  · have hd := h.fresh j hj
    have hji : j ≠ i := fun hji => hi (hji ▸ hd)
    rw [move_calls_ne hji, hd]
  · have hd := h.uncreated x hx
    have hx : x ≠ (s.calls i).ses := by
      rintro rfl
      rw [halive] at hd
      cases hd
    rw [move_sessions_ne hx, hd]
  · by_cases hx : x = (s.calls i).ses
    · rw [hx]
      exact hself
    · exact (h.ses x).move_ne hx (hs x hx)

/-- The call goes on; nothing is connected or disconnected, and nothing new may
wait for a restart unless the session has its slot. -/
theorem Inv.go_on (h : Inv s) (halive : (s.sessions (s.calls i).ses).alive = true) (hi : (s.calls i).pc ≠ .done)
    (hpc : pc ≠ .done) (hr : r.alive = true)
    (hconn : r.restartLuaConn = (s.sessions (s.calls i).ses).restartLuaConn)
    (hpconn : r.pconn = (s.sessions (s.calls i).ses).pconn ∨ ∀ p ∈ s.slotsOf (s.calls i).ses, r.pconn = some p)
    (hsock : (r.sock = true → (s.sessions (s.calls i).ses).sock = true) ∨ s.slotsOf (s.calls i).ses ≠ [])
    (hwait : pc.mayWait r.sock = true → s.slotsOf (s.calls i).ses ≠ []) :
    Inv (s.move i r s.slots pc) := by
  have hses := h.ses (s.calls i).ses
  refine h.move halive hi (fun _ _ => rfl) (hses.move hi hpc hr ?_ hwait ?_)
  · rcases hses.tied with hx | ⟨p, hp, hc, hpc⟩
    · exact .inl hx
    · refine .inr ⟨p, hp, by rw [hconn, hc], ?_⟩
      rcases hpconn with hpconn | hpconn
      · rw [hpconn, hpc]
      · exact hpconn p (by simp [hp])
  · intro j _ hj hm
    rcases hsock with hsock | hx
    · exact hses.held j hj (mayWait_mono hsock hm)
    · exact hx

theorem Inv.return_ (h : Inv s) (halive : (s.sessions (s.calls i).ses).alive = true) (hi : (s.calls i).pc ≠ .done)
    (hok : s.ReturnOk i) (hr : r.alive = true) (hsock : r.sock = (s.sessions (s.calls i).ses).sock)
    (htied : s.slotsOf (s.calls i).ses = [] ∨
      ∃ p, s.slotsOf (s.calls i).ses = [p] ∧ r.restartLuaConn = some p ∧ r.pconn = some p) :
    Inv (s.return_ i r) :=
  h.move halive hi (fun _ _ => rfl) ((h.ses _).return_ hi h.fresh hok hr hsock htied)

/-- A slot is connected to `pconn_`. -/
theorem Inv.bind (h : Inv s) {p : ℕ} (hr : s.sessions (s.calls i).ses = r) (halive : r.alive = true)
    (hi : (s.calls i).pc ≠ .done) (hp : r.pconn = some p) (hc : s.connected (s.calls i).ses = false) :
    Inv (s.move i { r with restartLuaConn := some p } (s.slots ++ [(p, (s.calls i).ses)]) .connect) := by
  have hses := h.ses (s.calls i).ses
  have hx : s.slotsOf (s.calls i).ses = [] := by
    by_contra hne
    rw [hses.connected_iff.mpr hne] at hc
    cases hc
  have hx' : (s.move i { r with restartLuaConn := some p } (s.slots ++ [(p, (s.calls i).ses)]) .connect).slotsOf
      (s.calls i).ses = [p] := by
    rw [slotsOf_append rfl, hx]
    simp
  refine h.move (by rw [hr, halive]) hi (fun x hne => ?_) (hses.move hi (by simp) halive ?_ ?_ ?_)
  · rw [slotsOf_append rfl, if_neg (Ne.symm hne), List.append_nil]
  · exact .inr ⟨p, hx', rfl, hp⟩
  · intro _
    simp [hx']
  · intro _ _ _ _
    simp [hx']

theorem awoken_ne_done {inLoop : Bool} : Pc.awoken inLoop ≠ .done := by
  cases inLoop <;> simp [Pc.awoken]

/-- The restart timer takes the slot. -/
theorem Inv.expire (h : Inv s) {inLoop : Bool} (hr : s.sessions (s.calls i).ses = r) (halive : r.alive = true)
    (hi : (s.calls i).pc ≠ .done) (hok : s.ExpireOk i inLoop) :
    Inv (s.move i r (s.disconnect (s.calls i).ses) (.awoken inLoop)) := by
  have hses := h.ses (s.calls i).ses
  have hlt : ∀ j, s.Inside j (s.calls i).ses → j < s.started := fun j hj => by
    by_contra hge
    exact hj.2 (h.fresh j (by omega))
  refine h.move (by rw [hr, halive]) hi (fun x hne => slotsOf_disconnect_ne rfl hne)
    (hses.move hi awoken_ne_done halive ?_ ?_ ?_)
  · exact .inl (hses.slotsOf_disconnect rfl)
  · intro hm
    have hno := hok i (hlt i ⟨rfl, hi⟩) rfl
    rw [if_pos rfl, hr, hm] at hno
    cases hno
  · intro j hji hj hm
    have hno := hok j (hlt j hj) hj.1
    rw [if_neg hji, hr, hm] at hno
    cases hno

theorem CallCase.ne_done {e : Event} (h : CallCase s i r pc e s') : pc ≠ .done := by
  cases h <;> simp

theorem Inv.call (h : Inv s) {e : Event} (ha : s.CallOk i (s.calls i).pc e) (hs : s.callStep i e = some s') :
    Inv s' := by
  obtain ⟨halive, hc⟩ := callStep_cases hs
  have hi := hc.ne_done
  have hses := h.ses (s.calls i).ses
  have hslot : (s.calls i).pc.mayWait (s.sessions (s.calls i).ses).sock = true →
      s.slotsOf (s.calls i).ses ≠ [] := hses.held i ⟨rfl, hi⟩
  generalize (s.calls i).pc = pc at hc ha hslot
  cases hc
  case notFound hf =>
    obtain ⟨hfind, hok⟩ := ha
    have hx : s.slotsOf (s.calls i).ses = [] := by
      rw [List.eq_nil_iff_forall_not_mem]
      intro p hp
      have := hfind p hp
      rw [hf] at this
      cases this
    exact h.return_ halive hi (hok hf) halive rfl (.inl hx)
  case found p hf =>
    have hpconn : ∀ q ∈ s.slotsOf (s.calls i).ses, some p = some q := fun q hq => hf.symm.trans (ha.1 q hq)
    exact h.go_on halive hi (by simp) halive rfl (.inr hpconn) (.inl id) fun hm => by cases hm
  case bound hc =>
    exact h.go_on halive hi (by simp) halive rfl (.inl rfl) (.inl id) fun _ => hses.connected_iff.mp hc
  case bind p hp hc => exact h.bind rfl halive hi hp hc
  case connected =>
    have hx := hslot rfl
    exact h.go_on halive hi (by simp) halive rfl (.inl rfl) (.inr hx) fun _ => hx
  case refused => exact h.go_on halive hi (by simp) halive rfl (.inl rfl) (.inl id) fun _ => hslot rfl
  case wake inLoop w hw =>
    refine h.go_on halive hi awoken_ne_done halive rfl (.inl rfl) (.inl id) fun hm => hslot ?_
    rcases inLoop with _ | _
    · cases hm
    · rcases w with _ | _ | _
      · exact absurd rfl hw
      · exact hm
      · exact hm
  case expire inLoop w hw => exact h.expire rfl halive hi ha
  case write hsock =>
    exact h.go_on halive hi (by simp) halive rfl (.inl rfl) (.inl id) fun _ => hslot hsock
  case writeErr => exact h.go_on halive hi (by simp) halive rfl (.inl rfl) (.inl id) hslot
  case leave => exact h.go_on halive hi (by simp) halive rfl (.inl rfl) (.inl id) fun hm => by cases hm
  case read => exact h.go_on halive hi (by simp) halive rfl (.inl rfl) (.inl id) fun _ => hslot rfl
  case timeout =>
    have hses' : ((s.stopWaits (s.calls i).ses .rearmed).calls i).ses = (s.calls i).ses := stopWaits_ses
    have hi' : ((s.stopWaits (s.calls i).ses .rearmed).calls i).pc ≠ .done :=
      ((inside_stopWaits (x := (s.calls i).ses)).mpr ⟨rfl, hi⟩).2
    refine (h.stopWaits (s.calls i).ses .rearmed).go_on ?_ hi' (by simp) halive ?_ (.inl ?_)
      (.inl fun hf => by cases hf) fun _ => ?_
    all_goals rw [hses']
    · exact halive
    · rfl
    · rfl
    · exact hslot rfl
  case close =>
    refine h.go_on halive hi (by simp) halive rfl (.inl rfl) (.inl fun hf => by cases hf) fun hm => ?_
    cases hm
  case finish => exact h.return_ halive hi ha halive rfl hses.tied

/-! ### New calls -/

section Push

variable {c : Call}

theorem push_calls (hc : s'.calls = (s.push c).calls) : s'.calls s.started = c := by
  rw [hc]
  exact Function.update_self ..

theorem push_calls_ne (hc : s'.calls = (s.push c).calls) {j : ℕ} (hj : j ≠ s.started) : s'.calls j = s.calls j := by
  rw [hc]
  exact Function.update_of_ne hj ..

theorem inside_push (hc : s'.calls = (s.push c).calls) {j x : ℕ} (hj : j ≠ s.started) :
    s'.Inside j x ↔ s.Inside j x := by
  unfold Inside
  rw [push_calls_ne hc hj]

/-- A session that the new call is not of. -/
theorem SesInv.push_ne {x : ℕ} (h : SesInv s x) (hd : (s.calls s.started).pc = .done)
    (hc : s'.calls = (s.push c).calls) (hx : x ≠ c.ses) (hr : s'.sessions x = s.sessions x)
    (hs : s'.slots = s.slots) : SesInv s' x := by
  refine h.congr_calls hr (by unfold slotsOf; rw [hs]) fun j hj => push_calls_ne hc ?_
  rintro rfl
  rcases hj with ⟨hj, -⟩ | ⟨-, hj⟩
  · rw [push_calls hc] at hj
    exact hx hj.symm
  · exact hj hd

/-- `start` is entered again, in a session that lives. -/
theorem Inv.push (h : Inv s) (hpc : c.pc = .find) (halive : (s.sessions c.ses).alive = true) : Inv (s.push c) := by
  have hd := h.fresh s.started (Nat.le_refl _)
  refine ⟨fun j hj => ?_, h.uncreated, fun x => ?_⟩
  · have hj : s.started + 1 ≤ j := hj
    rw [push_calls_ne rfl (by omega), h.fresh j (by omega)]
  by_cases hx : x = c.ses
  · subst hx
    have hses := h.ses c.ses
    refine ⟨hses.tied, fun j hj hm => ?_, fun _ => ?_, fun hdead => ?_⟩
    · by_cases hjs : j = s.started
      · rw [hjs, push_calls rfl, hpc] at hm
        cases hm
      · rw [push_calls_ne rfl hjs] at hm
        exact hses.held j ((inside_push rfl hjs).mp hj) hm
    · obtain ⟨j, hj, ho⟩ := hses.owned halive
      have hjs : j ≠ s.started := by
        rintro rfl
        exact hj.2 hd
      refine ⟨j, (inside_push rfl hjs).mpr hj, ?_⟩
      rw [push_calls_ne rfl hjs]
      exact ho
    · rw [show (s.push c).sessions = s.sessions from rfl, halive] at hdead
      cases hdead
  · exact (h.ses x).push_ne hd rfl hx rfl rfl

/-- A session is created, and a thread that calls its `start`. -/
theorem Inv.spawn (h : Inv s) (ip : Str) :
    Inv { s.push ⟨s.created, true, .find⟩ with
      sessions := Function.update s.sessions s.created ⟨ip, none, none, false, true⟩
      created := s.created + 1 } := by
  have hd := h.fresh s.started (Nat.le_refl _)
  obtain ⟨hslots, hcalls⟩ := (h.ses s.created).dead (h.uncreated _ (Nat.le_refl _))
  refine ⟨fun j hj => ?_, fun x hx => ?_, fun x => ?_⟩
  · have hj : s.started + 1 ≤ j := hj
    rw [push_calls_ne rfl (by omega), h.fresh j (by omega)]
  · have hx : s.created + 1 ≤ x := hx
    dsimp only
    rw [Function.update_of_ne (by omega), h.uncreated x (by omega)]
  by_cases hx : x = s.created
  · subst hx
    refine ⟨.inl hslots, fun j hj hm => ?_, fun _ => ⟨s.started, ?_, ?_⟩, fun hdead => ?_⟩
    · by_cases hjs : j = s.started
      · rw [hjs, push_calls rfl] at hm
        cases hm
      · exact absurd ((inside_push rfl hjs).mp hj) (hcalls j)
    · unfold Inside
      rw [push_calls rfl]
      simp
    · rw [push_calls rfl]
    · dsimp only at hdead
      rw [Function.update_self] at hdead
      cases hdead
  · exact (h.ses x).push_ne hd rfl hx (Function.update_of_ne hx ..) rfl

end Push

/-! ### Every step -/

theorem Inv.mainStep (h : Inv s) (hs : s.mainStep = some s') : Inv s' := by
  unfold Slots.mainStep at hs
  split at hs
  · cases hs
  · cases hs
    exact h.congr rfl rfl rfl rfl fun _ => rfl
  · rename_i p x todo hm
    split at hs
    · split at hs
      · rename_i halive
        cases hs
        have hpush : Inv ((s.stopWaits x .cancelled).push ⟨x, false, .find⟩) :=
          (h.stopWaits x .cancelled).push rfl halive
        exact hpush.congr rfl rfl rfl rfl fun _ => rfl
      · cases hs
    · cases hs
      exact h.congr rfl rfl rfl rfl fun _ => rfl
  · split at hs
    · cases hs
      exact h.congr rfl rfl rfl rfl fun _ => rfl
    · cases hs

/-- A connection that no session points to has no slots. -/
theorem Inv.destroy (h : Inv s) {p : ℕ} (hp : s.Unowned p) :
    Inv { s with slots := s.slots.filter fun e => e.1 ≠ p } := by
  refine h.congr rfl rfl rfl rfl fun x => ?_
  have hnot : p ∉ s.slotsOf x := by
    intro hmem
    have hses := h.ses x
    have hne : s.slotsOf x ≠ [] := List.ne_nil_of_mem hmem
    have halive := hses.alive hne
    obtain ⟨q, hq, -, hpconn⟩ := hses.tied.resolve_left hne
    rw [hq, List.mem_singleton] at hmem
    have hlt : x < s.created := by
      by_contra hge
      rw [h.uncreated x (by omega)] at halive
      cases halive
    exact hp.2.2 x hlt halive (hmem ▸ hpconn)
  unfold slotsOf
  rw [List.filter_filter]
  congr 1
  refine List.filter_congr fun e he => ?_
  by_cases hx : e.2 = x
  · have hep : e.1 ≠ p := by
      rintro rfl
      exact hnot (mem_slotsOf.mpr (hx ▸ he))
    simp [hx, hep]
  · simp [hx]

theorem inv_step (h : Inv s) (ha : s.Ok a) (hs : s.step a = some s') : Inv s' := by
  unfold step at hs
  split at hs
  case h_6 => exact h.mainStep hs -- main
  case h_7 => cases hs; exact h.spawn _
  case h_8 => exact h.call ha hs
  all_goals
    split at hs
    swap
    · cases hs
  case h_1.isTrue => -- accept
    cases hs
    unfold poolStart
    split <;> exact h.congr rfl rfl rfl rfl fun _ => rfl
  case h_5.isTrue => -- destroy
    cases hs
    exact h.destroy ‹_›
  all_goals
    cases hs
    exact h.congr rfl rfl rfl rfl fun _ => rfl

theorem boot_inv : Inv boot := by
  refine ⟨fun _ _ => rfl, fun _ _ => rfl, fun x => ⟨.inl rfl, fun j hj _ => ?_, fun ha => ?_, fun _ => ?_⟩⟩
  · exact absurd rfl hj.2
  · cases ha
  · exact ⟨rfl, fun j hj => hj.2 rfl⟩

theorem Inv.followed (h : Inv s) : Followed s := by
  constructor
  · intro p x hpx
    have hses := h.ses x
    have hne : s.slotsOf x ≠ [] := List.ne_nil_of_mem (mem_slotsOf.mpr hpx)
    obtain ⟨j, hj, -⟩ := hses.owned (hses.alive hne)
    refine ⟨j, ?_, hj⟩
    by_contra hge
    exact hj.2 (h.fresh j (by omega))
  · rintro j ⟨inLoop, hj⟩
    have hses := h.ses (s.calls j).ses
    have hne := hses.held j ⟨rfl, by simp [hj]⟩ (by rw [hj]; rfl)
    obtain ⟨p, hp, -, hpconn⟩ := hses.tied.resolve_left hne
    exact ⟨p, hpconn, hp⟩

/-- **Restart slots follow the session.** In a run whose steps all meet `Ok`,
every slot is one of a session inside `start`, and who waits for a restart has
one slot, on its own connection. -/
theorem followed_of_reach (h : Trans.Reach step Ok boot s) : Followed s :=
  (h.invariant boot_inv fun _ _ _ hI ha hs => inv_step hI ha hs).followed

/-! ### A session with and without a restart -/

/-- Phone p is connected, a session of it has its slot, and the script is not
there: the session waits for a restart. -/
def awaitsRestart : List Act :=
  [.accept (Str.of "p"), .spawn (Str.of "p"), .call 0 .go, .call 0 .go, .call 0 .err]

/-- The phone answers, the script is not there still, and the restart timer
takes the slot before the two calls return. -/
def restartsAndExpires : List Act :=
  awaitsRestart ++ [.restartReply 0, .main, .call 1 .go, .call 1 .go, .call 1 .err, .call 0 .go, .call 1 .expired,
    .call 1 .go, .main, .main, .call 0 .go]

def expired : Slots := (Trans.run (Trans.guarded step Ok) boot restartsAndExpires).get (by decide +kernel)

theorem followed_of_reach_expired : Followed expired :=
  followed_of_reach (Trans.Reach.of_guarded (Option.some_get _).symm)

/-- The script is there, and there is no account to work on. -/
def endsAtOnce : List Act :=
  [.accept (Str.of "p"), .spawn (Str.of "p"), .call 0 .go, .call 0 .go, .call 0 .ok, .call 0 .go, .call 0 .go,
    .call 0 .go]

def ended : Slots := (Trans.run step boot endsAtOnce).get (by decide)

/-- The session has returned, and is destroyed; its slot is connected. -/
theorem left_behind : ¬ ∀ s, Trans.Reach step (fun _ _ => True) boot s → Followed s := by
  intro h
  have hslot : (0, 0) ∈ ended.slots := by decide
  obtain ⟨j, hj, hin⟩ := (h ended (Trans.Reach.of_run (Option.some_get _).symm)).live 0 0 hslot
  have hnone : ∀ j < ended.started, ¬ ended.Inside j 0 := by decide
  exact hnone j hj hin

/-- The answer was read before the phone connected anew, and is handled after:
the session waits for the new connection, its slot is on the old one. -/
example :
    (Trans.run step boot (awaitsRestart ++ [.accept (Str.of "p"), .restartReply 0, .main, .call 1 .go, .call 1 .go,
      .call 1 .err])).map (fun s => ((s.calls 1).pc, (s.sessions 0).pconn, s.slotsOf 0)) =
      some (.wait false .armed, some 1, [0]) := by
  decide

/-- The timer runs out on the first call while the second is connecting. -/
example :
    (Trans.run step boot (awaitsRestart ++ [.restartReply 0, .main, .call 1 .go, .call 1 .go, .call 0 .expired,
      .call 1 .err])).map (fun s => ((s.calls 1).pc, (s.sessions 0).pconn, s.slotsOf 0)) =
      some (.wait false .armed, some 0, []) := by
  decide

end Inv

end Slots

end ScheduleCenter
