/-
# The timers of a session

A session runs its `ios_` for each command it has sent, with a read and a timer
of four minutes, and after a failed connect with a timer that the constructor
has set to a minute. Three handlers may be called: `handle_read` cancels the
read timer, `on_read_timeout` closes the socket, asks the phone for a restart
and waits one minute, `on_restart_lua_timeout` ends that wait and disconnects
the slot.

A read that is done and a read timer that has run out may come together; then
both handlers are called, in either order, since a cancel does not reach a
handler that is queued. And `handle_read` may throw at what it reads: nothing
catches that, and the process ends (`threw`). Built with `_DEBUG` it prints the
peer of its socket, and always throws if the timer's handler has closed it.

All the same `handle_read` is called once for each command, `ios_.run()` ends at
most five minutes after the write, nothing is left outstanding for the next
command, and a session asks for a restart at most once, after which it sends no
command; and an exception comes within four minutes of the last command
(`session_log`). After a failed connect it waits until a minute after its
construction: not at all if the connect took longer.

Not modelled: what `handle_read` makes of a reply (whether it throws is the
outside's choice), and `on_restart_lua_end`, with which the main thread enters
the session as well.

Key definitions: `Session`, `step`, `outs`, `Command`, `Waiting`, `Told`.
Key theorems: `step_cases`, `told_step`, `session_log`, `run_in_time`, `run_returns`.
-/
import ScheduleCenter.Base.Proactor
import ScheduleCenter.Base.Trans
import Mathlib.Data.Finset.Insert

namespace ScheduleCenter

namespace SessionTimers

open Proactor

/-- The objects with an operation: `socket_`, `read_timer_`, `restart_lua_timer_`. -/
inductive Object
  | socket | readTimer | restartTimer
deriving DecidableEq

instance : Fintype Object := ⟨{.socket, .readTimer, .restartTimer}, fun k => by cases k <;> simp⟩

/-- Where the session's thread is: in `socket_.connect`, in the loop of
`on_connected` outside `ios_.run()`, inside it (from the loop, or after a failed
connect), past both, or gone with an exception of `handle_read`. -/
inductive Place
  | connecting
  | loop
  | running (inLoop : Bool)
  | finished
  | threw
deriving DecidableEq

/-- `minutes(n)`, in seconds. -/
def minutes (n : ℕ) : ℕ := n * 60

/-- A session: `expires_at()` of its timers, whether its socket is open and its
slot connected. -/
structure Session where
  ios : Service Object
  readExpiry : ℕ
  restartExpiry : ℕ
  isOpen : Bool
  slot : Bool
  place : Place

/-- Constructed at a time, and `start` has connected the slot. -/
def Session.init (t₀ : ℕ) : Session where
  ios := ⟨t₀, fun _ => .idle⟩
  readExpiry := t₀ + minutes 3
  restartExpiry := t₀ + minutes 1
  isOpen := false
  slot := true
  place := .connecting

/-- What happens: time passes; the connect or a write is over; the loop ends;
the read is done; a timer runs out; a handler is called; `handle_read` is called
and throws; `ios_.run()` returns. -/
inductive Label
  | tick
  | connect (ok : Bool)
  | write (ok : Bool)
  | leave
  | complete (ok : Bool)
  | expire (k : Object)
  | handle (k : Object)
  | throws
  | ret

/-- What the outside sees of a session, and when. -/
inductive Out
  | sent (t : ℕ)
  | handled (t : ℕ) (ok : Bool)
  | restart (t : ℕ)
  | returned (t : ℕ)
  | threw (t : ℕ)
deriving DecidableEq

namespace Session

def now (s : Session) : ℕ := s.ios.now

/-- The timers and the socket after a command is written. -/
def afterWrite (s : Session) : Session :=
  { s with
    readExpiry := s.now + minutes 4
    ios := (s.ios.wait .readTimer (s.now + minutes 4)).start .socket
    place := .running true }

/-- The connect has failed: the restart timer, as the constructor has set it. -/
def afterFailure (s : Session) : Session :=
  { s with ios := s.ios.wait .restartTimer s.restartExpiry, place := .running false }

/-- `handle_read`, as far as it is about the timers. -/
def handleRead (s : Session) : Session := { s with ios := s.ios.cancel .readTimer }

/-- `on_read_timeout`: `close` cancels the read, `expires_from_now` a wait of the restart timer. -/
def onReadTimeout (s : Session) (ok : Bool) : Session :=
  if ok = false then s
  else if s.readExpiry > s.now then s
  else
    { s with
      isOpen := false
      restartExpiry := s.now + minutes 1
      ios := (((if s.isOpen then s.ios.cancel .socket else s.ios).cancel .restartTimer).wait .restartTimer
        (s.now + minutes 1)) }

/-- `on_restart_lua_timeout`. -/
def onRestartLuaTimeout (s : Session) (ok : Bool) : Session :=
  if ok = false then s else if s.restartExpiry > s.now then s else { s with slot := false }

/-- The handler of an object. -/
def handler (s : Session) : Object → Bool → Session
  | .socket, _ => s.handleRead
  | .readTimer, ok => s.onReadTimeout ok
  | .restartTimer, ok => s.onRestartLuaTimeout ok

def isRunning (s : Session) : Bool :=
  match s.place with
  | .running _ => true
  | _ => false

/-- `handle_read` gets bytes and prints the peer of a socket that is closed. -/
def mustThrow (debug : Bool) (s : Session) : Object → Bool → Bool
  | .socket, ok => debug && ok && !s.isOpen
  | _, _ => false

end Session

/-- One step. Outside `ios_.run()` the thread may take any time; after an exception
there is none. -/
def step (debug : Bool) (s : Session) : Label → Option Session
  | .tick =>
    if s.isRunning then s.ios.tick.map fun ios => { s with ios := ios }
    else if s.place = .threw then none
    else some { s with ios := { s.ios with now := s.now + 1 } }
  | .connect ok =>
    if s.place = .connecting then some (if ok then { s with isOpen := true, place := .loop } else s.afterFailure)
    else none
  | .write ok =>
    if s.place = .loop ∧ (ok → s.isOpen) then some (if ok then s.afterWrite else s) else none
  | .leave => if s.place = .loop then some { s with isOpen := false, place := .finished } else none
  | .complete ok =>
    if s.isRunning then (s.ios.complete .socket ok).map fun ios => { s with ios := ios } else none
  | .expire k => if s.isRunning then (s.ios.expire k).map fun ios => { s with ios := ios } else none
  | .handle k =>
    if s.isRunning then (s.ios.take k).bind fun p =>
      if s.mustThrow debug k p.1 then none else some ({ s with ios := p.2 }.handler k p.1)
    else none
  | .throws =>
    if s.isRunning then (s.ios.take .socket).bind fun p =>
      -- an error code is not looked into
      if p.1 then some { { s with ios := p.2 }.handleRead with place := .threw } else none
    else none
  | .ret =>
    match s.place with
    | .running inLoop => if s.ios.Quiet then some { s with place := if inLoop then .loop else .finished } else none
    | _ => none

/-- What a step puts out. -/
def outs (s : Session) : Label → List Out
  | .connect false => [.restart s.now]
  | .write true => [.sent s.now]
  | .handle .socket =>
    match s.ios.op .socket with
    | .ready ok => [.handled s.now ok]
    | _ => []
  | .handle .readTimer => if s.ios.op .readTimer = .ready true ∧ s.readExpiry ≤ s.now then [.restart s.now] else []
  | .throws => [.threw s.now]
  | .ret => [.returned s.now]
  | _ => []

/-! ### One step -/

/-- What a step can be, what it puts out, and where it leads. -/
inductive StepCase (s : Session) : Label → List Out → Session → Prop
  | pass (hplace : s.isRunning = false) (hgoing : s.place ≠ .threw) :
    StepCase s .tick [] { s with ios := { s.ios with now := s.now + 1 } }
  | wait (hplace : s.isRunning = true) (hrest : s.ios.Resting) :
    StepCase s .tick [] { s with ios := { s.ios with now := s.now + 1 } }
  | connect (hplace : s.place = .connecting) :
    StepCase s (.connect true) [] { s with isOpen := true, place := .loop }
  | failure (hplace : s.place = .connecting) : StepCase s (.connect false) [.restart s.now] s.afterFailure
  | write (hplace : s.place = .loop) (hopen : s.isOpen = true) : StepCase s (.write true) [.sent s.now] s.afterWrite
  | writeError (hplace : s.place = .loop) : StepCase s (.write false) [] s
  | leave (hplace : s.place = .loop) : StepCase s .leave [] { s with isOpen := false, place := .finished }
  | complete {ok : Bool} (hplace : s.isRunning = true) (hop : s.ios.op .socket = .waiting none) :
    StepCase s (.complete ok) [] { s with ios := s.ios.set .socket (.ready ok) }
  | expire {k : Object} (hplace : s.isRunning = true) (hop : s.ios.op k = .waiting (some s.now)) :
    StepCase s (.expire k) [] { s with ios := s.ios.set k (.ready true) }
  | read {ok : Bool} (hplace : s.isRunning = true) (hop : s.ios.op .socket = .ready ok) :
    StepCase s (.handle .socket) [.handled s.now ok] { s with ios := s.ios.set .socket .idle }.handleRead
  | threw (hplace : s.isRunning = true) (hop : s.ios.op .socket = .ready true) :
    StepCase s .throws [.threw s.now] { { s with ios := s.ios.set .socket .idle }.handleRead with place := .threw }
  | readTimeout {ok : Bool} (hplace : s.isRunning = true) (hop : s.ios.op .readTimer = .ready ok) :
    StepCase s (.handle .readTimer) (if ok = true ∧ s.readExpiry ≤ s.now then [.restart s.now] else [])
      ({ s with ios := s.ios.set .readTimer .idle }.onReadTimeout ok)
  | restartTimeout {ok : Bool} (hplace : s.isRunning = true) (hop : s.ios.op .restartTimer = .ready ok) :
    StepCase s (.handle .restartTimer) [] ({ s with ios := s.ios.set .restartTimer .idle }.onRestartLuaTimeout ok)
  | ret {inLoop : Bool} (hplace : s.place = .running inLoop) (hquiet : s.ios.Quiet) :
    StepCase s .ret [.returned s.now] { s with place := if inLoop then .loop else .finished }

variable {debug : Bool} {s s' : Session} {a : Label}

theorem step_cases (hs : step debug s a = some s') : StepCase s a (outs s a) s' := by
  cases a with
  | tick =>
    by_cases hplace : s.isRunning = true
    · simp only [step, if_pos hplace, Option.map_eq_some_iff] at hs
      obtain ⟨ios, hios, rfl⟩ := hs
      obtain ⟨hrest, rfl⟩ := Service.tick_eq_some.mp hios
      exact .wait hplace hrest
    · simp only [step, if_neg hplace, Option.ite_none_left_eq_some, Option.some.injEq] at hs
      obtain ⟨hgoing, rfl⟩ := hs
      exact .pass (by simpa using hplace) hgoing
  | connect ok =>
    simp only [step, Option.ite_none_right_eq_some, Option.some.injEq] at hs
    obtain ⟨hplace, rfl⟩ := hs
    cases ok with
    | true => exact .connect hplace
    | false => exact .failure hplace
  | write ok =>
    simp only [step, Option.ite_none_right_eq_some, Option.some.injEq] at hs
    obtain ⟨⟨hplace, hopen⟩, rfl⟩ := hs
    cases ok with
    | true => exact .write hplace (hopen rfl)
    | false => exact .writeError hplace
  | leave =>
    simp only [step, Option.ite_none_right_eq_some, Option.some.injEq] at hs
    obtain ⟨hplace, rfl⟩ := hs
    exact .leave hplace
  | complete ok =>
    simp only [step, Option.ite_none_right_eq_some, Option.map_eq_some_iff] at hs
    obtain ⟨hplace, ios, hios, rfl⟩ := hs
    obtain ⟨hop, rfl⟩ := Service.complete_eq_some.mp hios
    exact .complete hplace hop
  | expire k =>
    simp only [step, Option.ite_none_right_eq_some, Option.map_eq_some_iff] at hs
    obtain ⟨hplace, ios, hios, rfl⟩ := hs
    obtain ⟨hop, rfl⟩ := Service.expire_eq_some.mp hios
    exact .expire hplace hop
  | handle k =>
    simp only [step, Option.ite_none_right_eq_some, Option.bind_eq_some_iff, Option.ite_none_left_eq_some,
      Option.some.injEq] at hs
    obtain ⟨hplace, ⟨ok, ios⟩, hios, -, rfl⟩ := hs
    obtain ⟨hop, rfl⟩ := Service.take_eq_some.mp hios
    cases k with
    | socket =>
      have houts : outs s (.handle .socket) = [.handled s.now ok] := by simp only [outs, hop]
      rw [houts]
      exact .read hplace hop
    | readTimer =>
      have houts : outs s (.handle .readTimer) =
          if ok = true ∧ s.readExpiry ≤ s.now then [.restart s.now] else [] := by
        simp only [outs, hop, Op.ready.injEq]
      rw [houts]
      exact .readTimeout hplace hop
    | restartTimer => exact .restartTimeout hplace hop
  | throws =>
    simp only [step, Option.ite_none_right_eq_some, Option.bind_eq_some_iff, Option.some.injEq] at hs
    obtain ⟨hplace, ⟨ok, ios⟩, hios, hok, rfl⟩ := hs
    obtain ⟨hop, rfl⟩ := Service.take_eq_some.mp hios
    dsimp only at hok
    subst hok
    exact .threw hplace hop
  | ret =>
    simp only [step] at hs
    split at hs
    · simp only [Option.ite_none_right_eq_some, Option.some.injEq] at hs
      obtain ⟨hquiet, rfl⟩ := hs
      exact .ret ‹_› hquiet
    · cases hs

/-! ### What a command comes to -/

/-- A command whose reply came in time: when it was sent, when `handle_read` was
called, and with what. -/
structure Command where
  sent : ℕ
  handled : ℕ
  ok : Bool

def Command.outs (c : Command) : List Out := [.sent c.sent, .handled c.handled c.ok, .returned c.handled]

/-- Within four minutes. -/
def Command.InTime (c : Command) : Prop := c.sent ≤ c.handled ∧ c.handled ≤ c.sent + minutes 4

/-- The two handlers of a command at its fourth minute, in either order. -/
def bothOuts (t : ℕ) (ok readFirst : Bool) : List Out :=
  if readFirst then [.handled (t + minutes 4) ok, .restart (t + minutes 4)]
  else [.restart (t + minutes 4), .handled (t + minutes 4) ok]

/-- A command whose read timer ran out. -/
def lateOuts (t : ℕ) (ok readFirst : Bool) : List Out :=
  .sent t :: (bothOuts t ok readFirst ++ [.returned (t + minutes 5)])

/-- What a session has put out before it draws the next account, by whether its slot
is still connected: commands that were answered in time, and the last may not be. -/
inductive Sent : Bool → List Out → Prop
  | answered {cs : List Command} (hcs : ∀ c ∈ cs, c.InTime) : Sent true (cs.flatMap Command.outs)
  | late {cs : List Command} (hcs : ∀ c ∈ cs, c.InTime) (t : ℕ) (ok readFirst : Bool) :
    Sent false (cs.flatMap Command.outs ++ lateOuts t ok readFirst)

/-- What a command has put out whose reply made `handle_read` throw: in time, or at its
fourth minute after the restart was asked for. -/
inductive Threw (t : ℕ) : List Out → Prop
  | inTime {u : ℕ} (hu : t ≤ u ∧ u ≤ t + minutes 4) : Threw t [.sent t, .threw u]
  | late : Threw t [.sent t, .restart (t + minutes 4), .threw (t + minutes 4)]

/-- What `ios_.run()` waits for after a command sent at `t`, and what it has put out. -/
inductive Waiting (t : ℕ) (s : Session) : List Out → Prop
  | outstanding (hread : s.ios.op .socket = .waiting none ∨ ∃ ok, s.ios.op .socket = .ready ok)
      (htimer : s.ios.op .readTimer = .waiting (some (t + minutes 4)) ∨
        s.ios.op .readTimer = .ready true ∧ s.now = t + minutes 4)
      (hrestart : s.ios.op .restartTimer = .idle) (hexpiry : s.readExpiry = t + minutes 4)
      (hnow : t ≤ s.now ∧ s.now ≤ t + minutes 4) (hopen : s.isOpen = true) (hslot : s.slot = true) :
    Waiting t s [.sent t]
  | answered (ok : Bool) (hread : s.ios.op .socket = .idle)
      (htimer : s.ios.op .readTimer = .ready false ∨ s.ios.op .readTimer = .idle)
      (hrestart : s.ios.op .restartTimer = .idle)
      (hnow : t ≤ s.now ∧ s.now ≤ t + minutes 4) (hopen : s.isOpen = true) (hslot : s.slot = true) :
    Waiting t s [.sent t, .handled s.now ok]
  | crossed (ok : Bool) (hread : s.ios.op .socket = .idle) (htimer : s.ios.op .readTimer = .ready true)
      (hrestart : s.ios.op .restartTimer = .idle) (hexpiry : s.readExpiry = t + minutes 4)
      (hnow : s.now = t + minutes 4) (hslot : s.slot = true) :
    Waiting t s [.sent t, .handled (t + minutes 4) ok]
  | closed (hread : ∃ ok, s.ios.op .socket = .ready ok) (htimer : s.ios.op .readTimer = .idle)
      (hrestart : s.ios.op .restartTimer = .waiting (some (t + minutes 5))) (hexpiry : s.restartExpiry = t + minutes 5)
      (hnow : s.now = t + minutes 4) (hopen : s.isOpen = false) (hslot : s.slot = true) :
    Waiting t s [.sent t, .restart (t + minutes 4)]
  | restarting (ok readFirst : Bool) (hread : s.ios.op .socket = .idle) (htimer : s.ios.op .readTimer = .idle)
      (hrestart : s.ios.op .restartTimer = .waiting (some (t + minutes 5)) ∨
        s.ios.op .restartTimer = .ready true ∧ s.now = t + minutes 5)
      (hexpiry : s.restartExpiry = t + minutes 5) (hnow : t ≤ s.now ∧ s.now ≤ t + minutes 5)
      (hopen : s.isOpen = false) (hslot : s.slot = true) :
    Waiting t s (.sent t :: bothOuts t ok readFirst)
  | restarted (ok readFirst : Bool) (hquiet : s.ios.Quiet) (hnow : s.now = t + minutes 5)
      (hopen : s.isOpen = false) (hslot : s.slot = false) :
    Waiting t s (.sent t :: bothOuts t ok readFirst)

section Waiting

variable {t : ℕ} {g : List Out} {ok : Bool}

/-- Who rests has nothing to call. -/
theorem not_ready (h : s.ios.Resting) (k : Object) (ok : Bool) : s.ios.op k ≠ .ready ok := (h.2 k).2 ok

theorem not_resting_of_idle (hread : s.ios.op .socket = .idle) (htimer : s.ios.op .readTimer = .idle)
    (hrestart : s.ios.op .restartTimer = .idle) : ¬ s.ios.Resting := by
  rintro ⟨⟨k, hk⟩, -⟩
  cases k
  · exact hk hread
  · exact hk htimer
  · exact hk hrestart

theorem Waiting.wait (h : Waiting t s g) (hrest : s.ios.Resting) :
    Waiting t { s with ios := { s.ios with now := s.now + 1 } } g := by
  have hdue : ∀ k, s.ios.op k ≠ .waiting (some s.now) := fun k => (hrest.2 k).1
  cases h with
  | outstanding hread htimer hrestart hexpiry hnow hopen hslot =>
    have htimer := htimer.resolve_right fun h => not_ready hrest _ _ h.1
    have hne : s.now ≠ t + minutes 4 := fun heq => hdue .readTimer (heq ▸ htimer)
    refine .outstanding hread (Or.inl htimer) hrestart hexpiry ⟨?_, ?_⟩ hopen hslot
    · exact Nat.le_succ_of_le hnow.1
    · exact Nat.succ_le_of_lt (lt_of_le_of_ne hnow.2 hne)
  | answered ok hread htimer hrestart =>
    rcases htimer with htimer | htimer
    · exact absurd htimer (not_ready hrest _ _)
    · exact absurd hrest (not_resting_of_idle hread htimer hrestart)
  | crossed ok hread htimer => exact absurd htimer (not_ready hrest _ _)
  | closed hread =>
    obtain ⟨ok, hread⟩ := hread
    exact absurd hread (not_ready hrest _ _)
  | restarting ok readFirst hread htimer hrestart hexpiry hnow hopen hslot =>
    have hrestart := hrestart.resolve_right fun h => not_ready hrest _ _ h.1
    have hne : s.now ≠ t + minutes 5 := fun heq => hdue .restartTimer (heq ▸ hrestart)
    refine .restarting ok readFirst hread htimer (Or.inl hrestart) hexpiry ⟨?_, ?_⟩ hopen hslot
    · exact Nat.le_succ_of_le hnow.1
    · exact Nat.succ_le_of_lt (lt_of_le_of_ne hnow.2 hne)
  | restarted ok readFirst hquiet => exact absurd hrest (not_resting_of_idle (hquiet _) (hquiet _) (hquiet _))

theorem Waiting.complete (h : Waiting t s g) (hop : s.ios.op .socket = .waiting none) :
    Waiting t { s with ios := s.ios.set .socket (.ready ok) } g := by
  cases h with
  | outstanding hread htimer hrestart hexpiry hnow hopen hslot =>
    refine .outstanding (Or.inr ⟨ok, by simp⟩) ?_ ?_ hexpiry hnow hopen hslot
    · simpa [Service.op_set, Session.now] using htimer
    · simpa [Service.op_set] using hrestart
  | answered ok hread => simp [hread] at hop
  | crossed ok hread => simp [hread] at hop
  | closed hread =>
    obtain ⟨ok, hread⟩ := hread
    simp [hread] at hop
  | restarting ok readFirst hread => simp [hread] at hop
  | restarted ok readFirst hquiet => simp [hquiet _] at hop

theorem Waiting.expire {k : Object} (h : Waiting t s g) (hop : s.ios.op k = .waiting (some s.now)) :
    Waiting t { s with ios := s.ios.set k (.ready true) } g := by
  cases h with
  | outstanding hread htimer hrestart hexpiry hnow hopen hslot =>
    cases k with
    | socket => rcases hread with hread | ⟨ok, hread⟩ <;> simp [hread] at hop
    | readTimer =>
      have hlast : s.now = t + minutes 4 := by
        rcases htimer with htimer | htimer
        · rw [htimer] at hop
          exact (Option.some.inj (Op.waiting.inj hop)).symm
        · exact htimer.2
      refine .outstanding ?_ (Or.inr ⟨by simp, hlast⟩) ?_ hexpiry hnow hopen hslot
      · simpa [Service.op_set] using hread
      · simpa [Service.op_set] using hrestart
    | restartTimer => simp [hrestart] at hop
  | answered ok hread htimer hrestart =>
    cases k with
    | socket => simp [hread] at hop
    | readTimer => rcases htimer with htimer | htimer <;> simp [htimer] at hop
    | restartTimer => simp [hrestart] at hop
  | crossed ok hread htimer hrestart =>
    cases k with
    | socket => simp [hread] at hop
    | readTimer => simp [htimer] at hop
    | restartTimer => simp [hrestart] at hop
  | closed hread htimer hrestart hexpiry hnow hopen hslot =>
    cases k with
    | socket =>
      obtain ⟨ok, hread⟩ := hread
      simp [hread] at hop
    | readTimer => simp [htimer] at hop
    | restartTimer =>
      rw [hrestart, hnow] at hop
      have heq := Option.some.inj (Op.waiting.inj hop)
      simp [minutes] at heq
  | restarting ok readFirst hread htimer hrestart hexpiry hnow hopen hslot =>
    cases k with
    | socket => simp [hread] at hop
    | readTimer => simp [htimer] at hop
    | restartTimer =>
      have hlast : s.now = t + minutes 5 := by
        rcases hrestart with hrestart | hrestart
        · rw [hrestart] at hop
          exact (Option.some.inj (Op.waiting.inj hop)).symm
        · exact hrestart.2
      refine .restarting ok readFirst ?_ ?_ (Or.inr ⟨by simp, hlast⟩) hexpiry hnow hopen hslot
      · simpa [Service.op_set] using hread
      · simpa [Service.op_set] using htimer
  | restarted ok readFirst hquiet => simp [hquiet _] at hop

/-- `handle_read` is called. -/
theorem Waiting.read (h : Waiting t s g) (hop : s.ios.op .socket = .ready ok) :
    Waiting t { s with ios := s.ios.set .socket .idle }.handleRead (g ++ [.handled s.now ok]) := by
  cases h with
  | outstanding hread htimer hrestart hexpiry hnow hopen hslot =>
    rcases htimer with htimer | ⟨htimer, hlast⟩
    · -- the timer has not run out: its wait is cancelled
      have hsame : { s with ios := s.ios.set .socket .idle }.handleRead.now = s.now := by
        simp [Session.handleRead, Session.now]
      rw [← hsame] at hnow ⊢
      refine .answered ok ?_ (Or.inl ?_) ?_ hnow hopen hslot
      · simp [Session.handleRead, Service.op_cancel_of_ne]
      · exact Service.op_cancel_of_waiting (by simpa [Service.op_set] using htimer)
      · simpa [Session.handleRead, Service.op_cancel_of_ne, Service.op_set] using hrestart
    · -- its handler is queued already
      have hcancel : (s.ios.set .socket .idle).cancel .readTimer = s.ios.set .socket .idle :=
        Service.cancel_of_not_waiting (by simp [Service.op_set, htimer])
      rw [Session.handleRead, hlast]
      dsimp only
      rw [hcancel]
      refine .crossed ok ?_ ?_ ?_ hexpiry hlast hslot
      · simp
      · simpa [Service.op_set] using htimer
      · simpa [Service.op_set] using hrestart
  | answered ok hread => simp [hread] at hop
  | crossed ok hread => simp [hread] at hop
  | closed hread htimer hrestart hexpiry hnow hopen hslot =>
    have hcancel : (s.ios.set .socket .idle).cancel .readTimer = s.ios.set .socket .idle :=
      Service.cancel_of_not_waiting (by simp [Service.op_set, htimer])
    rw [Session.handleRead, hnow]
    dsimp only
    rw [hcancel]
    refine .restarting ok false ?_ ?_ (Or.inl ?_) hexpiry ⟨?_, ?_⟩ hopen hslot
    · simp
    · simpa [Service.op_set] using htimer
    · simpa [Service.op_set] using hrestart
    · rw [Session.now] at hnow ⊢
      simp only [Service.now_set, hnow]
      omega
    · rw [Session.now] at hnow ⊢
      simp only [Service.now_set, hnow, minutes]
      omega
  | restarting ok readFirst hread => simp [hread] at hop
  | restarted ok readFirst hquiet => simp [hquiet _] at hop

/-- `handle_read` is called and throws. -/
theorem Waiting.threw (h : Waiting t s g) (hop : s.ios.op .socket = .ready ok) : Threw t (g ++ [.threw s.now]) := by
  cases h with
  | outstanding _ _ _ _ hnow => exact .inTime hnow
  | closed _ _ _ _ hnow =>
    rw [hnow]
    exact .late
  | answered _ hread => simp [hread] at hop
  | crossed _ hread => simp [hread] at hop
  | restarting _ _ hread => simp [hread] at hop
  | restarted _ _ hquiet => simp [hquiet _] at hop

/-- The read timer has run out. -/
theorem onReadTimeout_fired (h : s.readExpiry ≤ s.now) :
    s.onReadTimeout true = { s with
      isOpen := false
      restartExpiry := s.now + minutes 1
      ios := (((if s.isOpen then s.ios.cancel .socket else s.ios).cancel .restartTimer).wait .restartTimer
        (s.now + minutes 1)) } := by
  rw [Session.onReadTimeout, if_neg (by simp), if_neg (Nat.not_lt.mpr h)]

/-- What it leaves outstanding. -/
theorem ops_fired (h : s.readExpiry ≤ s.now) (hnow : s.now = t + minutes 4) :
    (s.onReadTimeout true).ios.op .restartTimer = .waiting (some (t + minutes 5)) ∧
      (s.onReadTimeout true).ios.op .readTimer = s.ios.op .readTimer ∧
      (s.onReadTimeout true).now = s.now ∧ (s.onReadTimeout true).restartExpiry = t + minutes 5 := by
  have hlater : s.now + minutes 1 = t + minutes 5 := by
    rw [hnow]
    simp only [minutes]
  rw [onReadTimeout_fired h]
  refine ⟨?_, ?_, ?_, hlater⟩
  · have hmax : max s.now (s.now + minutes 1) = t + minutes 5 := by
      rw [← hlater]
      exact Nat.max_eq_right (Nat.le_add_right _ _)
    split_ifs
    · simp [Service.wait, ← hmax, Session.now]
    · simp [Service.wait, ← hmax, Session.now]
  · split_ifs
    · simp [Service.wait, Service.op_set, Service.op_cancel_of_ne]
    · simp [Service.wait, Service.op_set, Service.op_cancel_of_ne]
  · split_ifs
    · simp [Session.now]
    · simp [Session.now]

/-- The close cancels a read. -/
theorem socket_fired (h : s.readExpiry ≤ s.now) :
    (s.onReadTimeout true).ios.op .socket =
      if s.isOpen then (s.ios.cancel .socket).op .socket else s.ios.op .socket := by
  rw [onReadTimeout_fired h]
  split_ifs
  · simp [Service.wait, Service.op_set, Service.op_cancel_of_ne]
  · simp [Service.wait, Service.op_set, Service.op_cancel_of_ne]

/-- `on_read_timeout` is called. -/
theorem Waiting.readTimeout (h : Waiting t s g) (hop : s.ios.op .readTimer = .ready ok) :
    Waiting t ({ s with ios := s.ios.set .readTimer .idle }.onReadTimeout ok)
      (g ++ if ok = true ∧ s.readExpiry ≤ s.now then [.restart s.now] else []) := by
  cases h with
  | outstanding hread htimer hrestart hexpiry hnow hopen hslot =>
    obtain ⟨htimer, hlast⟩ := htimer.resolve_left (by simp [hop])
    obtain rfl : ok = true := Op.ready.inj (hop.symm.trans htimer)
    have hfired : s.readExpiry ≤ s.now := by rw [hexpiry, hlast]
    obtain ⟨hwait, hidle, hsame, hlater⟩ :=
      ops_fired (s := { s with ios := s.ios.set .readTimer .idle }) hfired hlast
    have hsocket := socket_fired (s := { s with ios := s.ios.set .readTimer .idle }) hfired
    rw [if_pos ⟨rfl, hfired⟩, hlast]
    refine .closed ?_ (hidle.trans (by simp)) hwait hlater (hsame.trans hlast) ?_ ?_
    · rw [hsocket, if_pos hopen]
      rcases hread with hread | ⟨ok, hread⟩
      · exact ⟨false, Service.op_cancel_of_waiting (by simpa [Service.op_set] using hread)⟩
      · refine ⟨ok, ?_⟩
        rw [Service.cancel_of_not_waiting (by simp [Service.op_set, hread])]
        simpa [Service.op_set] using hread
    · rw [onReadTimeout_fired (by exact hfired)]
    · rw [onReadTimeout_fired (by exact hfired)]
      exact hslot
  | answered ok' hread htimer hrestart hnow hopen hslot =>
    have htimer := htimer.resolve_right (by simp [hop])
    obtain rfl : ok = false := Op.ready.inj (hop.symm.trans htimer)
    rw [if_neg (by simp), List.append_nil, Session.onReadTimeout, if_pos rfl]
    refine .answered ok' ?_ (Or.inr (by simp)) ?_ hnow hopen hslot
    · simpa [Service.op_set] using hread
    · simpa [Service.op_set] using hrestart
  | crossed ok' hread htimer hrestart hexpiry hlast hslot =>
    obtain rfl : ok = true := Op.ready.inj (hop.symm.trans htimer)
    have hfired : s.readExpiry ≤ s.now := by rw [hexpiry, hlast]
    obtain ⟨hwait, hidle, hsame, hlater⟩ :=
      ops_fired (s := { s with ios := s.ios.set .readTimer .idle }) hfired hlast
    have hsocket := socket_fired (s := { s with ios := s.ios.set .readTimer .idle }) hfired
    have hnow : t ≤ s.now ∧ s.now ≤ t + minutes 5 := by
      rw [hlast]
      simp only [minutes]
      omega
    rw [if_pos ⟨rfl, hfired⟩, hlast]
    refine .restarting ok' true ?_ (hidle.trans (by simp)) (Or.inl hwait) hlater (hsame.symm ▸ hnow) ?_ ?_
    · rw [hsocket]
      split_ifs
      · rw [Service.cancel_of_not_waiting (by simp [Service.op_set, hread])]
        simpa [Service.op_set] using hread
      · simpa [Service.op_set] using hread
    · rw [onReadTimeout_fired (by exact hfired)]
    · rw [onReadTimeout_fired (by exact hfired)]
      exact hslot
  | closed _ htimer => simp [htimer] at hop
  | restarting _ _ _ htimer => simp [htimer] at hop
  | restarted _ _ hquiet => simp [hquiet _] at hop

/-- `on_restart_lua_timeout` is called. -/
theorem Waiting.restartTimeout (h : Waiting t s g) (hop : s.ios.op .restartTimer = .ready ok) :
    Waiting t ({ s with ios := s.ios.set .restartTimer .idle }.onRestartLuaTimeout ok) g := by
  cases h with
  | outstanding _ _ hrestart => simp [hrestart] at hop
  | answered _ _ _ hrestart => simp [hrestart] at hop
  | crossed _ _ _ hrestart => simp [hrestart] at hop
  | closed _ _ hrestart => simp [hrestart] at hop
  | restarting ok' readFirst hread htimer hrestart hexpiry hnow hopen hslot =>
    obtain ⟨hrestart, hlast⟩ := hrestart.resolve_left (by simp [hop])
    obtain rfl : ok = true := Op.ready.inj (hop.symm.trans hrestart)
    have hdue : ¬ s.restartExpiry > s.now := by
      rw [hexpiry, hlast]
      exact lt_irrefl _
    have hover : { s with ios := s.ios.set .restartTimer .idle }.onRestartLuaTimeout true =
        { s with ios := s.ios.set .restartTimer .idle, slot := false } := if_neg hdue
    rw [hover]
    refine .restarted ok' readFirst (fun k => ?_) hlast hopen rfl
    cases k with
    | socket => simpa [Service.op_set] using hread
    | readTimer => simpa [Service.op_set] using htimer
    | restartTimer => simp
  | restarted _ _ hquiet => simp [hquiet _] at hop

/-- **`ios_.run()` returns:** the reply has come in time, or the phone has been
asked for a restart. -/
theorem Waiting.ret (h : Waiting t s g) (hquiet : s.ios.Quiet) :
    (∃ c : Command, c.InTime ∧ g ++ [.returned s.now] = c.outs ∧ s.isOpen = true ∧ s.slot = true) ∨
      ∃ ok readFirst, g ++ [.returned s.now] = lateOuts t ok readFirst ∧ s.isOpen = false ∧ s.slot = false := by
  cases h with
  | outstanding hread =>
    rcases hread with hread | ⟨ok, hread⟩
    · simp [hquiet _] at hread
    · simp [hquiet _] at hread
  | answered ok hread htimer hrestart hnow hopen hslot =>
    exact Or.inl ⟨⟨t, s.now, ok⟩, hnow, rfl, hopen, hslot⟩
  | crossed _ _ htimer => simp [hquiet _] at htimer
  | closed hread =>
    obtain ⟨ok, hread⟩ := hread
    simp [hquiet _] at hread
  | restarting _ _ _ _ hrestart => simp [hquiet _] at hrestart
  | restarted ok readFirst _ hnow hopen hslot =>
    refine Or.inr ⟨ok, readFirst, ?_, hopen, hslot⟩
    rw [hnow, lateOuts, List.cons_append]

end Waiting

/-! ### A session -/

/-- What a session has put out when it has returned, by whether its slot is still connected. -/
inductive Final (t₀ : ℕ) : Bool → List Out → Prop
  | sent {slot : Bool} {g : List Out} (h : Sent slot g) : Final t₀ slot g
  | failed {t : ℕ} (ht : t₀ ≤ t) : Final t₀ false [.restart t, .returned (max t (t₀ + minutes 1))]

/-- A session constructed at `t₀`, and all that it has put out. -/
inductive Told (t₀ : ℕ) (s : Session) : List Out → Prop
  | connecting (hplace : s.place = .connecting) (hquiet : s.ios.Quiet) (hexpiry : s.restartExpiry = t₀ + minutes 1)
      (hslot : s.slot = true) (hnow : t₀ ≤ s.now) : Told t₀ s []
  | failed {t : ℕ} (hplace : s.place = .running false) (hread : s.ios.op .socket = .idle)
      (htimer : s.ios.op .readTimer = .idle)
      (hrestart : s.ios.op .restartTimer = .waiting (some (max t (t₀ + minutes 1))) ∨
        s.ios.op .restartTimer = .ready true ∧ s.now = max t (t₀ + minutes 1))
      (hexpiry : s.restartExpiry = t₀ + minutes 1) (hslot : s.slot = true)
      (ht : t₀ ≤ t) : Told t₀ s [.restart t]
  | failedOver {t : ℕ} (hplace : s.place = .running false) (hquiet : s.ios.Quiet)
      (hnow : s.now = max t (t₀ + minutes 1)) (hslot : s.slot = false) (ht : t₀ ≤ t) : Told t₀ s [.restart t]
  | loop {g : List Out} (hplace : s.place = .loop) (hquiet : s.ios.Quiet) (hopen : s.isOpen = s.slot)
      (hsent : Sent s.slot g) : Told t₀ s g
  | running {t : ℕ} {cs : List Command} {g : List Out} (hplace : s.place = .running true) (hcs : ∀ c ∈ cs, c.InTime)
      (hwaiting : Waiting t s g) : Told t₀ s (cs.flatMap Command.outs ++ g)
  | finished {g : List Out} (hplace : s.place = .finished) (hquiet : s.ios.Quiet) (hfinal : Final t₀ s.slot g) :
    Told t₀ s g
  | threw {t : ℕ} {cs : List Command} {g : List Out} (hplace : s.place = .threw) (hcs : ∀ c ∈ cs, c.InTime)
      (hthrew : Threw t g) : Told t₀ s (cs.flatMap Command.outs ++ g)

section Told

variable {t₀ : ℕ} {g : List Out} {o : List Out}

theorem told_init (t₀ : ℕ) : Told t₀ (.init t₀) [] := .connecting rfl (fun _ => rfl) rfl rfl le_rfl

/-- The handlers are called in `ios_.run()`. -/
theorem isRunning_iff : s.isRunning = true ↔ ∃ inLoop, s.place = .running inLoop := by
  unfold Session.isRunning
  split
  · simp_all
  · simp_all

theorem Sent.snoc {cs : List Command} (hcs : ∀ c ∈ cs, c.InTime) {c : Command} (hc : c.InTime) :
    Sent true (cs.flatMap Command.outs ++ c.outs) := by
  have hall : ∀ c' ∈ cs ++ [c], c'.InTime := by
    intro c' hc'
    rcases List.mem_append.mp hc' with hc' | hc'
    · exact hcs c' hc'
    · exact List.mem_singleton.mp hc' ▸ hc
  have hsent := Sent.answered hall
  rwa [List.flatMap_append, List.flatMap_singleton] at hsent

/-- The commands of a session whose socket is open have all been answered in time. -/
theorem Sent.commands (h : Sent true g) : ∃ cs : List Command, (∀ c ∈ cs, c.InTime) ∧ g = cs.flatMap Command.outs := by
  cases h with
  | answered hcs => exact ⟨_, hcs, rfl⟩

/-- A command is written. -/
theorem waiting_afterWrite (hquiet : s.ios.Quiet) (hopen : s.isOpen = true) (hslot : s.slot = true) :
    Waiting s.now s.afterWrite [.sent s.now] := by
  refine .outstanding (Or.inl ?_) (Or.inl ?_) ?_ rfl ⟨le_rfl, Nat.le_add_right _ _⟩ hopen hslot
  · simp [Session.afterWrite, Service.start]
  · simp [Session.afterWrite, Service.start, Service.wait, Service.op_set, Session.now]
  · simp [Session.afterWrite, Service.start, Service.wait, Service.op_set, hquiet _]

/-- A step outside `ios_.run()`. -/
theorem Told.step_outside (h : Told t₀ s g) (hout : s.isRunning = false) (hcase : StepCase s a o s') :
    Told t₀ s' (g ++ o) := by
  have hnone : ∀ inLoop, s.place ≠ .running inLoop := by
    intro inLoop hplace
    rw [isRunning_iff.mpr ⟨inLoop, hplace⟩] at hout
    cases hout
  cases hcase with
  | pass _ hgoing =>
    rw [List.append_nil]
    cases h with
    | connecting hplace hquiet hexpiry hslot hnow =>
      exact .connecting hplace hquiet hexpiry hslot (Nat.le_succ_of_le hnow)
    | failed hplace => exact absurd hplace (hnone _)
    | failedOver hplace => exact absurd hplace (hnone _)
    | loop hplace hquiet hopen hsent => exact .loop hplace hquiet hopen hsent
    | running hplace => exact absurd hplace (hnone _)
    | finished hplace hquiet hfinal => exact .finished hplace hquiet hfinal
    | threw hplace => exact absurd hplace hgoing
  | connect hplace =>
    cases h with
    | connecting _ hquiet _ hslot =>
      have hsent : Sent true [] := @Sent.answered [] (by simp)
      exact .loop rfl hquiet hslot.symm (hslot ▸ hsent)
    | _ => simp_all
  | failure hplace =>
    cases h with
    | connecting _ hquiet hexpiry hslot hnow =>
      refine .failed rfl ?_ ?_ (Or.inl ?_) hexpiry hslot hnow
      · simp [Session.afterFailure, Service.wait, Service.op_set, hquiet _]
      · simp [Session.afterFailure, Service.wait, Service.op_set, hquiet _]
      · simp [Session.afterFailure, Service.wait, hexpiry, Session.now]
    | _ => simp_all
  | write hplace hopen =>
    cases h with
    | loop _ hquiet hsame hsent =>
      have hslot : s.slot = true := hsame.symm.trans hopen
      rw [hslot] at hsent
      obtain ⟨cs, hcs, rfl⟩ := hsent.commands
      exact .running rfl hcs (waiting_afterWrite hquiet hopen hslot)
    | _ => simp_all
  | writeError => rwa [List.append_nil]
  | leave hplace =>
    rw [List.append_nil]
    cases h with
    | loop _ hquiet _ hsent => exact .finished rfl hquiet (.sent hsent)
    | _ => simp_all
  | ret hplace => exact absurd hplace (hnone _)
  | wait hplace | complete hplace | expire hplace | read hplace | threw hplace | readTimeout hplace
  | restartTimeout hplace =>
    rw [hout] at hplace
    cases hplace

@[simp]
theorem place_onReadTimeout {ok : Bool} : (s.onReadTimeout ok).place = s.place := by
  unfold Session.onReadTimeout
  split_ifs <;> rfl

@[simp]
theorem place_onRestartLuaTimeout {ok : Bool} : (s.onRestartLuaTimeout ok).place = s.place := by
  unfold Session.onRestartLuaTimeout
  split_ifs <;> rfl

/-- A step of `ios_.run()` for a command. -/
theorem Waiting.told {t : ℕ} {cs : List Command} (h : Waiting t s g) (hplace : s.place = .running true)
    (hcs : ∀ c ∈ cs, c.InTime) (hcase : StepCase s a o s') : Told t₀ s' (cs.flatMap Command.outs ++ (g ++ o)) := by
  have hrunning : s.isRunning = true := isRunning_iff.mpr ⟨true, hplace⟩
  cases hcase with
  | wait _ hrest =>
    rw [List.append_nil]
    exact .running hplace hcs (h.wait hrest)
  | complete _ hop =>
    rw [List.append_nil]
    exact .running hplace hcs (h.complete hop)
  | expire _ hop =>
    rw [List.append_nil]
    exact .running hplace hcs (h.expire hop)
  | read _ hop => exact .running hplace hcs (h.read hop)
  | threw _ hop => exact .threw rfl hcs (h.threw hop)
  | readTimeout _ hop => exact .running (place_onReadTimeout.trans hplace) hcs (h.readTimeout hop)
  | restartTimeout _ hop =>
    rw [List.append_nil]
    exact .running (place_onRestartLuaTimeout.trans hplace) hcs (h.restartTimeout hop)
  | ret hplace' hquiet =>
    obtain rfl := Place.running.inj (hplace.symm.trans hplace')
    rcases h.ret hquiet with ⟨c, hc, hg, hopen, hslot⟩ | ⟨ok, readFirst, hg, hopen, hslot⟩
    · rw [hg]
      refine .loop rfl hquiet (hopen.trans hslot.symm) ?_
      rw [hslot]
      exact Sent.snoc hcs hc
    · rw [hg]
      refine .loop rfl hquiet (hopen.trans hslot.symm) ?_
      rw [hslot]
      exact .late hcs t ok readFirst
  | pass hout => simp [hout] at hrunning
  | connect hplace' | failure hplace' | write hplace' | writeError hplace' | leave hplace' =>
    rw [hplace] at hplace'
    cases hplace'

/-- A step of `ios_.run()` after a failed connect. -/
theorem told_failed {t : ℕ} (hplace : s.place = .running false) (hread : s.ios.op .socket = .idle)
    (htimer : s.ios.op .readTimer = .idle)
    (hrestart : s.ios.op .restartTimer = .waiting (some (max t (t₀ + minutes 1))) ∨
      s.ios.op .restartTimer = .ready true ∧ s.now = max t (t₀ + minutes 1))
    (hexpiry : s.restartExpiry = t₀ + minutes 1) (hslot : s.slot = true)
    (ht : t₀ ≤ t) (hcase : StepCase s a o s') : Told t₀ s' ([.restart t] ++ o) := by
  have hrunning : s.isRunning = true := isRunning_iff.mpr ⟨false, hplace⟩
  cases hcase with
  | wait _ hrest =>
    have hrestart := hrestart.resolve_right fun h => not_ready hrest _ _ h.1
    rw [List.append_nil]
    exact .failed hplace hread htimer (Or.inl hrestart) hexpiry hslot ht
  | complete _ hop => simp [hread] at hop
  | @expire k _ hop =>
    rw [List.append_nil]
    cases k with
    | socket => simp [hread] at hop
    | readTimer => simp [htimer] at hop
    | restartTimer =>
      have hlast : s.now = max t (t₀ + minutes 1) := by
        rcases hrestart with hrestart | hrestart
        · rw [hrestart] at hop
          exact (Option.some.inj (Op.waiting.inj hop)).symm
        · exact hrestart.2
      refine .failed hplace ?_ ?_ (Or.inr ⟨by simp, hlast⟩) hexpiry hslot ht
      · simpa [Service.op_set] using hread
      · simpa [Service.op_set] using htimer
  | read _ hop | threw _ hop => simp [hread] at hop
  | readTimeout _ hop => simp [htimer] at hop
  | @restartTimeout ok _ hop =>
    obtain ⟨hrestart, hlast⟩ := hrestart.resolve_left (by simp [hop])
    obtain rfl : ok = true := Op.ready.inj (hop.symm.trans hrestart)
    have hdue : ¬ s.restartExpiry > s.now := by
      rw [hexpiry, hlast, gt_iff_lt, not_lt]
      exact le_max_right _ _
    have hover : { s with ios := s.ios.set .restartTimer .idle }.onRestartLuaTimeout true =
        { s with ios := s.ios.set .restartTimer .idle, slot := false } := if_neg hdue
    rw [hover, List.append_nil]
    refine .failedOver hplace (fun k => ?_) hlast rfl ht
    cases k with
    | socket => simpa [Service.op_set] using hread
    | readTimer => simpa [Service.op_set] using htimer
    | restartTimer => simp
  | ret _ hquiet => simp [hquiet _] at hrestart
  | pass hout => simp [hout] at hrunning
  | connect hplace' | failure hplace' | write hplace' | writeError hplace' | leave hplace' =>
    rw [hplace] at hplace'
    cases hplace'

/-- `ios_.run()` returns after a failed connect. -/
theorem told_failedOver {t : ℕ} (hplace : s.place = .running false) (hquiet : s.ios.Quiet)
    (hnow : s.now = max t (t₀ + minutes 1)) (hslot : s.slot = false) (ht : t₀ ≤ t) (hcase : StepCase s a o s') :
    Told t₀ s' ([.restart t] ++ o) := by
  have hrunning : s.isRunning = true := isRunning_iff.mpr ⟨false, hplace⟩
  cases hcase with
  | wait _ hrest => exact absurd hrest (not_resting_of_idle (hquiet _) (hquiet _) (hquiet _))
  | complete _ hop | expire _ hop | read _ hop | threw _ hop | readTimeout _ hop | restartTimeout _ hop =>
    simp [hquiet _] at hop
  | ret hplace' =>
    obtain rfl := Place.running.inj (hplace.symm.trans hplace')
    refine .finished rfl hquiet ?_
    rw [hnow]
    exact hslot ▸ .failed ht
  | pass hout => simp [hout] at hrunning
  | connect hplace' | failure hplace' | write hplace' | writeError hplace' | leave hplace' =>
    rw [hplace] at hplace'
    cases hplace'

/-- **One step.** -/
theorem told_step (h : Told t₀ s g) (hs : step debug s a = some s') : Told t₀ s' (g ++ outs s a) := by
  have hcase := step_cases hs
  by_cases hout : s.isRunning = true
  · cases h with
    | failed hplace hread htimer hrestart hexpiry hslot ht =>
      exact told_failed hplace hread htimer hrestart hexpiry hslot ht hcase
    | failedOver hplace hquiet hnow hslot ht => exact told_failedOver hplace hquiet hnow hslot ht hcase
    | running hplace hcs hwaiting =>
      rw [List.append_assoc]
      exact hwaiting.told hplace hcs hcase
    | connecting hplace | loop hplace | finished hplace | threw hplace => simp [Session.isRunning, hplace] at hout
  · exact h.step_outside (by simpa using hout) hcase

/-! ### How long -/

/-- Outside `ios_.run()` nothing is outstanding. -/
theorem Told.quiet (h : Told t₀ s g) (hout : s.isRunning = false) (hgoing : s.place ≠ .threw) : s.ios.Quiet := by
  cases h with
  | connecting _ hquiet | loop _ hquiet | finished _ hquiet => exact hquiet
  | threw hplace => exact absurd hplace hgoing
  | failed hplace | failedOver hplace | running hplace => simp [Session.isRunning, hplace] at hout

theorem punctual_handler {ios : Service Object} (h : ios.Punctual) (k : Object) (ok : Bool) :
    ({ s with ios := ios }.handler k ok).ios.Punctual := by
  cases k with
  | socket => exact h.cancel
  | readTimer =>
    simp only [Session.handler, Session.onReadTimeout]
    split_ifs
    · exact h
    · exact h
    · exact h.cancel.cancel.wait _
    · exact h.cancel.wait _
  | restartTimer =>
    simp only [Session.handler, Session.onRestartLuaTimeout]
    split_ifs
    · exact h
    · exact h
    · exact h

/-- No deadline passes. -/
theorem punctual_step (h : s.ios.Punctual) (htold : Told t₀ s g) (hcase : StepCase s a o s') : s'.ios.Punctual := by
  cases hcase with
  | pass hout hgoing =>
    intro k d hk
    simp [htold.quiet hout hgoing k] at hk
  | wait _ hrest => exact h.tick (Service.tick_eq_some.mpr ⟨hrest, rfl⟩)
  | failure => exact h.wait _
  | write => exact (h.wait _).start
  | complete _ hop => exact h.complete (Service.complete_eq_some.mpr ⟨hop, rfl⟩)
  | expire _ hop => exact h.expire (Service.expire_eq_some.mpr ⟨hop, rfl⟩)
  | @read ok _ hop => exact punctual_handler (h.take (Service.take_eq_some.mpr ⟨hop, rfl⟩)) .socket ok
  | threw _ hop => exact punctual_handler (h.take (Service.take_eq_some.mpr ⟨hop, rfl⟩)) .socket true
  | @readTimeout ok _ hop => exact punctual_handler (h.take (Service.take_eq_some.mpr ⟨hop, rfl⟩)) .readTimer ok
  | @restartTimeout ok _ hop =>
    exact punctual_handler (h.take (Service.take_eq_some.mpr ⟨hop, rfl⟩)) .restartTimer ok
  | connect | writeError | leave | ret => exact h

/-- When the read timer runs out, it is the fourth minute, and no restart is outstanding. -/
theorem Told.fired (h : Told t₀ s g) (hplace : s.isRunning = true) (hop : s.ios.op .readTimer = .ready true) :
    s.readExpiry = s.now ∧ s.ios.op .restartTimer = .idle := by
  cases h with
  | threw hout => simp [Session.isRunning, hout] at hplace
  | connecting _ hquiet | failedOver _ hquiet | loop _ hquiet | finished _ hquiet => simp [hquiet _] at hop
  | failed _ _ htimer => simp [htimer] at hop
  | running _ _ hwaiting =>
    cases hwaiting with
    | outstanding _ htimer hrestart hexpiry =>
      have hlast := (htimer.resolve_left (by simp [hop])).2
      exact ⟨hexpiry.trans hlast.symm, hrestart⟩
    | answered _ _ htimer => simp [hop] at htimer
    | crossed _ _ _ hrestart hexpiry hlast => exact ⟨hexpiry.trans hlast.symm, hrestart⟩
    | closed _ htimer | restarting _ _ _ htimer => simp [htimer] at hop
    | restarted _ _ hquiet => simp [hquiet _] at hop

/-- The deadline of a wait. -/
def deadline : Op → ℕ
  | .waiting (some d) => d
  | _ => 0

/-- How far an operation is from being over: a read timer may start a wait. -/
def weight (k : Object) : Op → ℕ
  | .idle => 0
  | .waiting _ => if k = .readTimer then 5 else 2
  | .ready _ => if k = .readTimer then 4 else 1

/-- When all waits are over. -/
def Session.latest (s : Session) : ℕ := max (s.readExpiry + minutes 1) (deadline (s.ios.op .restartTimer))

/-- What is left to be called. -/
def work (ios : Service Object) : ℕ :=
  weight .socket (ios.op .socket) + weight .readTimer (ios.op .readTimer) + weight .restartTimer (ios.op .restartTimer)

/-- What is left of `ios_.run()`. -/
def Session.left (s : Session) : ℕ := 10 * (s.latest - s.now) + work s.ios + if s.isRunning then 1 else 0

/-- There is a deadline that time has not come to. -/
theorem Told.now_lt_latest (h : Told t₀ s g) (hpunctual : s.ios.Punctual) (hplace : s.isRunning = true)
    (hrest : s.ios.Resting) : s.now < s.latest := by
  have hdue : ∀ {d}, s.ios.op .restartTimer = .waiting (some d) → s.now < d := by
    intro d hd
    have hle : s.now ≤ d := hpunctual _ _ hd
    refine lt_of_le_of_ne hle ?_
    rintro rfl
    exact (hrest.2 .restartTimer).1 hd
  have hwait : ∀ {d}, s.ios.op .restartTimer = .waiting (some d) → s.now < s.latest := by
    intro d hd
    refine (hdue hd).trans_le ?_
    rw [Session.latest, hd]
    exact le_max_right _ _
  have hidle : s.ios.op .socket = .idle → s.ios.op .readTimer = .idle → s.ios.op .restartTimer ≠ .idle :=
    fun hread htimer hrestart => not_resting_of_idle hread htimer hrestart hrest
  cases h with
  | connecting hout | loop hout | finished hout | threw hout => simp [Session.isRunning, hout] at hplace
  | failed _ _ _ hrestart => exact hwait (hrestart.resolve_right fun h => not_ready hrest _ _ h.1)
  | failedOver _ hquiet => exact absurd (hquiet _) (hidle (hquiet _) (hquiet _))
  | running _ _ hwaiting =>
    cases hwaiting with
    | outstanding _ _ _ hexpiry hnow =>
      refine lt_of_lt_of_le ?_ (le_max_left _ _)
      simp only [hexpiry, minutes] at hnow ⊢
      omega
    | answered _ hread htimer hrestart =>
      exact absurd hrestart (hidle hread (htimer.resolve_left (not_ready hrest _ _)))
    | crossed _ _ htimer => exact absurd htimer (not_ready hrest _ _)
    | closed _ _ hrestart => exact hwait hrestart
    | restarting _ _ _ _ hrestart => exact hwait (hrestart.resolve_right fun h => not_ready hrest _ _ h.1)
    | restarted _ _ hquiet => exact absurd (hquiet _) (hidle (hquiet _) (hquiet _))

theorem left_lt (hplace : s'.isRunning = s.isRunning) (hexpiry : s'.readExpiry = s.readExpiry)
    (hdeadline : deadline (s'.ios.op .restartTimer) ≤ s.latest) (hnow : s'.now = s.now)
    (hwork : work s'.ios < work s.ios) : s'.left < s.left := by
  have hlatest : s'.latest ≤ s.latest := by
    refine max_le ?_ hdeadline
    rw [hexpiry]
    exact le_max_left _ _
  simp only [Session.left, hplace, hnow]
  omega

theorem deadline_le_latest : deadline (s.ios.op .restartTimer) ≤ s.latest := le_max_right _ _

/-- To cancel an operation brings it nearer to its end. -/
theorem work_cancel_le (ios : Service Object) (k : Object) : work (ios.cancel k) ≤ work ios := by
  have hle : ∀ j, weight j ((ios.cancel k).op j) ≤ weight j (ios.op j) := by
    intro j
    by_cases hjk : j = k
    · subst hjk
      unfold Service.cancel
      split
      · rename_i d hd
        rw [Service.op_set_self, hd]
        simp only [weight]
        split_ifs
        · omega
        · omega
      · exact le_rfl
    · rw [Service.op_cancel_of_ne hjk]
  have hsocket := hle .socket
  have htimer := hle .readTimer
  have hrestart := hle .restartTimer
  simp only [work]
  omega

/-- An operation becomes another one. -/
theorem work_set (ios : Service Object) (k : Object) (o : Op) :
    work (ios.set k o) + weight k (ios.op k) = work ios + weight k o := by
  cases k with
  | socket =>
    simp only [work, Service.op_set, reduceCtorEq, if_true, if_false]
    omega
  | readTimer =>
    simp only [work, Service.op_set, reduceCtorEq, if_true, if_false]
    omega
  | restartTimer =>
    simp only [work, Service.op_set, reduceCtorEq, if_true, if_false]
    omega

theorem work_wait_le (ios : Service Object) (d : ℕ) : work (ios.wait .restartTimer d) ≤ work ios + 2 := by
  have hset := work_set ios .restartTimer (.waiting (some (max ios.now d)))
  have hweight : weight .restartTimer (.waiting (some (max ios.now d))) = 2 := rfl
  simp only [Service.wait]
  omega

theorem work_take {k : Object} {ok : Bool} (hop : s.ios.op k = .ready ok) :
    work (s.ios.set k .idle) + weight k (.ready ok) = work s.ios := by
  rw [← hop]
  exact work_set s.ios k .idle

/-- `on_read_timeout` has been called after four minutes: it starts a wait of one minute. -/
theorem left_fired (hfired : s.readExpiry = s.now) (hop : s.ios.op .readTimer = .ready true) :
    ({ s with ios := s.ios.set .readTimer .idle }.onReadTimeout true).left < s.left := by
  have htake := work_take hop
  have hweight : weight .readTimer (.ready true) = 4 := rfl
  have hle : s.readExpiry ≤ s.now := hfired.le
  rw [onReadTimeout_fired (s := { s with ios := s.ios.set .readTimer .idle }) hle]
  generalize hios : s.ios.set .readTimer .idle = ios at htake
  have hnow : ios.now = s.now := by rw [← hios]; rfl
  have hclosed : work (if s.isOpen then ios.cancel .socket else ios) ≤ work ios := by
    split_ifs
    · exact work_cancel_le ios .socket
    · exact le_rfl
  have hsame : (if s.isOpen then ios.cancel .socket else ios).now = s.now := by
    split_ifs
    · rw [Service.now_cancel, hnow]
    · exact hnow
  generalize (if s.isOpen then ios.cancel .socket else ios) = ios' at hclosed hsame
  have hcancel := work_cancel_le ios' .restartTimer
  have hwait := work_wait_le (ios'.cancel .restartTimer) (ios.now + minutes 1)
  have hlast : max s.now (ios.now + minutes 1) ≤ s.latest := by
    rw [hnow, ← hfired]
    exact max_le ((Nat.le_add_right _ _).trans (le_max_left _ _)) (le_max_left _ _)
  refine left_lt rfl rfl ?_ ?_ ?_
  · simp only [Service.wait, Service.op_set_self, deadline, Service.now_cancel, hsame]
    exact hlast
  · simp only [Session.now, Service.now_wait, Service.now_cancel]
    exact hsame
  · exact (by omega : work ((ios'.cancel .restartTimer).wait .restartTimer (ios.now + minutes 1)) < work s.ios)

/-- A handler that is called lowers what is left. -/
theorem left_handler {k : Object} {ok : Bool} (h : Told t₀ s g) (hplace : s.isRunning = true)
    (hop : s.ios.op k = .ready ok) :
    ({ s with ios := s.ios.set k .idle }.handler k ok).left < s.left := by
  have htake := work_take hop
  cases k with
  | socket =>
    have hcancel := work_cancel_le (s.ios.set .socket .idle) .readTimer
    have hweight : weight .socket (.ready ok) = 1 := rfl
    refine left_lt rfl rfl ?_ ?_ ?_
    · simp [Session.handler, Session.handleRead, Service.op_cancel_of_ne, Service.op_set, deadline_le_latest]
    · simp [Session.handler, Session.handleRead, Session.now]
    · simp only [Session.handler, Session.handleRead]
      omega
  | readTimer =>
    cases ok with
    | true => exact left_fired (h.fired hplace hop).1 hop
    | false =>
      have hweight : weight .readTimer (.ready false) = 4 := rfl
      refine left_lt rfl rfl ?_ rfl ?_
      · simp [Session.handler, Session.onReadTimeout, Service.op_set, deadline_le_latest]
      · simp only [Session.handler, Session.onReadTimeout, if_true]
        omega
  | restartTimer =>
    have hweight : weight .restartTimer (.ready ok) = 1 := rfl
    have hios : ({ s with ios := s.ios.set .restartTimer .idle }.onRestartLuaTimeout ok).ios =
        s.ios.set .restartTimer .idle := by
      unfold Session.onRestartLuaTimeout
      split_ifs <;> rfl
    have hexpiry : ({ s with ios := s.ios.set .restartTimer .idle }.onRestartLuaTimeout ok).readExpiry =
        s.readExpiry := by
      unfold Session.onRestartLuaTimeout
      split_ifs <;> rfl
    refine left_lt ?_ hexpiry ?_ ?_ ?_
    · simp [Session.handler, Session.isRunning]
    · simp [Session.handler, hios, deadline]
    · simp [Session.handler, Session.now, hios]
    · simp only [Session.handler, hios]
      omega

/-- An exception leaves nothing to be done. -/
theorem left_threw (hplace : s.isRunning = true) (hop : s.ios.op .socket = .ready true) :
    { { s with ios := s.ios.set .socket .idle }.handleRead with place := .threw }.left < s.left := by
  have htake := work_take hop
  have hcancel := work_cancel_le (s.ios.set .socket .idle) .readTimer
  have hweight : weight .socket (.ready true) = 1 := rfl
  generalize hafter : { { s with ios := s.ios.set .socket .idle }.handleRead with place := .threw } = s'
  have hios : s'.ios = (s.ios.set .socket .idle).cancel .readTimer := by
    rw [← hafter]
    rfl
  have hlatest : s'.latest ≤ s.latest := by
    rw [← hafter]
    simp [Session.latest, Session.handleRead, Service.op_cancel_of_ne, Service.op_set]
  have hnow : s'.now = s.now := by
    rw [Session.now, hios, Service.now_cancel, Service.now_set, Session.now]
  have hover : s'.isRunning = false := by
    rw [← hafter]
    rfl
  simp only [Session.left, hover, hplace, hnow, hios, Bool.false_eq_true, if_false, if_true]
  omega

/-- `ios_.run()` can go on until it returns or `handle_read` throws. -/
theorem Told.progress (h : Told t₀ s g) (hpunctual : s.ios.Punctual) (hplace : s.isRunning = true) :
    ∃ a s', step debug s a = some s' ∧ s'.left < s.left := by
  rcases s.ios.can_go_on with hquiet | ⟨k, ok, hop⟩ | ⟨k, hop⟩ | hrest
  · obtain ⟨inLoop, hrunning⟩ := isRunning_iff.mp hplace
    refine ⟨.ret, { s with place := if inLoop then .loop else .finished }, ?_, ?_⟩
    · simp only [SessionTimers.step, hrunning, if_pos hquiet]
    · have hafter : { s with place := if inLoop then Place.loop else .finished }.isRunning = false := by
        cases inLoop <;> rfl
      simp [Session.left, hafter, hplace, Session.latest, Session.now]
  · have htake : s.ios.take k = some (ok, s.ios.set k .idle) := Service.take_eq_some.mpr ⟨hop, rfl⟩
    by_cases hmust : s.mustThrow debug k ok = true
    · -- the handler is `handle_read`, with bytes
      obtain ⟨rfl, rfl⟩ : k = .socket ∧ ok = true := by
        cases k with
        | socket =>
          simp only [Session.mustThrow, Bool.and_eq_true] at hmust
          exact ⟨rfl, hmust.1.2⟩
        | readTimer | restartTimer => cases hmust
      have hstep : step debug s .throws =
          some { { s with ios := s.ios.set .socket .idle }.handleRead with place := .threw } := by
        rw [SessionTimers.step, if_pos hplace, htake, Option.bind_some, if_pos rfl]
      exact ⟨_, _, hstep, left_threw hplace hop⟩
    · have hstep : step debug s (.handle k) = some ({ s with ios := s.ios.set k .idle }.handler k ok) := by
        rw [SessionTimers.step, if_pos hplace, htake, Option.bind_some, if_neg hmust]
      exact ⟨_, _, hstep, left_handler h hplace hop⟩
  · have hexpire : s.ios.expire k = some (s.ios.set k (.ready true)) := Service.expire_eq_some.mpr ⟨hop, rfl⟩
    have hset := work_set s.ios k (.ready true)
    refine ⟨.expire k, { s with ios := s.ios.set k (.ready true) }, ?_, ?_⟩
    · simp only [SessionTimers.step, hplace, if_true, hexpire, Option.map_some]
    · have hlower : weight k (.ready true) < weight k (s.ios.op k) := by
        rw [hop]
        cases k <;> simp [weight]
      refine left_lt rfl rfl ?_ rfl ?_
      · rw [Service.op_set]
        split_ifs
        · exact Nat.zero_le _
        · exact deadline_le_latest
      · exact (by omega : work (s.ios.set k (.ready true)) < work s.ios)
  · have htick : s.ios.tick = some { s.ios with now := s.ios.now + 1 } := Service.tick_eq_some.mpr ⟨hrest, rfl⟩
    refine ⟨.tick, { s with ios := { s.ios with now := s.ios.now + 1 } }, ?_, ?_⟩
    · simp only [SessionTimers.step, hplace, if_true, htick, Option.map_some]
    · have hlt := h.now_lt_latest hpunctual hplace hrest
      have hsame : ({ s with ios := { s.ios with now := s.ios.now + 1 } } : Session).latest = s.latest := rfl
      have hrunning : ({ s with ios := { s.ios with now := s.ios.now + 1 } } : Session).isRunning = s.isRunning := rfl
      have hwork : work { s.ios with now := s.ios.now + 1 } = work s.ios := rfl
      simp only [Session.left, hsame, hrunning, hwork, Session.now] at hlt ⊢
      omega

/-- How long `ios_.run()` has been running. -/
theorem Told.in_time (h : Told t₀ s g) (hpunctual : s.ios.Punctual) (hplace : s.isRunning = true) :
    (∃ t, .sent t ∈ g ∧ t ≤ s.now ∧ s.now ≤ t + minutes 5) ∨
      ∃ t, g = [.restart t] ∧ s.now ≤ max t (t₀ + minutes 1) := by
  cases h with
  | connecting hout | loop hout | finished hout | threw hout => simp [Session.isRunning, hout] at hplace
  | @failed t _ _ _ hrestart =>
    refine Or.inr ⟨t, rfl, ?_⟩
    rcases hrestart with hrestart | ⟨-, hlast⟩
    · exact hpunctual _ _ hrestart
    · exact hlast.le
  | @failedOver t _ _ hnow => exact Or.inr ⟨t, rfl, hnow.le⟩
  | @running t _ g _ _ hwaiting =>
    have hsent : .sent t ∈ g := by
      cases hwaiting with
      | _ => exact List.mem_cons_self
    refine Or.inl ⟨t, List.mem_append_right _ hsent, ?_⟩
    cases hwaiting with
    | outstanding _ _ _ _ hnow | answered _ _ _ _ hnow =>
      simp only [minutes] at hnow ⊢
      omega
    | crossed _ _ _ _ _ hnow | closed _ _ _ _ hnow | restarted _ _ _ hnow =>
      simp only [minutes] at hnow ⊢
      omega
    | restarting _ _ _ _ _ _ hnow => exact hnow

/-- When it was put out. -/
def Out.time : Out → ℕ
  | .sent t => t
  | .handled t _ => t
  | .restart t => t
  | .returned t => t
  | .threw t => t

theorem StepCase.time (h : StepCase s a o s') : (∀ x ∈ o, x.time = s.now) ∧ s.now ≤ s'.now := by
  cases h with
  | pass | wait => exact ⟨by simp, Nat.le_succ _⟩
  | failure | write => exact ⟨by simp [Out.time], le_rfl⟩
  | read | threw => exact ⟨by simp [Out.time], by simp [Session.handleRead, Session.now]⟩
  | readTimeout =>
    refine ⟨?_, ?_⟩
    · split_ifs
      · simp [Out.time]
      · simp
    · unfold Session.onReadTimeout
      split_ifs <;> simp [Session.now]
  | restartTimeout =>
    refine ⟨by simp, ?_⟩
    unfold Session.onRestartLuaTimeout
    split_ifs <;> exact le_rfl
  | ret => exact ⟨by simp [Out.time], le_rfl⟩
  | connect | writeError | leave | complete | expire => exact ⟨by simp, le_rfl⟩

/-- What a session constructed at `t₀` has put out. -/
def log (debug : Bool) (t₀ : ℕ) (as : List Label) : List Out := Trans.emits (step debug) outs (.init t₀) as

/-- All that is kept of a session and its log. -/
structure Kept (t₀ : ℕ) (s : Session) (g : List Out) : Prop where
  told : Told t₀ s g
  punctual : s.ios.Punctual
  rising : (g.map Out.time).Pairwise (· ≤ ·)
  past : ∀ x ∈ g, x.time ≤ s.now

theorem Kept.step (h : Kept t₀ s g) (hs : SessionTimers.step debug s a = some s') : Kept t₀ s' (g ++ outs s a) := by
  have hcase := step_cases hs
  obtain ⟨htime, hnow⟩ := hcase.time
  refine ⟨told_step h.told hs, punctual_step h.punctual h.told hcase, ?_, ?_⟩
  · rw [List.map_append, List.pairwise_append]
    refine ⟨h.rising, ?_, ?_⟩
    · rw [List.pairwise_map]
      exact List.pairwise_of_forall_mem_list fun x hx y hy => ((htime x hx).trans (htime y hy).symm).le
    · intro t ht t' ht'
      obtain ⟨x, hx, rfl⟩ := List.mem_map.mp ht
      obtain ⟨y, hy, rfl⟩ := List.mem_map.mp ht'
      rw [htime y hy]
      exact h.past x hx
  · intro x hx
    rcases List.mem_append.mp hx with hx | hx
    · exact (h.past x hx).trans hnow
    · exact (htime x hx).le.trans hnow

theorem kept_of_run {as : List Label} (hrun : Trans.run (step debug) (.init t₀) as = some s) :
    Kept t₀ s (log debug t₀ as) := by
  have hinit : Kept t₀ (.init t₀) [] := ⟨told_init t₀, by simp [Service.Punctual, Session.init], .nil, by simp⟩
  have hkept := Trans.emits_invariant (P := fun _ _ => True) (I := Kept t₀) (fun s g a s' h _ hs => h.step hs)
    hinit (Trans.along_of_forall (fun _ _ => trivial) as _) hrun
  exact hkept

/-- `ios_.run()` can end. -/
theorem run_ends (debug : Bool) (h : Kept t₀ s g) :
    ∃ s', Trans.Reach (step debug) (fun _ _ => True) s s' ∧ s'.isRunning = false := by
  apply Trans.Reach.eventually (I := fun s => ∃ g, Kept t₀ s g) Session.left ?_ ⟨g, h⟩
  rintro s ⟨g, h⟩
  by_cases hplace : s.isRunning = true
  · obtain ⟨a, s', hs, hlt⟩ := h.told.progress h.punctual hplace
    exact Or.inr ⟨a, s', trivial, hs, ⟨_, h.step hs⟩, hlt⟩
  · exact Or.inl (by simpa using hplace)

/-- **The log of a session.** In every run `ios_.run()` ends within five minutes of
the last command, or a minute after the construction if the connect failed, and can
always go on to its end; when it has returned nothing is outstanding. A session that
has returned had all its commands answered within four minutes, or asked for one
restart, at the fourth minute of its last command or when its connect failed; its
slot is disconnected exactly if it asked. If `handle_read` has thrown, it was within
four minutes of the last command, and all commands before were answered in time. -/
theorem session_log {as : List Label} (hrun : Trans.run (step debug) (.init t₀) as = some s) :
    (s.place = .finished → Final t₀ s.slot (log debug t₀ as)) ∧
      (s.place = .threw → ∃ (cs : List Command) (t : ℕ) (g : List Out), (∀ c ∈ cs, c.InTime) ∧ Threw t g ∧
        log debug t₀ as = cs.flatMap Command.outs ++ g) ∧
      ((log debug t₀ as).map Out.time).Pairwise (· ≤ ·) ∧
      (s.isRunning = false → s.place ≠ .threw → s.ios.Quiet) ∧
      (s.isRunning = true →
        ((∃ t, .sent t ∈ log debug t₀ as ∧ t ≤ s.now ∧ s.now ≤ t + minutes 5) ∨
          ∃ t, log debug t₀ as = [.restart t] ∧ s.now ≤ max t (t₀ + minutes 1)) ∧
        ∃ s', Trans.Reach (step debug) (fun _ _ => True) s s' ∧ s'.isRunning = false) := by
  have hkept := kept_of_run hrun
  generalize log debug t₀ as = g at hkept
  refine ⟨fun hfinished => ?_, fun hthrew => ?_, hkept.rising, hkept.told.quiet,
    fun hplace => ⟨?_, run_ends debug hkept⟩⟩
  · cases hkept.told with
    | finished _ _ hfinal => exact hfinal
    | connecting hplace | failed hplace | failedOver hplace | loop hplace | running hplace | threw hplace =>
      rw [hfinished] at hplace
      cases hplace
  · cases hkept.told with
    | threw _ hcs hthrow => exact ⟨_, _, _, hcs, hthrow, rfl⟩
    | connecting hplace | failed hplace | failedOver hplace | loop hplace | running hplace | finished hplace =>
      rw [hthrew] at hplace
      cases hplace
  · exact hkept.told.in_time hkept.punctual hplace

/-- A reply comes in the first second, the next one with the end of the read timer. -/
def lateReply : List Label :=
  [.connect true, .write true, .tick, .complete true, .handle .socket, .handle .readTimer, .ret, .write true] ++
    List.replicate 240 .tick ++
    [.expire .readTimer, .complete true, .handle .socket, .handle .readTimer] ++ List.replicate 60 .tick ++
    [.expire .restartTimer, .handle .restartTimer, .ret, .leave]

theorem session_log_lateReply :
    ∃ s, Trans.run (step true) (.init 0) lateReply = some s ∧ s.now = 301 ∧
      Final 0 s.slot (log true 0 lateReply) := by
  have hend : (Trans.run (step true) (.init 0) lateReply).map (fun s => (s.now, s.place)) = some (301, .finished) := by
    decide +kernel
  obtain ⟨s, hrun, hs⟩ := Option.map_eq_some_iff.mp hend
  obtain ⟨hnow, hplace⟩ := Prod.mk.inj hs
  exact ⟨s, hrun, hnow, (session_log hrun).1 hplace⟩

/-- In the other order `handle_read` prints the peer of a closed socket. -/
example : (Trans.run (step true) (.init 0) ([.connect true, .write true] ++ List.replicate 240 .tick ++
    [.expire .readTimer, .complete true, .handle .readTimer, .throws])).map (·.place) = some .threw ∧
    (Trans.run (step true) (.init 0) ([.connect true, .write true] ++ List.replicate 240 .tick ++
      [.expire .readTimer, .complete true, .handle .readTimer, .handle .socket])).isNone := by
  decide +kernel

end Told

end SessionTimers

end ScheduleCenter
