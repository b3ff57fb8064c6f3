/-
# What the phones are told

A session draws an account, and some steps later it copies the account table
and pastes the account's password, imei and nickname into the commands for its
phone; by then other sessions, replies and the reset have written the table.
None of them writes these three fields (`step_secrets`), and the table has the
account. So every frame that a session writes for an account is the one its class
writes for the row that was loaded, the first of that name, and the phone gets
the commands to log in with the account's own password if and only if the strings
of that row and of the task can be pasted (`commands_as_loaded`).

Key definitions: `AccountMgr.secrets`, `Kind.command`, `Kind.intended`, `Server.Written`, `Server.AsLoaded`.
Key theorems: `SessionCase.secrets_eq`, `step_secrets`, `commands_as_loaded`.
-/
import ScheduleCenter.SessionLookups
import ScheduleCenter.Repeat
import ScheduleCenter.Commands
import ScheduleCenter.Database

namespace ScheduleCenter

/-! ### What nobody writes -/

/-- Password, imei and nickname. -/
def AccountPro.secrets (p : AccountPro) : Str × Str × Str := (p.password, p.imei, p.nickname)

namespace AccountMgr

/-- The three fields in the account's record. -/
def secrets (m : AccountMgr) (acc : Str) : Option (Str × Str × Str) :=
  (m.accountsPro.lookup acc).map AccountPro.secrets

theorem secrets_update (m : AccountMgr) (acc : Str) {f : AccountPro → AccountPro}
    (hf : ∀ p, (f p).secrets = p.secrets) (acc' : Str) : (m.update acc f).secrets acc' = m.secrets acc' := by
  unfold secrets
  rw [lookup_update]
  split
  · subst_vars
    rw [Option.map_map]
    exact congrFun (congrArg Option.map (funext hf)) _
  · rfl

theorem secrets_setVoteStatus (m : AccountMgr) (acc url acc' : Str) :
    (m.setVoteStatus acc url).secrets acc' = m.secrets acc' := by
  apply secrets_update
  intro p
  rfl

theorem secrets_setAccStatus (m : AccountMgr) (acc : Str) (status : Int) (acc' : Str) :
    (m.setAccStatus acc status).secrets acc' = m.secrets acc' := by
  apply secrets_update
  intro p
  rfl

theorem secrets_setEverydayTask (m : AccountMgr) (acc : Str) (done : Int) (acc' : Str) :
    (m.setEverydayTask acc done).secrets acc' = m.secrets acc' := by
  apply secrets_update
  intro p
  rfl

theorem secrets_recordReply (m : AccountMgr) (kind : Kind) (acc : Str) (v : Verdict) (acc' : Str) :
    (m.recordReply kind acc v).secrets acc' = m.secrets acc' := by
  cases v with
  | success =>
    cases kind with
    | vote k url => exact m.secrets_setVoteStatus acc url acc'
    | daily => exact m.secrets_setEverydayTask acc _ acc'
  | fatal => exact m.secrets_setAccStatus acc _ acc'
  | other => rfl

/-- After `load_data` they are those of the first row of the name. -/
theorem secrets_loadData (rows : List (Str × AccountPro)) (acc : Str) :
    (loadData rows).secrets acc = (rows.find? (named acc)).map fun r => r.2.secrets := by
  rw [secrets, lookup_loadData, Option.map_map]
  rfl

end AccountMgr

/-! ### The frames -/

/-- What a session takes from the text of its task: the script, the account to
follow and the decoded url. -/
structure TaskStrings where
  script : Str
  mp : Str
  url : Str

namespace Kind

variable (texts : ℕ → TaskStrings)

/-- The frame for an account with the record `pro`. -/
def command : Kind → Str → AccountPro → Str
  | .vote k _, acc, pro => WxVoteSession.command acc (texts k).script (texts k).mp (texts k).url pro
  | .daily, acc, pro => KeepWxAccountSession.command acc pro

/-- What the phone is to do. -/
def intended : Kind → Str → AccountPro → List (List Str)
  | .vote k _, acc, pro => WxVoteSession.intended acc (texts k).script (texts k).mp (texts k).url pro
  | .daily, acc, pro => KeepWxAccountSession.intended acc pro

/-- The strings that are pasted have no quote, backslash or control character,
and leave the text shorter than 10000 bytes. -/
def pastable : Kind → Str → AccountPro → Bool
  | .vote k _, acc, pro =>
    let fields := (WxVoteSession.fields acc (texts k).script (texts k).mp (texts k).url pro).flatten
    fields.all JsonText.plain && fields.length ≤ 9838
  | .daily, acc, pro =>
    let fields := (KeepWxAccountSession.fields acc pro).flatten
    fields.all JsonText.plain && fields.length ≤ 9937

theorem decodeFrame_command_iff (kind : Kind) (acc : Str) (pro : AccountPro) :
    decodeFrame (kind.command texts acc pro) = some (kind.intended texts acc pro, []) ↔
      kind.pastable texts acc pro = true := by
  cases kind with
  | vote k url =>
    rw [pastable, Bool.and_eq_true, decide_eq_true_iff]
    exact WxVoteSession.decodeFrame_command_iff acc _ _ _ pro
  | daily =>
    rw [pastable, Bool.and_eq_true, decide_eq_true_iff]
    exact KeepWxAccountSession.decodeFrame_command_iff acc pro

/-- Of the record only the three fields are pasted. -/
theorem command_congr (kind : Kind) (acc : Str) {p q : AccountPro} (h : p.secrets = q.secrets) :
    kind.command texts acc p = kind.command texts acc q := by
  simp only [AccountPro.secrets, Prod.mk.injEq] at h
  obtain ⟨hpassword, himei, hnickname⟩ := h
  cases kind with
  | vote k url =>
    simp only [command, WxVoteSession.command, WxVoteSession.text, hpassword, himei, hnickname]
  | daily => simp only [command, KeepWxAccountSession.command, KeepWxAccountSession.text, hpassword, himei]

end Kind

namespace Server

/-- A frame that a session writes: the session's thread, its phone and its class, and
the account it is at. -/
structure Written where
  thread : ℕ
  ip : Str
  kind : Kind
  acc : Str
  frame : Str

/-- What a step writes: `apc[acc]` is read from a copy of the table. -/
def written (texts : ℕ → TaskStrings) (s : Server) : Act → List Written
  | .thread i .ok =>
    match s.threads[i]? with
    | some ⟨_, ip, kind, _, .write acc⟩ => [⟨i, ip, kind, acc, kind.command texts acc (s.accounts.accountsPro.at acc)⟩]
    | _ => []
  | _ => []

/-! ### Runs -/

section Step

variable {names : List Str} {s s' s₁ : Server} {t : Thread} {pc : Pc} {inp : Input} {b : Bool} {a : Act}

theorem SessionCase.secrets_eq (hc : SessionCase s t t.pc inp pc b s₁) (h : AccountMgr.Within names s.accounts)
    (acc : Str) : s₁.accounts.secrets acc = s.accounts.secrets acc := by
  have hpick : (s.accounts.pick t.kind).2.secrets acc = s.accounts.secrets acc := by rw [h.pick_snd]
  generalize t.pc = pc₀ at hc
  cases hc
  case empty => exact hpick
  case pick => exact hpick
  case recordVote acc' _ => exact s.accounts.secrets_recordReply t.kind acc' .success acc
  case record acc' v _ => exact s.accounts.secrets_recordReply t.kind acc' v acc
  all_goals rfl

/-- No step writes a password, an imei or a nickname. -/
theorem step_secrets (h : Drawn names s) (hs : s.step a = some s') (acc : Str) :
    s'.accounts.secrets acc = s.accounts.secrets acc := by
  cases (step_cases hs).2
  case thread hc => exact hc.secrets_eq h.accounts acc
  case reset acc' todo hm => exact s.accounts.secrets_setEverydayTask acc' _ acc
  all_goals rfl

end Step

section Run

variable {rows : List (Str × AccountPro)} {ips : List Str} {s : Server} (texts : ℕ → TaskStrings)

theorem secrets_of_reach (hr : Trans.Reach step (fun _ _ => True) (boot rows ips) s) (acc : Str) :
    s.accounts.secrets acc = (rows.find? (named acc)).map fun r => r.2.secrets := by
  have hI : Drawn (rows.map (·.1)) s ∧ s.accounts.secrets acc = (boot rows ips).accounts.secrets acc := by
    refine hr.invariant (I := fun s : Server => Drawn (rows.map (·.1)) s ∧
      s.accounts.secrets acc = (boot rows ips).accounts.secrets acc) ⟨drawn_of_reach .refl, rfl⟩ ?_
    intro s a s' h _ hs
    exact ⟨drawn_step h.1 hs, (step_secrets h.1 hs acc).trans h.2⟩
  rw [hI.2]
  exact AccountMgr.secrets_loadData rows acc

/-- The frame is the one of the session's class for the session's account, with the
first row of this name that was loaded. -/
def AsLoaded (rows : List (Str × AccountPro)) (w : Written) : Prop :=
  ∃ pro, rows.find? (named w.acc) = some (w.acc, pro) ∧ w.frame = w.kind.command texts w.acc pro ∧
    (decodeFrame w.frame = some (w.kind.intended texts w.acc pro, []) ↔ w.kind.pastable texts w.acc pro = true)

theorem asLoaded_written (hr : Trans.Reach step (fun _ _ => True) (boot rows ips) s) (a : Act) :
    ∀ w ∈ s.written texts a, AsLoaded texts rows w := by
  intro w hw
  unfold written at hw
  split at hw
  · split at hw
    · rename_i i ses ip kind sock acc ht
      obtain rfl := List.mem_singleton.mp hw
      have hname : acc ∈ rows.map (·.1) := (drawn_of_reach hr).threads _ (List.mem_of_getElem? ht) acc rfl
      have hmem : acc ∈ s.accounts.accountsPro := ((within_of_reach hr).table acc).mpr hname
      obtain ⟨p, hp⟩ := Option.isSome_iff_exists.mp (AList.lookup_isSome.mpr hmem)
      have hsecrets := secrets_of_reach hr acc
      rw [AccountMgr.secrets, hp, Option.map_some] at hsecrets
      obtain ⟨⟨name, pro⟩, hfind, hpro⟩ := Option.map_eq_some_iff.mp hsecrets.symm
      obtain rfl : name = acc := named_iff.mp (List.find?_some hfind)
      have heq : kind.command texts name (s.accounts.accountsPro.at name) = kind.command texts name pro :=
        kind.command_congr texts name (by rw [AccountMgr.at_of_lookup hp]; exact hpro.symm)
      refine ⟨pro, hfind, heq, ?_⟩
      show decodeFrame (kind.command texts name (s.accounts.accountsPro.at name)) = _ ↔ _
      rw [heq]
      exact kind.decodeFrame_command_iff texts name pro
    · cases hw
  · cases hw

/-- **The commands are those of the rows that were loaded.** Every frame that a
session writes in a run of the server is the frame of its class for the account it is
at, with the password, the imei and the nickname of the first row of that name, and
the phone gets the commands that are meant if and only if the strings can be pasted. -/
theorem commands_as_loaded {as : List Act} (hr : Trans.run step (boot rows ips) as = some s) :
    ∀ w ∈ Trans.emits step (written texts) (boot rows ips) as, AsLoaded texts rows w := by
  have hI := Trans.emits_invariant (f := written texts) (P := fun _ _ => True)
    (I := fun s g => Trans.Reach step (fun _ _ => True) (boot rows ips) s ∧ ∀ w ∈ g, AsLoaded texts rows w)
    (fun s g a s' h _ hs => ⟨h.1.tail trivial hs, fun w hw => ?_⟩) (g := []) ⟨.refl, by simp⟩
    (Trans.along_of_forall (fun _ _ => trivial) as _) hr
  · exact hI.2
  · rcases List.mem_append.mp hw with hw | hw
    · exact h.2 w hw
    · exact asLoaded_written texts h.1 a w hw

end Run

/-- Two accounts with passwords of their own. -/
def keptRows : List (Str × AccountPro) :=
  [(Str.of "a", ⟨Str.of "first", Str.of "me", Str.of "35", 0, 0, ∅⟩),
    (Str.of "b", ⟨Str.of "second", Str.of "you", Str.of "36", 0, 0, ∅⟩)]

/-- Two phones and a daily task, whose sessions write one command each. -/
def keepTwo : List Act :=
  connects [Str.of "p", Str.of "q"] ++ [.dailyTask] ++ moves 0 [.go, .go, .go, .ok, .go, .go, .go] ++
    moves 1 [.go, .go, .go, .ok, .go, .go, .go, .go, .ok] ++ moves 0 [.go, .ok]

theorem commands_as_loaded_two :
    (Trans.emits step (written fun _ => ⟨[], [], []⟩) (boot keptRows []) keepTwo).map (fun w => (w.ip, w.acc)) =
      [(Str.of "p", Str.of "b"), (Str.of "q", Str.of "a")] ∧
    ∀ w ∈ Trans.emits step (written fun _ => ⟨[], [], []⟩) (boot keptRows []) keepTwo,
      AsLoaded (fun _ => ⟨[], [], []⟩) keptRows w :=
  ⟨by decide +kernel, commands_as_loaded _
    (Option.some_get (show (Trans.run step (boot keptRows []) keepTwo).isSome by decide +kernel)).symm⟩

end Server
end ScheduleCenter
