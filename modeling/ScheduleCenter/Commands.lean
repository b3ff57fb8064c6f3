/-
# Commands for the phones: the frames the two sessions write

For one account a session writes the length of a text in decimal, with at
least four digits, and the text: an array of commands in JSON, each an array of
strings. The text is built with `boost::format`: the strings of the account and
of the task are pasted between quotes as they are.

The phone's side is `decodeFrame`: four characters of length
(`MSG_CMD_LUA_SEND`), that many of JSON. It gets the commands if and only if
no field has a quote, a backslash or a control character and the text is
shorter than 10000 bytes (`command_decodes_iff`). A password with a quote in
it spoils the commands (`quote_in_password`).

Key definitions: `format`, `WxVoteSession.command`, `KeepWxAccountSession.command`, `decodeFrame`.
Key theorems: `decodeFrame_paste_iff`, `command_decodes_iff`, `quote_in_password`.
-/
import ScheduleCenter.AccountMgr
import ScheduleCenter.Base.Decimal
import ScheduleCenter.Base.JsonText

namespace ScheduleCenter

/-! ### `boost::format` -/

/-- What a format text consists of. -/
inductive Piece
  | lit (c : UInt8)
  | arg (n : ℕ)
deriving DecidableEq

/-- The pieces of a format text with directives `%N%`; inside of one, the
number so far. -/
def pieces : Option ℕ → Str → List Piece
  | _, [] => []
  | none, c :: s => if c = 37 then pieces (some 0) s else .lit c :: pieces none s
  | some n, c :: s => if c = 37 then .arg n :: pieces none s else pieces (some (n * 10 + Decimal.digit c)) s

/-- What a piece prints; the arguments count from one. -/
def Piece.print (args : List Str) : Piece → Str
  | .lit c => [c]
  | .arg n => args.getD (n - 1) []

def format (text : Str) (args : List Str) : Str := (pieces none text).flatMap (Piece.print args)

/-- `fmterB`: `"%|1$04d|%2%"`. -/
def fmterB (text : Str) : Str := Decimal.padded 4 text.length ++ text

/-! ### The sessions -/

def cmdDownloadFile : Str := Str.of "90000003"
def cmdWxLogin : Str := Str.of "00000001"
def cmdWxLogout : Str := Str.of "00000002"
def cmdWxSendMsg : Str := Str.of "00000006"
def cmdWxAddMp : Str := Str.of "00000008"
def cmdWxVote : Str := Str.of "00000011"
def cmdWxAddNearFriend : Str := Str.of "00000014"
def cmdWxRandomSendSns : Str := Str.of "00000017"
def cmdWxClearMsgRecord : Str := Str.of "00000018"

namespace WxVoteSession

/-- `kvote_cmd_format`. -/
def kvoteCmdFormat : Str := Str.of <|
  "[" ++
  "[\"%1%\",\"%2%\",\"%3%\",\"%4%\"]," ++
  "[\"%5%\",\"%6%\"]," ++
  "[\"%7%\",\"%8%\"]," ++
  "[\"%9%\",\"%10%\",\"%11%\"]," ++
  "[\"%12%\",\"%13%\",\"%14%\"]," ++
  "[\"%15%\"]," ++
  "[\"%16%\"]" ++
  "]"

/-- `kdownload_to_path`. -/
def kdownloadToPath : Str := Str.of "/mnt/sdcard/TouchSprite/lua/wx/wx_vote.lua"

/-- `fmterA.str()` in `on_connected`; `url` is decoded. -/
def text (acc script mp url : Str) (pro : AccountPro) : Str :=
  format kvoteCmdFormat [cmdWxLogin, acc, pro.password, pro.imei, cmdWxAddMp, mp, cmdWxClearMsgRecord, pro.nickname,
    cmdWxSendMsg, pro.nickname, url, cmdDownloadFile, script, kdownloadToPath, cmdWxVote, cmdWxLogout]

/-- What `on_connected` writes for an account. -/
def command (acc script mp url : Str) (pro : AccountPro) : Str := fmterB (text acc script mp url pro)

/-- What the phone is to do: log in, follow the account, clear the record,
send the url to itself, fetch the script, vote, log out. -/
def intended (acc script mp url : Str) (pro : AccountPro) : List (List Str) :=
  [[cmdWxLogin, acc, pro.password, pro.imei], [cmdWxAddMp, mp], [cmdWxClearMsgRecord, pro.nickname],
    [cmdWxSendMsg, pro.nickname, url], [cmdDownloadFile, script, kdownloadToPath], [cmdWxVote], [cmdWxLogout]]

/-- The strings of the account and of the task in it. -/
def fields (acc script mp url : Str) (pro : AccountPro) : List Str :=
  [acc, pro.password, pro.imei, mp, pro.nickname, pro.nickname, url, script]

end WxVoteSession

namespace KeepWxAccountSession

/-- `kkeep_wx_acc_cmd_format`. -/
def kkeepWxAccCmdFormat : Str := Str.of <|
  "[" ++
  "[\"%1%\",\"%2%\",\"%3%\",\"%4%\"]," ++
  "[\"%5%\"]," ++
  "[\"%6%\"]," ++
  "[\"%7%\"]]"

/-- `fmterA.str()` in `on_connected`. -/
def text (acc : Str) (pro : AccountPro) : Str :=
  format kkeepWxAccCmdFormat
    [cmdWxLogin, acc, pro.password, pro.imei, cmdWxAddNearFriend, cmdWxRandomSendSns, cmdWxLogout]

/-- What `on_connected` writes for an account. -/
def command (acc : Str) (pro : AccountPro) : Str := fmterB (text acc pro)

/-- What the phone is to do: log in, add friends, post, log out. -/
def intended (acc : Str) (pro : AccountPro) : List (List Str) :=
  [[cmdWxLogin, acc, pro.password, pro.imei], [cmdWxAddNearFriend], [cmdWxRandomSendSns], [cmdWxLogout]]

/-- The strings of the account in it. -/
def fields (acc : Str) (pro : AccountPro) : List Str := [acc, pro.password, pro.imei]

end KeepWxAccountSession

/-! ### The phone -/

/-- The commands in a frame, and the bytes behind it. -/
def decodeFrame (b : Str) : Option (List (List Str) × Str) := do
  let n ← Decimal.read (b.take 4)
  if (b.drop 4).length < n then failure
  let (cmds, rest) ← JsonText.table ((b.drop 4).take n)
  if rest ≠ [] then failure
  return (cmds, (b.drop 4).drop n)

/-- A table does not begin with a digit. -/
theorem table_digit {c : UInt8} (hc : Decimal.isDigit c) (s : Str) (n : ℕ) :
    JsonText.table ((c :: s).take n) = none := by
  rcases n with _ | n
  · rfl
  · have hne : c ≠ 91 := by
      rintro rfl
      exact absurd hc (by decide)
    exact JsonText.array_eq_none fun h => hne (Option.some.inj h)

/-- A text of less than 10000 bytes is cut out of its frame. -/
theorem decodeFrame_short {text : Str} (hlen : text.length < 10 ^ 4) :
    decodeFrame (fmterB text) =
      (JsonText.table text).bind fun q => if q.2 = [] then some (q.1, []) else none := by
  have hhead := Decimal.length_padded hlen
  have htake : (fmterB text).take 4 = Decimal.padded 4 text.length := List.take_left' hhead
  have hdrop : (fmterB text).drop 4 = text := List.drop_left' hhead
  rw [decodeFrame, htake, hdrop, Decimal.read_padded (by omega)]
  simp

/-- The length of a longer text has more than four digits: what the phone
takes for the text begins with the rest of them. -/
theorem decodeFrame_long {text : Str} (hlen : 10 ^ 4 ≤ text.length) : decodeFrame (fmterB text) = none := by
  have hhead := Decimal.lt_length_padded hlen
  obtain ⟨c, u, hcu⟩ : ∃ c u, (Decimal.padded 4 text.length).drop 4 = c :: u :=
    List.exists_cons_of_length_pos (by rw [List.length_drop]; omega)
  have hc : Decimal.isDigit c := Decimal.isDigit_of_mem_padded (List.mem_of_mem_drop (hcu ▸ List.mem_cons_self))
  have hdrop : (fmterB text).drop 4 = c :: (u ++ text) := by
    rw [fmterB, List.drop_append_of_le_length hhead.le, hcu, List.cons_append]
  rw [decodeFrame, hdrop]
  rcases Decimal.read ((fmterB text).take 4) with _ | n
  · rfl
  · simp [table_digit hc]

/-- **A pasted table comes through a frame if and only if its strings are
plain and its text is shorter than 10000 bytes.** -/
theorem decodeFrame_paste_iff (t : List (List Str)) :
    decodeFrame (fmterB (JsonText.paste t)) = some (t, []) ↔
      (∀ row ∈ t, ∀ w ∈ row, w.all JsonText.plain) ∧ (JsonText.paste t).length < 10 ^ 4 := by
  by_cases hlen : (JsonText.paste t).length < 10 ^ 4
  · rw [decodeFrame_short hlen, ← JsonText.table_paste_iff, and_iff_left hlen]
    constructor
    · intro h
      obtain ⟨⟨t', r⟩, htable, h⟩ := Option.bind_eq_some_iff.mp h
      split_ifs at h with hr
      obtain ⟨rfl, -⟩ := Prod.mk.injEq .. ▸ Option.some.inj h
      rw [htable, show r = [] from hr]
    · intro h
      rw [h]
      rfl
  · rw [decodeFrame_long (Nat.le_of_not_lt hlen)]
    exact iff_of_false (by simp) fun h => hlen h.2

/-! ### What the phone gets -/

/-- The text is the one of the intended commands, pasted. -/
theorem WxVoteSession.text_eq_paste (acc script mp url : Str) (pro : AccountPro) :
    text acc script mp url pro = JsonText.paste (intended acc script mp url pro) := by
  simp [text, format, kvoteCmdFormat, Str.of, pieces, Piece.print, Decimal.digit, intended, JsonText.paste,
    JsonText.pasteRow, JsonText.bracketed, JsonText.quoted]

theorem KeepWxAccountSession.text_eq_paste (acc : Str) (pro : AccountPro) :
    text acc pro = JsonText.paste (intended acc pro) := by
  simp [text, format, kkeepWxAccCmdFormat, Str.of, pieces, Piece.print, Decimal.digit, intended, JsonText.paste,
    JsonText.pasteRow, JsonText.bracketed, JsonText.quoted]

theorem WxVoteSession.length_paste (acc script mp url : Str) (pro : AccountPro) :
    (JsonText.paste (intended acc script mp url pro)).length =
      (fields acc script mp url pro).flatten.length + 161 := by
  simp [JsonText.length_paste, JsonText.arraySize, intended, fields, cmdWxLogin, cmdWxAddMp, cmdWxClearMsgRecord,
    cmdWxSendMsg, cmdDownloadFile, kdownloadToPath, cmdWxVote, cmdWxLogout, Str.of]
  omega

theorem KeepWxAccountSession.length_paste (acc : Str) (pro : AccountPro) :
    (JsonText.paste (intended acc pro)).length = (fields acc pro).flatten.length + 62 := by
  simp [JsonText.length_paste, JsonText.arraySize, intended, fields, cmdWxLogin, cmdWxAddNearFriend,
    cmdWxRandomSendSns, cmdWxLogout, Str.of]
  omega

/-- The strings of the program are plain: it is up to the fields. -/
theorem WxVoteSession.plain_iff (acc script mp url : Str) (pro : AccountPro) :
    (∀ row ∈ intended acc script mp url pro, ∀ w ∈ row, w.all JsonText.plain) ↔
      (fields acc script mp url pro).flatten.all JsonText.plain := by
  have hconst : ∀ w ∈ [cmdWxLogin, cmdWxAddMp, cmdWxClearMsgRecord, cmdWxSendMsg, cmdDownloadFile, kdownloadToPath,
      cmdWxVote, cmdWxLogout], w.all JsonText.plain = true := by
    decide
  simp only [List.forall_mem_cons] at hconst
  simp only [intended, fields, List.forall_mem_cons, List.not_mem_nil, false_imp_iff, implies_true, List.flatten_cons,
    List.flatten_nil, List.append_nil, List.all_append, Bool.and_eq_true, hconst, true_and, and_true]
  tauto

theorem KeepWxAccountSession.plain_iff (acc : Str) (pro : AccountPro) :
    (∀ row ∈ intended acc pro, ∀ w ∈ row, w.all JsonText.plain) ↔ (fields acc pro).flatten.all JsonText.plain := by
  have hconst : ∀ w ∈ [cmdWxLogin, cmdWxAddNearFriend, cmdWxRandomSendSns, cmdWxLogout],
      w.all JsonText.plain = true := by
    decide
  simp only [List.forall_mem_cons] at hconst
  simp only [intended, fields, List.forall_mem_cons, List.not_mem_nil, false_imp_iff, implies_true, List.flatten_cons,
    List.flatten_nil, List.append_nil, List.all_append, Bool.and_eq_true, hconst, true_and, and_true]

/-- A vote command comes through if and only if its fields are plain and not
too long. -/
theorem WxVoteSession.decodeFrame_command_iff (acc script mp url : Str) (pro : AccountPro) :
    decodeFrame (command acc script mp url pro) = some (intended acc script mp url pro, []) ↔
      (fields acc script mp url pro).flatten.all JsonText.plain ∧
        (fields acc script mp url pro).flatten.length ≤ 9838 := by
  rw [command, text_eq_paste, decodeFrame_paste_iff, plain_iff, length_paste]
  apply and_congr_right'
  omega

theorem KeepWxAccountSession.decodeFrame_command_iff (acc : Str) (pro : AccountPro) :
    decodeFrame (command acc pro) = some (intended acc pro, []) ↔
      (fields acc pro).flatten.all JsonText.plain ∧ (fields acc pro).flatten.length ≤ 9937 := by
  rw [command, text_eq_paste, decodeFrame_paste_iff, plain_iff, length_paste]
  apply and_congr_right'
  omega

/-- **The phone gets the commands of an account if and only if no field has a
quote, a backslash or a control character and the fields leave the text
shorter than 10000 bytes.** -/
theorem command_decodes_iff (acc script mp url : Str) (pro : AccountPro) :
    (decodeFrame (WxVoteSession.command acc script mp url pro) =
        some (WxVoteSession.intended acc script mp url pro, []) ↔
      (WxVoteSession.fields acc script mp url pro).flatten.all JsonText.plain ∧
        (WxVoteSession.fields acc script mp url pro).flatten.length ≤ 9838) ∧
    (decodeFrame (KeepWxAccountSession.command acc pro) = some (KeepWxAccountSession.intended acc pro, []) ↔
      (KeepWxAccountSession.fields acc pro).flatten.all JsonText.plain ∧
        (KeepWxAccountSession.fields acc pro).flatten.length ≤ 9937) :=
  ⟨WxVoteSession.decodeFrame_command_iff acc script mp url pro, KeepWxAccountSession.decodeFrame_command_iff acc pro⟩

/-- An account with a quote for its password. -/
def quotePassword : AccountPro := ⟨Str.of "\"", [], [], 0, 0, ∅⟩

/-- The commands for an account with a quote in its password are not read. -/
theorem quote_in_password : ¬ ∀ (acc script mp url : Str) (pro : AccountPro),
    decodeFrame (WxVoteSession.command acc script mp url pro) =
        some (WxVoteSession.intended acc script mp url pro, []) ∧
      decodeFrame (KeepWxAccountSession.command acc pro) = some (KeepWxAccountSession.intended acc pro, []) := by
  intro h
  have hplain := ((WxVoteSession.decodeFrame_command_iff _ _ _ _ _).mp (h [] [] [] [] quotePassword).1).1
  exact absurd hplain (by decide)

end ScheduleCenter
