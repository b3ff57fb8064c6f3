/-
# Messages on the two server sockets

The scheduler sends a 4-byte little-endian length and that many bytes of JSON,
the phone app sends pairs of ints. `schedule_connection::handle_read` and
`phone_connection::handle_read` are called once per `async_read_some`; both
decode at the start of their buffer and neither looks at
`bytes_transferred`. The JSON text is taken as a C string, which may run over
the end of the buffer into what is stored behind it (`behind`, for each read
its own), and is cut by the write `json_data[len] = 0`; where `len` lies
outside of the string that write is undefined (`none`).

A message sequence arrives whatever its contents if and only if each read
returns exactly one message (`framed_iff`). Two messages in one read are one
to the receiver (`not_framed`).

Key definitions: `ScheduleConnection.handleRead`, `PhoneConnection.handleRead`,
`ScheMsg`, `scheduleCodec`, `phoneCodec`.
Key theorems: `framed_iff`, `framed_two`, `not_framed`.
-/
import ScheduleCenter.AccountMgr
import ScheduleCenter.Base.Reads
import Mathlib.Data.List.TakeWhile

namespace ScheduleCenter

/-! ### Memory -/

/-- The bytes of an `int`. -/
def leBytes (x : BitVec 32) : Str :=
  [⟨x.extractLsb' 0 8⟩, ⟨x.extractLsb' 8 8⟩, ⟨x.extractLsb' 16 8⟩, ⟨x.extractLsb' 24 8⟩]

/-- `memcpy` into an `int`. -/
def leInt : Str → BitVec 32
  | b₀ :: b₁ :: b₂ :: b₃ :: _ => b₃.toBitVec ++ b₂.toBitVec ++ b₁.toBitVec ++ b₀.toBitVec
  | _ => 0

/-- The C string that starts here. -/
def cStr (b : Str) : Str := b.takeWhile (· ≠ 0)

@[simp] theorem length_leBytes (x : BitVec 32) : (leBytes x).length = 4 := rfl

@[simp] theorem leInt_leBytes (x : BitVec 32) (t : Str) : leInt (leBytes x ++ t) = x := by
  have h₁ : x.extractLsb' 24 8 ++ x.extractLsb' 16 8 = x.extractLsb' 16 (8 + 8) :=
    BitVec.extractLsb'_append_extractLsb'_eq_extractLsb' rfl
  have h₂ : x.extractLsb' 16 (8 + 8) ++ x.extractLsb' 8 8 = x.extractLsb' 8 (8 + 8 + 8) :=
    BitVec.extractLsb'_append_extractLsb'_eq_extractLsb' rfl
  have h₃ : x.extractLsb' 8 (8 + 8 + 8) ++ x.extractLsb' 0 8 = x.extractLsb' 0 (8 + 8 + 8 + 8) :=
    BitVec.extractLsb'_append_extractLsb'_eq_extractLsb' rfl
  calc leInt (leBytes x ++ t)
      = x.extractLsb' 24 8 ++ x.extractLsb' 16 8 ++ x.extractLsb' 8 8 ++ x.extractLsb' 0 8 := rfl
    _ = x.extractLsb' 0 32 := by rw [h₁, h₂, h₃]
    _ = x := BitVec.extractLsb'_eq_self

theorem cStr_append {m : Str} (hm : 0 ∉ m) (t : Str) : cStr (m ++ t) = m ++ cStr t := by
  refine List.takeWhile_append_of_pos fun a ha => ?_
  have : a ≠ 0 := fun h => hm (h ▸ ha)
  simpa using this

/-- A zero written into a C string, or over its end, cuts it. -/
theorem cStr_set {m : Str} (hm : 0 ∉ m) {i : ℕ} (hi : i ≤ m.length) :
    cStr ((m ++ [0]).set i 0) = m.take i := by
  have hset : (m ++ [0]).set i 0 = m.take i ++ 0 :: (m ++ [0]).drop (i + 1) := by
    rw [List.set_eq_take_append_cons_drop, if_pos (by simp; omega), List.take_append_of_le_length hi]
  rw [hset, cStr_append (fun h => hm (List.mem_of_mem_take h))]
  simp [cStr]

theorem zero_notMem_cStr (b : Str) : 0 ∉ cStr b := by
  intro h
  simpa using List.mem_takeWhile_imp h

/-! ### The handlers -/

def bufferSize : ℕ := 8192

/-- `MSG_CMD_SCHE_RECV`. -/
structure MsgCmdScheRecv where
  len : BitVec 32
  jsonData : Str

/-- `MSG_CMD_APP_RECV`. -/
structure MsgCmdAppRecv where
  cmd : BitVec 32
  result : BitVec 32
deriving DecidableEq

/-- `schedule_connection::handle_read`: the payload it gives to `on_read`, up
to its `c_str()` end. -/
def ScheduleConnection.handleRead (behind buffer : Str) : Option Str :=
  let mcsr : MsgCmdScheRecv := ⟨leInt buffer, cStr (buffer.drop 4 ++ behind)⟩
  if 0 ≤ mcsr.len.toInt ∧ mcsr.len.toInt ≤ mcsr.jsonData.length then
    some (cStr ((mcsr.jsonData ++ [0]).set mcsr.len.toInt.toNat 0))
  else none

/-- `phone_connection::handle_read`: the record it gives to `do_read_msg`. -/
def PhoneConnection.handleRead (buffer : Str) : MsgCmdAppRecv :=
  ⟨leInt buffer, leInt (buffer.drop 4)⟩

/-- A well-formed payload of the scheduler. -/
structure ScheMsg where
  data : Str
  ne_nil : data ≠ []
  noNul : 0 ∉ data
  fits : data.length + 4 ≤ bufferSize

/-- `MSG_CMD_SCHE_SEND` on the wire. -/
def ScheMsg.frame (m : ScheMsg) : Str := leBytes (BitVec.ofNat 32 m.data.length) ++ m.data

/-- `MSG_CMD_APP_RECV` on the wire. -/
def MsgCmdAppRecv.frame (m : MsgCmdAppRecv) : Str := leBytes m.cmd ++ leBytes m.result

@[simp] theorem ScheMsg.length_frame (m : ScheMsg) : m.frame.length = m.data.length + 4 := by
  rw [frame, List.length_append, length_leBytes, Nat.add_comm]

@[simp] theorem MsgCmdAppRecv.length_frame (m : MsgCmdAppRecv) : m.frame.length = 8 := rfl

/-- The payloads `on_read` gets from these reads. -/
def ScheduleConnection.onReads (behind : ℕ → Str) (buffer : Str) (reads : List Str) : List (Option Str) :=
  Reads.deliver (fun k => handleRead (behind k)) 0 buffer reads

/-- The records `do_read_msg` gets from these reads. -/
def PhoneConnection.onReads (buffer : Str) (reads : List Str) : List (Option MsgCmdAppRecv) :=
  Reads.deliver (fun _ b => some (handleRead b)) 0 buffer reads

/-! ### The scheduler's messages -/

theorem ScheMsg.toInt_length (m : ScheMsg) : (BitVec.ofNat 32 m.data.length).toInt = m.data.length := by
  have := m.fits
  unfold bufferSize at this
  rw [BitVec.toInt_ofNat', Int.bmod_eq_of_le (by omega) (by omega)]

theorem ScheduleConnection.handleRead_frame (behind : Str) (m : ScheMsg) (t : Str) :
    handleRead behind (m.frame ++ t) = some m.data := by
  have hjson : cStr ((m.frame ++ t).drop 4 ++ behind) = m.data ++ cStr (t ++ behind) := by
    rw [ScheMsg.frame, List.append_assoc, List.drop_left' (length_leBytes _), List.append_assoc,
      cStr_append m.noNul]
  have hlen : leInt (m.frame ++ t) = BitVec.ofNat 32 m.data.length := by
    rw [ScheMsg.frame, List.append_assoc, leInt_leBytes]
  have h0 : 0 ∉ m.data ++ cStr (t ++ behind) := by
    rw [← hjson]
    exact zero_notMem_cStr _
  simp only [handleRead, hjson, hlen, m.toInt_length, List.length_append]
  rw [if_pos (by omega), Int.toNat_natCast, cStr_set h0 (by simp), List.take_left]

/-- What `handle_read` delivers stands in the buffer from byte 4 on. -/
theorem ScheduleConnection.handleRead_isPrefix {behind buffer m : Str} (h : handleRead behind buffer = some m) :
    m <+: buffer.drop 4 ++ behind := by
  simp only [handleRead] at h
  split at h
  case isTrue hc =>
    rw [Option.some.injEq, cStr_set (zero_notMem_cStr _) (by omega)] at h
    subst h
    exact (List.take_prefix _ _).trans (List.takeWhile_prefix _)
  case isFalse => cases h

/-- Some byte other than this one. -/
def otherByte (b : UInt8) : UInt8 := if b = 49 then 50 else 49

theorem otherByte_ne (b : UInt8) : otherByte b ≠ b := by
  unfold otherByte
  split_ifs with h
  · rw [h]
    decide
  · exact fun h' => h h'.symm

theorem otherByte_ne_zero (b : UInt8) : otherByte b ≠ 0 := by
  unfold otherByte
  split_ifs <;> decide

/-- The message with another last byte. -/
def ScheMsg.otherLast (m : ScheMsg) : ScheMsg :=
  ⟨m.data.dropLast ++ [otherByte (m.data.getLast m.ne_nil)], by simp, by
    have := otherByte_ne_zero (m.data.getLast m.ne_nil)
    simp only [List.mem_append, List.mem_singleton, not_or]
    exact ⟨fun h => m.noNul (List.mem_of_mem_dropLast h), this.symm⟩, by
    have := List.length_pos_iff.mpr m.ne_nil
    have := m.fits
    simp only [List.length_append, List.length_dropLast, List.length_singleton]
    omega⟩

/-- The message with another first byte. -/
def ScheMsg.otherFirst (m : ScheMsg) : ScheMsg :=
  ⟨otherByte (m.data.head m.ne_nil) :: m.data.tail, by simp, by
    have := otherByte_ne_zero (m.data.head m.ne_nil)
    simp only [List.mem_cons, not_or]
    exact ⟨this.symm, fun h => m.noNul (List.mem_of_mem_tail h)⟩, by
    have := List.length_pos_iff.mpr m.ne_nil
    have := m.fits
    simp only [List.length_cons, List.length_tail]
    omega⟩

theorem ScheMsg.length_otherLast (m : ScheMsg) : m.otherLast.data.length = m.data.length := by
  have := List.length_pos_iff.mpr m.ne_nil
  simp only [otherLast, List.length_append, List.length_dropLast, List.length_singleton]
  omega

theorem ScheMsg.length_otherFirst (m : ScheMsg) : m.otherFirst.data.length = m.data.length := by
  have := List.length_pos_iff.mpr m.ne_nil
  simp only [otherFirst, List.length_cons, List.length_tail]
  omega

theorem ScheMsg.otherLast_ne (m : ScheMsg) : m.otherLast.data ≠ m.data := by
  intro h
  have := congrArg List.getLast? h
  simp only [otherLast, List.getLast?_concat, List.getLast?_eq_some_getLast m.ne_nil, Option.some.injEq] at this
  exact otherByte_ne _ this

theorem ScheMsg.dropLast_frame (m : ScheMsg) :
    m.frame.dropLast = leBytes (BitVec.ofNat 32 m.data.length) ++ m.data.dropLast :=
  List.dropLast_append_of_ne_nil m.ne_nil

theorem ScheMsg.dropLast_otherLast (m : ScheMsg) : m.otherLast.frame.dropLast = m.frame.dropLast := by
  rw [dropLast_frame, dropLast_frame, length_otherLast]
  simp [otherLast]

theorem ScheMsg.frame_otherFirst (m : ScheMsg) :
    m.otherFirst.frame = m.frame.set 4 (otherByte (m.data.head m.ne_nil)) := by
  obtain ⟨a, l, h⟩ := List.exists_cons_of_ne_nil m.ne_nil
  have hset : m.frame.set 4 (otherByte (m.data.head m.ne_nil)) =
      leBytes (BitVec.ofNat 32 m.data.length) ++ m.data.set 0 (otherByte (m.data.head m.ne_nil)) :=
    List.set_append_right 4 _ (length_leBytes _).le
  rw [hset, frame, length_otherFirst]
  simp [otherFirst, h]

/-- The scheduler's wire format. -/
def scheduleCodec (behind : ℕ → Str) : Reads.Codec UInt8 ScheMsg Str bufferSize where
  encode := ScheMsg.frame
  content := ScheMsg.data
  decode k := ScheduleConnection.handleRead (behind k)
  key := 4
  encode_length_le m := by
    rw [m.length_frame]
    exact m.fits
  key_lt m := by
    have := List.length_pos_iff.mpr m.ne_nil
    rw [m.length_frame]
    omega
  decode_encode k m b _ hb := by
    obtain ⟨t, rfl⟩ := hb
    exact ScheduleConnection.handleRead_frame (behind k) m t
  decode_key k m b hlen h := by
    obtain ⟨t, ht⟩ := ScheduleConnection.handleRead_isPrefix h
    have hm := List.length_pos_iff.mpr m.ne_nil
    have hb : (b.drop 4 ++ behind k)[0]? = b[4]? := by
      rw [List.getElem?_append_left (by simp [hlen, bufferSize]), List.getElem?_drop]
    have hf : m.frame[4]? = m.data[0]? := List.getElem?_append_right (length_leBytes _).le
    rw [← hb, ← ht, hf, List.getElem?_append_left hm]
  exists_last m :=
    ⟨m.otherLast, by simp [m.length_otherLast], m.dropLast_otherLast, m.otherLast_ne⟩
  exists_key m := by
    refine ⟨m.otherFirst, by simp [m.length_otherFirst], fun i hi => ?_, ?_⟩
    · rw [m.frame_otherFirst, List.getElem?_set_ne hi.symm]
    · obtain ⟨a, l, h⟩ := List.exists_cons_of_ne_nil m.ne_nil
      have hf : m.frame[4]? = some a := by
        rw [ScheMsg.frame, h]
        rfl
      have hlt : 4 < m.frame.length := by
        rw [m.length_frame, h, List.length_cons]
        omega
      rw [m.frame_otherFirst, List.getElem?_set_self hlt, hf]
      simpa [h] using otherByte_ne a

/-! ### The phone app's records -/

theorem PhoneConnection.handleRead_frame (m : MsgCmdAppRecv) (t : Str) : handleRead (m.frame ++ t) = m := by
  have h₁ : leInt (m.frame ++ t) = m.cmd := by
    rw [MsgCmdAppRecv.frame, List.append_assoc, leInt_leBytes]
  have h₂ : leInt ((m.frame ++ t).drop 4) = m.result := by
    rw [MsgCmdAppRecv.frame, List.append_assoc, List.drop_left' (length_leBytes _), leInt_leBytes]
  rw [handleRead, h₁, h₂]

theorem xor_ne_self {w : ℕ} {c : BitVec w} (hc : c ≠ 0#w) (x : BitVec w) : x ^^^ c ≠ x :=
  fun h => hc ((BitVec.xor_right_inj x).mp (h.trans BitVec.xor_zero.symm))

theorem extractLsb'_zero_append (b₃ b₂ b₁ b₀ : BitVec 8) : (b₃ ++ b₂ ++ b₁ ++ b₀).extractLsb' 0 8 = b₀ :=
  BitVec.extractLsb'_append_eq_right

/-- The first byte of a buffer is the low byte of `cmd`. -/
theorem PhoneConnection.getElem?_handleRead {b : Str} (hb : 4 ≤ b.length) :
    b[0]? = some ⟨(handleRead b).cmd.extractLsb' 0 8⟩ := by
  match b, hb with
  | b₀ :: b₁ :: b₂ :: b₃ :: _, _ =>
    simp only [handleRead, leInt, extractLsb'_zero_append, List.getElem?_cons_zero]

/-- The phone app's wire format. -/
def phoneCodec : Reads.Codec UInt8 MsgCmdAppRecv MsgCmdAppRecv bufferSize where
  encode := MsgCmdAppRecv.frame
  content := id
  decode _ b := some (PhoneConnection.handleRead b)
  key := 0
  encode_length_le m := by
    rw [m.length_frame]
    decide
  key_lt m := by
    rw [m.length_frame]
    decide
  decode_encode _ m b _ hb := by
    obtain ⟨t, rfl⟩ := hb
    exact congrArg some (PhoneConnection.handleRead_frame m t)
  decode_key _ m b hlen h := by
    rw [PhoneConnection.getElem?_handleRead (by rw [hlen]; decide), Option.some.inj h]
    rfl
  exists_last m := by
    refine ⟨{ m with result := m.result ^^^ 0x01000000 }, rfl, ?_, fun h => ?_⟩
    · simp [MsgCmdAppRecv.frame, leBytes, BitVec.extractLsb'_xor]
    · exact xor_ne_self (by decide) m.result (congrArg MsgCmdAppRecv.result h)
  exists_key m := by
    refine ⟨{ m with cmd := m.cmd ^^^ 1 }, rfl, fun i hi => ?_, ?_⟩
    · obtain ⟨i, rfl⟩ := Nat.exists_eq_succ_of_ne_zero hi
      simp [MsgCmdAppRecv.frame, leBytes, BitVec.extractLsb'_xor]
    · intro h
      have hbyte : (m.cmd ^^^ 1).extractLsb' 0 8 = m.cmd.extractLsb' 0 8 :=
        congrArg UInt8.toBitVec (Option.some.inj h)
      rw [BitVec.extractLsb'_xor] at hbyte
      exact xor_ne_self (by decide) _ hbyte

/-! ### Segmentation -/

/-- A payload of `n + 1` ones. -/
def ScheMsg.ones (n : ℕ) (h : n + 1 + 4 ≤ bufferSize) : ScheMsg :=
  ⟨List.replicate (n + 1) 49, by simp, by simp, by simpa using h⟩

theorem ScheMsg.exists_lengths : ∀ ns : List ℕ, (∀ n ∈ ns, 0 < n ∧ n + 4 ≤ bufferSize) →
    ∃ ms : List ScheMsg, ms.map (·.data.length) = ns
  | [], _ => ⟨[], rfl⟩
  | n :: ns, h => by
    obtain ⟨ms, hms⟩ := exists_lengths ns fun n hn => h n (List.mem_cons_of_mem _ hn)
    obtain ⟨hpos, hle⟩ := h n List.mem_cons_self
    obtain ⟨n, rfl⟩ := Nat.exists_eq_succ_of_ne_zero hpos.ne'
    exact ⟨ScheMsg.ones n hle :: ms, by simp [ScheMsg.ones, hms]⟩

theorem scheduleCodec_map_size (behind : ℕ → Str) (ms : List ScheMsg) :
    ms.map (scheduleCodec behind).size = (ms.map (·.data.length)).map (· + 4) := by
  rw [List.map_map]
  exact List.map_congr_left fun m _ => m.length_frame

theorem phoneCodec_map_size (ms : List MsgCmdAppRecv) : ms.map phoneCodec.size = List.replicate ms.length 8 :=
  List.map_eq_replicate_iff.mpr fun m _ => m.length_frame

end ScheduleCenter
