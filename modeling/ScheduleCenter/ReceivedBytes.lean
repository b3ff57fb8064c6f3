/-
# What the decoders read

Three functions decode a length and as many bytes out of `buffer_`:
`schedule_connection::handle_read` and, in the same words,
`handle_read` of the two sessions. None of them asks how many bytes have been
received. Here they are code over a memory that begins with `buffer_`, so that
the cells they read can be told.

A decoder acts on received bytes if it reads no other, uses no index outside
of a string or of what was allocated, and so does the same whatever was in the
rest of the memory before. For each decoder this is a condition on the bytes
received (`onReceived_iff`): the message must be complete and, for the
scheduler's, followed by a zero. A header alone makes a session act on the
message before (`header_alone`).

Key definitions: `ScheduleConnection.decode`, `WxVoteSession.decode`, `KeepWxAccountSession.decode`,
`OnReceived`, `ScheComplete`, `ReplyComplete`.
Key theorems: `copyJson_eq`, `ScheduleConnection.eval_decode`, `onReceived_iff`, `header_alone`.
-/
import ScheduleCenter.HandleRead
import ScheduleCenter.Base.Footprint

namespace ScheduleCenter

open Footprint

/-! ### The decoders -/

/-- `schedule_connection::handle_read` up to `on_read`: the string it is given.
`extra` bytes of memory follow the buffer; the end of the C string may lie
among them, and without any the call is undefined. -/
def ScheduleConnection.decode (extra : ℕ) : Prog UInt8 (Except Exn Str) :=
  (block 0 4).bind fun len =>
  (upTo (· = 0) 4 (bufferSize + extra - 4)).bind fun jsonData => .ret <|
    match jsonData with
    | none => .error .undefined
    | some data =>
      -- `json_data[len] = 0`: up to the terminating zero it is a byte of the string
      if 0 ≤ (leInt len).toInt ∧ (leInt len).toInt ≤ data.length then .ok (data.set (leInt len).toInt.toNat 0)
      else .error .undefined

/-- The copy out of the buffer in the two sessions: the text given to `ss`. -/
def copyJsonCode : Prog UInt8 (Except Exn Str) :=
  (block 0 4).bind fun len =>
    match lexicalCast (cStr len) with
    | none => .ret (.error .badLexicalCast)
    | some ilen =>
      if ilen < -1 then .ret (.error .badAlloc)
      -- no bytes are allocated and as many copied as there can be
      else if ilen = -1 then .ret (.error .undefined)
      else (block 4 ilen.toNat).bind fun json => .ret (.ok (cStr json))

/-- `wx_vote_session::handle_read` up to the parse. -/
def WxVoteSession.decode : Prog UInt8 (Except Exn Str) := copyJsonCode

/-- `keep_wx_account_session::handle_read` up to the parse. -/
def KeepWxAccountSession.decode : Prog UInt8 (Except Exn Str) := copyJsonCode

/-- The decoder acts on these received bytes only: the result is the same
whatever else the memory holds, and all indices are inside. -/
structure OnReceived (decode : Prog UInt8 (Except Exn Str)) (received : Str) : Prop where
  same : ∀ mem mem', Holds received mem → Holds received mem' → eval mem' decode = eval mem decode
  inside : ∀ mem, Holds received mem → ∀ i ∈ cells mem decode, i < received.length
  indices : ∀ mem, Holds received mem → eval mem decode ≠ .error .undefined

/-- The memory of a buffer and what is behind it. -/
def memory (behind buffer : Str) : ℕ → UInt8 := ((buffer ++ behind).getD · 0)

theorem holds_memory (behind buffer : Str) : Holds (buffer ++ behind) (memory behind buffer) := holds_getD _ 0

/-! ### The same functions on a buffer -/

theorem cStr_append_zeros (x : Str) (k : ℕ) : cStr (x ++ List.replicate k 0) = cStr x := by
  induction x with
  | nil =>
    rcases k with _ | k
    · rfl
    · simp [cStr, List.replicate_succ]
  | cons a x ih =>
    by_cases ha : a = 0
    · simp [cStr, ha]
    · simp only [cStr, List.cons_append] at ih ⊢
      rw [List.takeWhile_cons_of_pos (by simpa using ha), List.takeWhile_cons_of_pos (by simpa using ha), ih]

/-- A block of a list with zeros behind it. -/
theorem eval_block_getD (l : Str) (i n : ℕ) :
    eval (l.getD · 0) (block i n) = (l.drop i).take n ++ List.replicate (n - (l.length - i)) 0 := by
  rw [eval_block]
  refine List.ext_getElem? fun j => ?_
  by_cases hj : j < n
  · rw [List.getElem?_map, List.getElem?_range' hj, Nat.one_mul, Option.map_some]
    by_cases hl : i + j < l.length
    · rw [List.getElem?_append_left (by simp; omega), List.getElem?_take_of_lt hj, List.getElem?_drop,
        List.getD_eq_getElem?_getD, List.getElem?_eq_getElem hl, Option.getD_some]
    · rw [List.getElem?_append_right (by simp; omega), List.getD_eq_getElem?_getD,
        List.getElem?_eq_none (Nat.le_of_not_lt hl), List.getElem?_replicate_of_lt (by simp; omega)]
      rfl
  · rw [List.getElem?_eq_none (by simp; omega), List.getElem?_eq_none (by simp; omega)]

theorem cStr_block (l : Str) (i n : ℕ) : cStr (eval (l.getD · 0) (block i n)) = cStr ((l.drop i).take n) := by
  rw [eval_block_getD, cStr_append_zeros]

/-- The header is in the buffer. -/
theorem eval_header (behind : Str) {buffer : Str} (hlen : 4 ≤ buffer.length) :
    eval (memory behind buffer) (block 0 4) = buffer.take 4 := by
  rw [eval_block_holds (holds_memory behind buffer) (by rw [List.length_append]; omega), List.drop_zero,
    List.take_append_of_le_length hlen]

/-- The code of the sessions computes what they copy, where it reads no cell
behind the buffer. -/
theorem copyJson_eq (behind : Str) {buffer : Str} (hlen : buffer.length = bufferSize) :
    copyJson buffer = if ∀ i ∈ cells (memory behind buffer) copyJsonCode, i < bufferSize then
      eval (memory behind buffer) copyJsonCode else .error .undefined := by
  have hlen4 : 4 ≤ buffer.length := by
    rw [hlen]
    decide
  have hheader : ∀ i ∈ List.range' 0 4, i < bufferSize := by decide
  have hbind : ∀ (ilen : ℤ) (f : ℤ → Except Exn Str), (Except.ok ilen >>= f) = f ilen := fun _ _ => rfl
  rw [copyJsonCode, eval_bind, cells_bind, cells_block, eval_header behind hlen4, copyJson]
  rcases lexicalCast (cStr (buffer.take 4)) with _ | ilen
  · rw [if_pos (by simpa using hheader)]
    rfl
  · simp only [Outcome.orThrow, Option.elim_some, hbind]
    by_cases hneg : ilen < -1
    · rw [if_pos hneg, if_pos hneg, cells_ret, List.append_nil, if_pos hheader]
      rfl
    · rw [if_neg hneg, if_neg hneg]
      by_cases hone : ilen = -1
      · rw [if_pos hone, if_pos hone, cells_ret, List.append_nil, if_pos hheader]
        rfl
      · rw [if_neg hone, if_neg hone, cells_bind, cells_block, cells_ret, List.append_nil, eval_bind, eval_ret]
        by_cases hover : bufferSize < 4 + ilen
        · have hlast : 4 + ilen.toNat - 1 ∈ List.range' 4 ilen.toNat := List.mem_range'_1.mpr (by omega)
          rw [if_pos hover, if_neg fun h => ?_]
          · rfl
          · have := h _ (List.mem_append_right _ hlast)
            omega
        · have hinside : ∀ i ∈ List.range' 0 4 ++ List.range' 4 ilen.toNat, i < bufferSize := by
            intro i hi
            rcases List.mem_append.mp hi with hi | hi
            · exact hheader i hi
            · have := (List.mem_range'_1.mp hi).2
              omega
          have hdrop : (buffer.drop 4).length = bufferSize - 4 := by rw [List.length_drop, hlen]
          have hjson : cStr (eval (memory behind buffer) (block 4 ilen.toNat)) =
              cStr ((buffer.drop 4).take ilen.toNat) := by
            rw [show memory behind buffer = ((buffer ++ behind).getD · 0) from rfl, cStr_block,
              List.drop_append_of_le_length hlen4, List.take_append_of_le_length (by omega)]
          rw [if_neg hover, if_pos hinside, hjson]
          rfl

theorem leInt_take : ∀ b : Str, leInt (b.take 4) = leInt b
  | [] | [_] | [_, _] | [_, _, _] => rfl
  | _ :: _ :: _ :: _ :: _ => rfl

/-- A zero written over a byte of a C string or over its end. -/
theorem cStr_set_zero {m : Str} (hm : 0 ∉ m) {i : ℕ} (hi : i ≤ m.length) : cStr (m.set i 0) = m.take i := by
  rw [← cStr_set hm hi, ← cStr_append_zeros (m.set i 0) 1]
  rcases Nat.lt_or_eq_of_le hi with hlt | rfl
  · rw [List.set_append_left _ _ hlt]
    rfl
  · rw [List.set_append_right _ _ (Nat.le_refl _), List.set_eq_of_length_le (Nat.le_refl _), Nat.sub_self]
    rfl

/-- The C string in a memory with a zero. -/
theorem eval_cStr {l : Str} {mem : ℕ → UInt8} {i n : ℕ} (hm : ∀ j a, l[j]? = some a → mem (i + j) = a)
    (hlen : l.length ≤ n) (hend : 0 ∈ l) :
    eval mem (upTo (· = 0) i n) = some (cStr l) ∧ ∀ j ∈ cells mem (upTo (· = 0) i n), j < i + l.length := by
  have hcstr : cStr l = l.takeWhile (fun a => !decide (a = 0)) := by simp [cStr]
  rw [hcstr]
  exact eval_upTo hm hlen ⟨0, hend, rfl⟩

/-- The code of the scheduler's connection computes the payload, if its C
string ends. -/
theorem ScheduleConnection.eval_decode {behind buffer : Str} (hlen : buffer.length = bufferSize)
    (hend : 0 ∈ buffer.drop 4 ++ behind) :
    (eval (memory behind buffer) (decode behind.length)).toOption.map cStr = handleRead behind buffer := by
  have hlen4 : 4 ≤ buffer.length := by
    rw [hlen]
    decide
  have hdrop : (buffer ++ behind).drop 4 = buffer.drop 4 ++ behind := List.drop_append_of_le_length hlen4
  have hdata := (eval_cStr (n := bufferSize + behind.length - 4) ((holds_memory behind buffer).drop 4)
    (by simp [hlen]) (hdrop ▸ hend)).1
  rw [hdrop] at hdata
  simp only [decode, eval_bind, eval_header behind hlen4, hdata, leInt_take, eval_ret, handleRead]
  by_cases hinside : 0 ≤ (leInt buffer).toInt ∧ (leInt buffer).toInt ≤ (cStr (buffer.drop 4 ++ behind)).length
  · have hle : (leInt buffer).toInt.toNat ≤ (cStr (buffer.drop 4 ++ behind)).length := by omega
    rw [if_pos hinside, if_pos hinside, cStr_set (zero_notMem_cStr _) hle]
    exact congrArg some (cStr_set_zero (zero_notMem_cStr _) hle)
  · rw [if_neg hinside, if_neg hinside]
    rfl

/-! ### When a decoder acts on received bytes -/

/-- The bytes end with the message of the scheduler: the length, and a C
string with an end that is not shorter. -/
def ScheComplete (received : Str) : Prop :=
  4 ≤ received.length ∧ 0 ∈ received.drop 4 ∧ 0 ≤ (leInt received).toInt ∧
    (leInt received).toInt ≤ (cStr (received.drop 4)).length

/-- The bytes hold a header and, if it is a number that memory can be
allocated for, as many more; `-1` is none of these. -/
def ReplyComplete (received : Str) : Prop :=
  4 ≤ received.length ∧ ∀ ilen, lexicalCast (cStr (received.take 4)) = some ilen →
    ilen < -1 ∨ 0 ≤ ilen ∧ 4 + ilen ≤ received.length

/-- What is inside does not depend on the rest. -/
theorem OnReceived.of_inside {decode : Prog UInt8 (Except Exn Str)} {received : Str}
    (h : ∀ mem, Holds received mem →
      (∀ i ∈ cells mem decode, i < received.length) ∧ eval mem decode ≠ .error .undefined) :
    OnReceived decode received where
  same mem _ hm hm' := eval_eq_of_holds hm hm' decode (h mem hm).1
  inside mem hm := (h mem hm).1
  indices mem hm := (h mem hm).2

theorem onReceived_iff_inside {decode : Prog UInt8 (Except Exn Str)} {received : Str} {P : Prop}
    (h : ∀ mem, Holds received mem →
      ((∀ i ∈ cells mem decode, i < received.length) ∧ eval mem decode ≠ .error .undefined ↔ P)) :
    OnReceived decode received ↔ P := by
  constructor
  · intro hr
    have hm := holds_getD received 0
    exact (h _ hm).mp ⟨hr.inside _ hm, hr.indices _ hm⟩
  · exact fun hP => .of_inside fun mem hm => (h mem hm).mpr hP

/-- A decoder that begins with the header reads bytes not received if there
are fewer than four. -/
theorem not_inside_of_short {γ : Type} {received : Str} (hlen : ¬ 4 ≤ received.length) (mem : ℕ → UInt8)
    (f : Str → Prog UInt8 γ) : ¬ ∀ i ∈ cells mem ((block 0 4).bind f), i < received.length := by
  intro h
  have hmem : 3 ∈ cells mem ((block 0 4).bind f) := by
    rw [cells_bind, cells_block]
    exact List.mem_append_left _ (by decide)
  have := h 3 hmem
  omega

theorem header_inside {received : Str} (hlen : 4 ≤ received.length) {i : ℕ} (hi : i ∈ List.range' 0 4) :
    i < received.length := by
  have := (List.mem_range'_1.mp hi).2
  omega

theorem eval_header_of_holds {received : Str} (hlen : 4 ≤ received.length) {mem : ℕ → UInt8}
    (hm : Holds received mem) : eval mem (block 0 4) = received.take 4 := by
  rw [eval_block_holds hm hlen, List.drop_zero]

theorem onReceived_copyJsonCode (received : Str) : OnReceived copyJsonCode received ↔ ReplyComplete received := by
  apply onReceived_iff_inside
  intro mem hm
  by_cases hlen : 4 ≤ received.length
  · rw [ReplyComplete, and_iff_right hlen, copyJsonCode, cells_bind, cells_block, eval_bind,
      eval_header_of_holds hlen hm]
    rcases lexicalCast (cStr (received.take 4)) with _ | ilen
    · refine iff_of_true ⟨fun i hi => header_inside hlen ?_, by simp⟩ (by simp)
      simpa using hi
    · simp only [Option.some.injEq, forall_eq']
      by_cases hneg : ilen < -1
      · rw [if_pos hneg]
        refine iff_of_true ⟨fun i hi => header_inside hlen ?_, by simp⟩ (Or.inl hneg)
        simpa using hi
      · rw [if_neg hneg]
        by_cases hone : ilen = -1
        · rw [if_pos hone]
          exact iff_of_false (fun h => h.2 rfl) (by omega)
        · rw [if_neg hone, eval_bind, cells_bind, cells_block, eval_ret, cells_ret, List.append_nil]
          constructor
          · intro h
            refine Or.inr ⟨by omega, ?_⟩
            by_contra hshort
            have hlast : 4 + ilen.toNat - 1 ∈ List.range' 4 ilen.toNat := List.mem_range'_1.mpr (by omega)
            have := h.1 _ (List.mem_append_right _ hlast)
            omega
          · intro h
            refine ⟨fun i hi => ?_, by simp⟩
            rcases List.mem_append.mp hi with hi | hi
            · exact header_inside hlen hi
            · have := (List.mem_range'_1.mp hi).2
              omega
  · exact iff_of_false (fun h => not_inside_of_short hlen mem _ h.1) fun h => hlen h.1

theorem ScheduleConnection.onReceived_decode (extra : ℕ) {received : Str} (hn : received.length ≤ bufferSize) :
    OnReceived (decode extra) received ↔ ScheComplete received := by
  apply onReceived_iff_inside
  intro mem hm
  by_cases hlen : 4 ≤ received.length
  · have hrest : (received.drop 4).length = received.length - 4 := List.length_drop
    have hfuel : (received.drop 4).length ≤ bufferSize + extra - 4 := by omega
    have hend : 4 + (received.drop 4).length = received.length := by omega
    rw [ScheComplete, and_iff_right hlen, decode, cells_bind, cells_bind, cells_block, eval_bind, eval_bind,
      eval_header_of_holds hlen hm, eval_ret, cells_ret, List.append_nil, leInt_take]
    by_cases hzero : 0 ∈ received.drop 4
    · obtain ⟨hdata, hcells⟩ := eval_cStr (hm.drop 4) hfuel hzero
      have hinside : ∀ i ∈ List.range' 0 4 ++ cells mem (upTo (· = 0) 4 (bufferSize + extra - 4)),
          i < received.length := by
        intro i hi
        rcases List.mem_append.mp hi with hi | hi
        · exact header_inside hlen hi
        · exact hend ▸ hcells i hi
      rw [and_iff_right hinside, and_iff_right hzero, hdata]
      by_cases hindex : 0 ≤ (leInt received).toInt ∧ (leInt received).toInt ≤ (cStr (received.drop 4)).length
      · simp only [if_pos hindex]
        exact iff_of_true (by simp) hindex
      · simp only [if_neg hindex]
        exact iff_of_false (fun h => h rfl) hindex
    · refine iff_of_false (fun h => ?_) fun h => hzero h.1
      have hnone : ∀ a ∈ received.drop 4, ¬ decide (a = 0) = true := by
        intro a ha
        have hne : a ≠ 0 := fun h => hzero (h ▸ ha)
        simpa using hne
      rcases cells_upTo (hm.drop 4) hfuel hnone with heval | hcell
      · rw [heval] at h
        exact h.2 rfl
      · have := h.1 _ (List.mem_append_right _ hcell)
        omega
  · exact iff_of_false (fun h => not_inside_of_short hlen mem _ h.1) fun h => hlen h.1

/-- **Each decoder acts on the received bytes if and only if they hold the
message it is told of.** -/
theorem onReceived_iff (extra : ℕ) {received : Str} (hn : received.length ≤ bufferSize) :
    (OnReceived (ScheduleConnection.decode extra) received ↔ ScheComplete received) ∧
      (OnReceived WxVoteSession.decode received ↔ ReplyComplete received) ∧
      (OnReceived KeepWxAccountSession.decode received ↔ ReplyComplete received) :=
  ⟨ScheduleConnection.onReceived_decode extra hn, onReceived_copyJsonCode received, onReceived_copyJsonCode received⟩

/-- A reply that has come as a whole. -/
def okReply : Str := Str.of "0012" ++ okJson

theorem onReceived_okReply : okReply.length ≤ bufferSize ∧
    (OnReceived (ScheduleConnection.decode 0) okReply ↔ ScheComplete okReply) ∧
      (OnReceived WxVoteSession.decode okReply ↔ ReplyComplete okReply) ∧
      (OnReceived KeepWxAccountSession.decode okReply ↔ ReplyComplete okReply) :=
  ⟨by decide, onReceived_iff 0 (by decide)⟩

/-- Of a reply in two parts the header comes first; the session goes by what
the buffer holds from the reply before. -/
theorem header_alone : ¬ ∀ (extra : ℕ) (received : Str), received.length ≤ bufferSize →
    OnReceived (ScheduleConnection.decode extra) received ∧ OnReceived WxVoteSession.decode received ∧
      OnReceived KeepWxAccountSession.decode received := by
  intro h
  have hsame := (h 0 (Str.of "0012") (by decide)).2.1.same (okReply.getD · 0) ((Str.of "0012").getD · 0)
    (holds_getD okReply 0).left (holds_getD _ 0)
  have hbefore : eval (okReply.getD · 0) WxVoteSession.decode = .ok okJson := rfl
  have hempty : eval ((Str.of "0012").getD · 0) WxVoteSession.decode = .ok [] := rfl
  rw [hbefore, hempty, Except.ok.injEq] at hsame
  exact absurd hsame (by decide)

end ScheduleCenter
