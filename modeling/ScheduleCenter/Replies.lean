/-
# Replies of the phones: `handle_read` of the two sessions

A reply is a length in four decimal characters and that many bytes of JSON.
`wx_vote_session::handle_read` copies the JSON text out of its buffer, writes
it to a stringstream and calls `read_json` on it. The stringstream is static:
all sessions of the class have one, and `ss.clear()` clears its error flags,
not its content. After an error, what `read_json` has not read stands in front
of the next reply of whichever session. `read_json` itself is a parameter
(`JsonReader`).

The replies handled, and whichever comes next, are parsed as alone if and
only if each malformed one leaves nothing but white space behind
(`no_memory_iff`); a reply with one character too many spoils those after it
(`not_memoryless`). In the daily session the same error is not caught and ends
the process, so that every reply it handles is parsed as alone
(`KeepWxAccountSession.handleReads_prefix`).

Key definitions: `PhoneReply`, `JsonReader`, `WxVoteSession.handleRead`,
`KeepWxAccountSession.handleReads`.
Key theorems: `no_memory_iff`, `no_memory_cut`, `not_memoryless`,
`KeepWxAccountSession.handleReads_prefix`.
-/
import ScheduleCenter.Framing
import ScheduleCenter.Base.Residue

namespace ScheduleCenter

/-! ### The reply in the buffer -/

def isDigit (c : UInt8) : Bool := 48 ≤ c && c ≤ 57

/-- A number without a sign. -/
def digits (s : Str) : Option Int :=
  if s ≠ [] ∧ s.all isDigit then some (s.foldl (fun n c => n * 10 + (c.toNat - 48)) 0) else none

/-- `boost::lexical_cast<int>`, `none` if it throws `bad_lexical_cast`. -/
def lexicalCast : Str → Option Int
  | 45 :: s => (digits s).map (- ·)
  | 43 :: s => digits s
  | s => digits s

/-- What `handle_read` copies out of the buffer, as a C string. The copy may
run over the end of the buffer; one of negative length is undefined. -/
def jsonData (behind buffer : Str) : Option Str :=
  (lexicalCast (cStr (buffer.take 4))).bind fun ilen =>
    if 0 ≤ ilen then some (cStr ((buffer.drop 4 ++ behind).take ilen.toNat)) else none

/-- A reply with a length. -/
structure PhoneReply where
  behind : Str
  buffer : Str
  json : Str
  json_eq : jsonData behind buffer = some json

/-! ### `read_json` -/

/-- White space of JSON. -/
def isBlank (c : UInt8) : Bool := c = 32 || c = 9 || c = 10 || c = 13

/-- The reply to a script that went through. -/
def okJson : Str := Str.of "\x7b\"result\":0\x7d"

/-- `read_json`, with trees in `T`. Boost also skips a byte order mark at the start of
a stream, which `read_blank` and `read_probe` do not cover. -/
abbrev JsonReader (T : Type*) := Residue.Reader UInt8 T isBlank okJson

/-! ### The handlers -/

variable {T : Type*} (R : JsonReader T)

/-- `wx_vote_session::handle_read` up to the parse: the outcome, `none` in it
for a `json_parser_error`, and what is then unread of `ss`. No result if an
exception leaves the function. -/
def WxVoteSession.handleRead (ss behind buffer : Str) : Option (Option T × Str) :=
  (jsonData behind buffer).map fun json => R.read (ss ++ json)

/-- The outcomes of replies handled one after another, by whichever
sessions. -/
def WxVoteSession.handleReads : Str → List PhoneReply → List (Option T)
  | _, [] => []
  | ss, r :: rs =>
    match handleRead R ss r.behind r.buffer with
    | none => []
    | some (out, ss') => out :: handleReads ss' rs

/-- What is unread of `ss` after replies. -/
def WxVoteSession.unread : Str → List PhoneReply → Str
  | ss, [] => ss
  | ss, r :: rs =>
    match handleRead R ss r.behind r.buffer with
    | none => ss
    | some (_, ss') => unread ss' rs

/-- The outcomes in `keep_wx_account_session`, which does not catch the
`json_parser_error`: the process ends. -/
def KeepWxAccountSession.handleReads : Str → List PhoneReply → List (Option T)
  | _, [] => []
  | ss, r :: rs =>
    match WxVoteSession.handleRead R ss r.behind r.buffer with
    | none => []
    | some (none, _) => [none]
    | some (some pt, ss') => some pt :: handleReads ss' rs

theorem WxVoteSession.handleRead_reply (ss : Str) (r : PhoneReply) :
    handleRead R ss r.behind r.buffer = some (R.read (ss ++ r.json)) := by
  rw [handleRead, r.json_eq, Option.map_some]

theorem WxVoteSession.handleReads_eq : ∀ (ss : Str) (rs : List PhoneReply),
    handleReads R ss rs = R.outcomes ss (rs.map (·.json))
  | _, [] => rfl
  | ss, r :: rs => by
    rw [handleReads, handleRead_reply, List.map_cons, Residue.Reader.outcomes]
    exact congrArg _ (handleReads_eq _ rs)

theorem WxVoteSession.unread_eq : ∀ (ss : Str) (rs : List PhoneReply),
    unread R ss rs = R.residue ss (rs.map (·.json))
  | _, [] => rfl
  | ss, r :: rs => by
    rw [unread, handleRead_reply, List.map_cons, Residue.Reader.residue]
    exact unread_eq _ rs

/-- What is unread after the replies is the end of what they brought. -/
theorem WxVoteSession.unread_suffix (rs : List PhoneReply) : unread R [] rs <:+ (rs.map (·.json)).flatten := by
  rw [unread_eq]
  exact R.residue_suffix [] _

/-- Every reply a daily session handles is parsed as alone. -/
theorem KeepWxAccountSession.handleReads_prefix : ∀ rs : List PhoneReply,
    handleReads R [] rs <+: rs.map fun r => R.alone r.json
  | [] => List.nil_prefix
  | r :: rs => by
    rw [handleReads, WxVoteSession.handleRead_reply, List.nil_append, List.map_cons, Residue.Reader.alone]
    rcases hread : R.read r.json with ⟨_ | pt, ss'⟩
    · exact List.prefix_append [none] _
    · have hss' := R.read_all r.json pt (by rw [hread])
      rw [hread] at hss'
      rw [show ss' = [] from hss']
      exact List.cons_prefix_cons.mpr ⟨rfl, handleReads_prefix rs⟩

/-- The reply `okJson` in a buffer. -/
def PhoneReply.ok : PhoneReply := ⟨[], Str.of "0012" ++ okJson, okJson, by decide⟩

/-- **The replies handled, and whichever comes next, are parsed as alone if
and only if each malformed one leaves nothing but white space unread.** -/
theorem no_memory_iff (replies : List PhoneReply) :
    (∀ done next, done <+: replies →
      WxVoteSession.handleReads R [] (done ++ [next]) = (done ++ [next]).map fun r => R.alone r.json) ↔
      ∀ r ∈ replies, R.alone r.json = none → ∀ c ∈ (R.read r.json).2, isBlank c := by
  have hnil : ∀ c ∈ ([] : Str), isBlank c := fun c hc => absurd hc List.not_mem_nil
  constructor
  · intro h r hr _
    have hprobe : ∀ qs, qs <+: replies.map (·.json) →
        R.outcomes [] (qs ++ [okJson]) = (qs ++ [okJson]).map R.alone := by
      intro qs hqs
      obtain ⟨done, hdone, rfl⟩ := List.prefix_map_iff.mp hqs
      have := h done PhoneReply.ok hdone
      rw [WxVoteSession.handleReads_eq] at this
      simpa [PhoneReply.ok, Function.comp_def] using this
    exact R.blank_of_outcomes hnil hprobe r.json (List.mem_map_of_mem hr)
  · intro h done next hdone
    have hblank : ∀ p ∈ done.map (·.json), R.alone p = none → ∀ c ∈ (R.read p).2, isBlank c := by
      intro p hp
      obtain ⟨r, hr, rfl⟩ := List.mem_map.mp hp
      exact h r (hdone.subset hr)
    have := R.outcomes_eq_map hnil hblank next.json
    rw [WxVoteSession.handleReads_eq]
    simpa [Function.comp_def] using this

/-! ### A reader of one text -/

/-- What is left of a text and of the input where they part. -/
def strip : Str → Str → Str × Str
  | a :: doc, b :: s => if a = b then strip doc s else (a :: doc, b :: s)
  | doc, s => (doc, s)

theorem strip_suffix (doc s : Str) : (strip doc s).2 <:+ s := by
  fun_induction strip doc s with
  | case1 _ _ _ ih => exact ih.trans (List.suffix_cons _ _)
  | case2 => exact List.suffix_rfl
  | case3 => exact List.suffix_rfl

theorem strip_eq_append {doc s : Str} (h : (strip doc s).1 = []) : s = doc ++ (strip doc s).2 := by
  fun_induction strip doc s with
  | case1 _ _ _ ih => exact congrArg _ (ih h)
  | case2 => exact absurd h (List.cons_ne_nil _ _)
  | case3 doc s =>
    have hdoc : doc = [] := h
    rw [hdoc, List.nil_append]

@[simp] theorem strip_append (doc s : Str) : strip doc (doc ++ s) = ([], s) := by
  induction doc with
  | nil => cases s <;> rfl
  | cons a doc ih => simpa [strip] using ih

/-- Reads `okJson`, and takes the first character where the input parts from
it for the offending one. -/
def readOk (s : Str) : Option Int × Str :=
  match strip okJson (s.dropWhile isBlank) with
  | ([], rest) => if rest.dropWhile isBlank = [] then (some 0, []) else (none, rest.dropWhile isBlank)
  | (_ :: _, rest) => (none, rest)

theorem readOk_isSome {s : Str} :
    (readOk s).1.isSome ↔ ∃ rest, s.dropWhile isBlank = okJson ++ rest ∧ rest.dropWhile isBlank = [] := by
  constructor
  · intro h
    refine ⟨(strip okJson (s.dropWhile isBlank)).2, ?_⟩
    unfold readOk at h
    split at h
    case h_1 rest hstrip =>
      split_ifs at h with hrest
      · refine ⟨strip_eq_append (by rw [hstrip]), by rw [hstrip]; exact hrest⟩
      · cases h
    case h_2 => cases h
  · rintro ⟨rest, hs, hrest⟩
    simp [readOk, hs, hrest]

theorem readOk_suffix (s : Str) : (readOk s).2 <:+ s := by
  have hstrip := (strip_suffix okJson (s.dropWhile isBlank)).trans (List.dropWhile_suffix _)
  unfold readOk
  split
  case h_1 rest hrest =>
    rw [hrest] at hstrip
    split_ifs
    · exact List.nil_suffix
    · exact (List.dropWhile_suffix _).trans hstrip
  case h_2 rest hrest =>
    rw [hrest] at hstrip
    exact hstrip

theorem readOk_probe (s : Str) : (readOk (s ++ okJson)).1.isSome ↔ ∀ c ∈ s, isBlank c := by
  rw [readOk_isSome]
  constructor
  · rintro ⟨rest, hs, hrest⟩
    rw [← List.dropWhile_eq_nil_iff]
    by_contra hne
    -- the text would end in a blank
    have hlast : (okJson ++ rest).getLast? = some 125 := by
      rw [← hs, List.dropWhile_append, if_neg (by simpa using hne), List.getLast?_append]
      rfl
    have hlen : rest ≠ [] := by
      rintro rfl
      rw [List.dropWhile_append, if_neg (by simpa using hne)] at hs
      have := congrArg List.length hs
      simp only [List.length_append, List.length_nil] at this
      exact hne (List.length_eq_zero_iff.mp (by omega))
    rw [List.getLast?_append_of_ne_nil _ hlen] at hlast
    exact absurd (List.dropWhile_eq_nil_iff.mp hrest _ (List.mem_of_getLast? hlast)) (by decide)
  · intro h
    refine ⟨[], ?_, rfl⟩
    rw [List.dropWhile_append_of_pos h]
    simp [okJson, Str.of, isBlank]

def okReader : JsonReader Int where
  read := readOk
  read_all s t h := by
    unfold readOk at h ⊢
    split at h
    case h_1 =>
      split_ifs at h ⊢
      rfl
    case h_2 => cases h
  read_suffix := readOk_suffix
  read_blank w s h := by rw [readOk, readOk, List.dropWhile_append_of_pos h]
  read_probe := readOk_probe

/-- A reply that is cut short. -/
def PhoneReply.cut : PhoneReply := ⟨[], Str.of "0010" ++ okJson.take 10, okJson.take 10, by decide⟩

/-- A reply with one brace too many. -/
def PhoneReply.long : PhoneReply :=
  ⟨[], Str.of "0013" ++ okJson ++ Str.of "\x7d", okJson ++ Str.of "\x7d", rfl⟩

theorem okReader_read_ok : okReader.read PhoneReply.ok.json = (some 0, []) := rfl

theorem okReader_read_cut : okReader.read PhoneReply.cut.json = (none, []) := rfl

/-- Nothing stays behind a reply that is cut short. -/
theorem no_memory_cut :
    WxVoteSession.handleReads okReader [] [PhoneReply.ok, PhoneReply.cut, PhoneReply.ok] =
      [some 0, none, some 0] :=
  ((no_memory_iff okReader [PhoneReply.ok, PhoneReply.cut]).mpr
    (by simp [Residue.Reader.alone, okReader_read_ok, okReader_read_cut])
    [PhoneReply.ok, PhoneReply.cut] PhoneReply.ok List.prefix_rfl).trans
    (by simp [Residue.Reader.alone, okReader_read_ok, okReader_read_cut])

/-- Behind the reply with the brace, the next one is an error. -/
theorem not_memoryless : ¬ ∀ (T : Type) (R : JsonReader T) (replies : List PhoneReply),
    WxVoteSession.handleReads R [] replies = replies.map fun r => R.alone r.json := by
  intro h
  exact absurd (h Int okReader [PhoneReply.long, PhoneReply.ok]) (by decide)

end ScheduleCenter
