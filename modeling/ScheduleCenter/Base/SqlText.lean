/-
# The string literals in a statement of MySQL

A literal stands between single or double quotes. In it a doubled quote is
that quote, and a backslash takes the next byte with it: `\n` and the like are
control characters, `\%` and `\_` stay two bytes, any other byte is itself.
`scan` reads a text by these rules, byte by byte, and says what lies outside of
the literals and what the literals hold. (The rules of a server without
`NO_BACKSLASH_ESCAPES`, in a character set where a quote is no part of another
character.)

A statement is code with literals in between. Written by pasting the values
between single quotes it is read back if and only if no value has a quote,
and a backslash in one only before `%` or `_` (`reads_text_iff`): whatever is read
otherwise is shorter than the text (`length_scan`).

Key definitions: `SqlText.scan`, `SqlText.Statement`, `SqlText.Reads`, `SqlText.plain`.
Key theorems: `SqlText.length_scan`, `SqlText.reads_text_iff`.
-/
import Mathlib.Data.UInt
import Mathlib.Tactic.Common

namespace SqlText

/-- What is read of a text. -/
inductive Event
  /-- A byte outside of the literals. -/
  | code (c : UInt8)
  /-- A literal begins with this quote. -/
  | start (q : UInt8)
  /-- A byte of the value. -/
  | char (c : UInt8)
  | stop
deriving DecidableEq

/-- What a backslash and a byte stand for. -/
def escaped (c : UInt8) : List UInt8 :=
  if c = 48 then [0]
  else if c = 98 then [8]
  else if c = 110 then [10]
  else if c = 114 then [13]
  else if c = 116 then [9]
  else if c = 90 then [26]
  else if c = 37 ∨ c = 95 then [92, c]
  else [c]

def isQuote (c : UInt8) : Bool := c = 39 || c = 34

theorem no_quote_of_all {p : List UInt8} (h : p.all fun c => !isQuote c) : ∀ c ∈ p, ¬ isQuote c := by
  simpa using h

/-- Reads a text from outside of the literals, or from inside of one with the
quote `q`; no result if a literal has no end. -/
def scan : Option UInt8 → List UInt8 → Option (List Event)
  | none, [] => some []
  | some _, [] => none
  | none, c :: s =>
    if isQuote c then (scan (some c) s).map (.start c :: ·) else (scan none s).map (.code c :: ·)
  | some q, [c] => if c = q then some [.stop] else none
  | some q, c :: d :: s =>
    if c = q then
      if d = q then (scan (some q) s).map (.char q :: ·) else (scan none (d :: s)).map (.stop :: ·)
    else if c = 92 then (scan (some q) s).map ((escaped d).map .char ++ ·)
    else (scan (some q) (d :: s)).map (.char c :: ·)

/-! ### Statements -/

/-- Code, and literals with the code behind each. -/
structure Statement where
  head : List UInt8
  parts : List (List UInt8 × List UInt8)
deriving DecidableEq

/-- The literals and the code, as they are read. -/
def partEvents (p : List UInt8 × List UInt8) : List Event :=
  .start 39 :: p.1.map .char ++ .stop :: p.2.map .code

def Statement.events (st : Statement) : List Event := st.head.map .code ++ st.parts.flatMap partEvents

/-- The values pasted between single quotes. -/
def partText (p : List UInt8 × List UInt8) : List UInt8 := 39 :: p.1 ++ 39 :: p.2

def Statement.text (st : Statement) : List UInt8 := st.head ++ st.parts.flatMap partText

/-- The text is read as this statement. -/
def Reads (text : List UInt8) (st : Statement) : Prop := scan none text = some st.events

/-- The code has no quotes, and there is some between two literals. -/
structure Statement.Wf (st : Statement) : Prop where
  head : ∀ c ∈ st.head, ¬ isQuote c
  parts : ∀ p ∈ st.parts, p.2 ≠ [] ∧ ∀ c ∈ p.2, ¬ isQuote c

/-- The value stands for itself between single quotes. -/
def plain : List UInt8 → Bool
  | [] => true
  | [c] => c ≠ 39 && c ≠ 92
  | c :: d :: s =>
    if c = 39 then false
    else if c = 92 then (d = 37 || d = 95) && plain s
    else plain (d :: s)

theorem plain_of_forall : ∀ {v : List UInt8}, (∀ c ∈ v, c ≠ 39 ∧ c ≠ 92) → plain v
  | [], _ => rfl
  | [c], h => by simpa [plain] using h
  | c :: d :: v, h => by
    obtain ⟨hq, hb⟩ := h c List.mem_cons_self
    rw [plain, if_neg hq, if_neg hb]
    exact plain_of_forall fun e he => h e (List.mem_cons_of_mem _ he)

/-! ### Steps of the reader -/

theorem scan_code {c : UInt8} (hc : ¬ isQuote c) (s : List UInt8) :
    scan none (c :: s) = (scan none s).map (.code c :: ·) := by
  rw [scan, if_neg hc]

theorem scan_start (s : List UInt8) : scan none (39 :: s) = (scan (some 39) s).map (.start 39 :: ·) := by
  rw [scan, if_pos (by decide)]

theorem scan_char {q c : UInt8} (hq : c ≠ q) (hb : c ≠ 92) (s : List UInt8) :
    scan (some q) (c :: s) = (scan (some q) s).map (.char c :: ·) := by
  rcases s with _ | ⟨d, s⟩
  · have hend : scan (some q) [c] = none := by rw [scan, if_neg hq]
    rw [hend]
    rfl
  · conv_lhs => rw [scan, if_neg hq, if_neg hb]

theorem scan_stop {q : UInt8} : ∀ {s : List UInt8}, s.head? ≠ some q →
    scan (some q) (q :: s) = (scan none s).map (.stop :: ·)
  | [], _ => by simp [scan]
  | d :: s, h => by
    have hd : d ≠ q := fun heq => h (by simp [heq])
    conv_lhs => rw [scan, if_pos rfl, if_neg hd]

theorem scan_escape {q : UInt8} (hq : q ≠ 92) (d : UInt8) (s : List UInt8) :
    scan (some q) (92 :: d :: s) = (scan (some q) s).map ((escaped d).map .char ++ ·) := by
  rw [scan, if_neg hq.symm, if_pos rfl]

theorem length_escaped_le (c : UInt8) : (escaped c).length ≤ 2 := by
  unfold escaped
  split_ifs <;> simp

theorem length_escaped {c : UInt8} (h : (escaped c).length = 2) : (c = 37 ∨ c = 95) ∧ escaped c = [92, c] := by
  unfold escaped at h ⊢
  split_ifs at h ⊢ <;> simp_all

/-- No more is read than there is. -/
theorem length_scan : ∀ {st : Option UInt8} {s : List UInt8} {ev : List Event}, scan st s = some ev →
    ev.length ≤ s.length
  | none, [], ev, h => by
    cases h
    simp
  | none, c :: s, ev, h => by
    rw [scan] at h
    split_ifs at h
    all_goals
      obtain ⟨ev', hev', rfl⟩ := Option.map_eq_some_iff.mp h
      exact Nat.succ_le_succ (length_scan hev')
  | some q, [c], ev, h => by
    rw [scan] at h
    split_ifs at h
    cases h
    simp
  | some q, c :: d :: s, ev, h => by
    rw [scan] at h
    split_ifs at h
    · obtain ⟨ev', hev', rfl⟩ := Option.map_eq_some_iff.mp h
      have := length_scan hev'
      simp only [List.length_cons]
      omega
    · obtain ⟨ev', hev', rfl⟩ := Option.map_eq_some_iff.mp h
      exact Nat.succ_le_succ (length_scan hev')
    · obtain ⟨ev', hev', rfl⟩ := Option.map_eq_some_iff.mp h
      have := length_scan hev'
      have := length_escaped_le d
      simp only [List.length_cons, List.length_append, List.length_map]
      omega
    · obtain ⟨ev', hev', rfl⟩ := Option.map_eq_some_iff.mp h
      exact Nat.succ_le_succ (length_scan hev')

/-! ### Reading a statement back -/

theorem scan_codes {p : List UInt8} (hp : ∀ c ∈ p, ¬ isQuote c) (s : List UInt8) :
    scan none (p ++ s) = (scan none s).map (p.map .code ++ ·) := by
  induction p with
  | nil => simp
  | cons c p ih =>
    rw [List.cons_append, scan_code (hp c List.mem_cons_self), ih fun d hd => hp d (List.mem_cons_of_mem _ hd),
      Option.map_map]
    rfl

/-- A value that stands for itself is read as it is. -/
theorem scan_plain : ∀ {v : List UInt8}, plain v → ∀ s : List UInt8,
    scan (some 39) (v ++ s) = (scan (some 39) s).map (v.map .char ++ ·)
  | [], _, s => by simp
  | [c], h, s => by
    simp only [plain, Bool.and_eq_true, decide_eq_true_eq] at h
    exact scan_char h.1 h.2 s
  | c :: d :: v, h, s => by
    rw [plain] at h
    split_ifs at h with hq hb
    · subst hb
      simp only [Bool.and_eq_true, Bool.or_eq_true, decide_eq_true_eq] at h
      have hd : escaped d = [92, d] := by
        unfold escaped
        rcases h.1 with rfl | rfl <;> rfl
      rw [List.cons_append, List.cons_append, scan_escape (by decide), scan_plain h.2, hd, Option.map_map]
      rfl
    · have hrest := scan_plain h s
      rw [List.cons_append] at hrest
      rw [List.cons_append, List.cons_append, scan_char hq hb, hrest, Option.map_map]
      rfl

/-- A doubled quote and the end of a literal cost a byte. -/
theorem length_lt_of_quote {q d : UInt8} {s : List UInt8} {c : UInt8} {ev : List Event}
    (h : scan (some q) (q :: d :: s) = some (.char c :: ev)) : (Event.char c :: ev).length < (q :: d :: s).length := by
  rw [scan, if_pos rfl] at h
  split_ifs at h
  · obtain ⟨ev', hev', he⟩ := Option.map_eq_some_iff.mp h
    have := length_scan hev'
    rw [← he]
    simp only [List.length_cons]
    omega
  · obtain ⟨ev', -, he⟩ := Option.map_eq_some_iff.mp h
    cases he

/-- If a value is read as it is and nothing is lost behind it, it stands for
itself. The value is followed by its quote. -/
theorem plain_of_scan : ∀ {v s : List UInt8} {ev : List Event}, scan (some 39) (v ++ 39 :: s) = some (v.map .char ++ ev) →
    (v.map Event.char ++ ev).length = (v ++ 39 :: s).length → plain v ∧ scan (some 39) (39 :: s) = some ev
  | [], s, ev, h, _ => ⟨rfl, h⟩
  | [c], s, ev, h, hlen => by
    simp only [List.map_cons, List.map_nil, List.cons_append, List.nil_append] at h hlen
    by_cases hq : c = 39
    · subst hq
      exact absurd hlen (Nat.ne_of_lt (length_lt_of_quote h))
    by_cases hb : c = 92
    · subst hb
      rw [scan_escape (by decide)] at h
      obtain ⟨ev', -, he⟩ := Option.map_eq_some_iff.mp h
      exact absurd (List.cons.inj he).1 (by decide)
    rw [scan_char hq hb] at h
    obtain ⟨ev', hev', he⟩ := Option.map_eq_some_iff.mp h
    obtain rfl := (List.cons.inj he).2
    exact ⟨by simp [plain, hq, hb], hev'⟩
  | c :: d :: v, s, ev, h, hlen => by
    simp only [List.map_cons, List.cons_append] at h hlen
    rw [plain]
    by_cases hq : c = 39
    · subst hq
      exact absurd hlen (Nat.ne_of_lt (length_lt_of_quote h))
    rw [if_neg hq]
    by_cases hb : c = 92
    · subst hb
      rw [if_pos rfl]
      rw [scan_escape (by decide)] at h
      obtain ⟨ev', hev', he⟩ := Option.map_eq_some_iff.mp h
      -- the pair has to give two bytes
      have hlong : (escaped d).length = 2 := by
        have hle := length_scan hev'
        have hshort := length_escaped_le d
        rw [← he] at hlen
        simp only [List.length_append, List.length_map, List.length_cons] at hle hlen
        omega
      obtain ⟨hd, hesc⟩ := length_escaped hlong
      rw [hesc] at he
      have he' : ev' = v.map .char ++ ev := (List.cons.inj (List.cons.inj he).2).2
      subst he'
      obtain ⟨hplain, hrest⟩ := plain_of_scan hev' (by simpa using hlen)
      exact ⟨by simp [hd, hplain], hrest⟩
    · rw [if_neg hb]
      rw [scan_char hq hb] at h
      obtain ⟨ev', hev', he⟩ := Option.map_eq_some_iff.mp h
      have he' : ev' = (d :: v).map .char ++ ev := (List.cons.inj he).2
      subst he'
      exact plain_of_scan hev' (by simpa using hlen)

/-! ### Pasted values -/

theorem length_partEvents (parts : List (List UInt8 × List UInt8)) :
    (parts.flatMap partEvents).length = (parts.flatMap partText).length := by
  simp [List.length_flatMap, partEvents, partText]

/-- The code behind a literal does not go on with a quote. -/
theorem head_ne_quote {p : List UInt8} (hne : p ≠ []) (hp : ∀ c ∈ p, ¬ isQuote c) (s : List UInt8) :
    (p ++ s).head? ≠ some 39 := by
  rcases p with _ | ⟨c, p⟩
  · exact absurd rfl hne
  · intro h
    have hc := hp c List.mem_cons_self
    rw [Option.some.inj h] at hc
    exact hc (by decide)

/-- Literals and the code behind each are read back if and only if the values
stand for themselves. -/
theorem scan_parts : ∀ {parts : List (List UInt8 × List UInt8)}, (∀ p ∈ parts, p.2 ≠ [] ∧ ∀ c ∈ p.2, ¬ isQuote c) →
    (scan none (parts.flatMap partText) = some (parts.flatMap partEvents) ↔ ∀ p ∈ parts, plain p.1)
  | [], _ => by simp [scan]
  | (v, code) :: parts, h => by
    obtain ⟨hne, hcode⟩ := h (v, code) List.mem_cons_self
    have ih := scan_parts fun p hp => h p (List.mem_cons_of_mem _ hp)
    have htext : ((v, code) :: parts).flatMap partText = 39 :: (v ++ 39 :: (code ++ parts.flatMap partText)) := by
      simp [partText]
    have hevents : ((v, code) :: parts).flatMap partEvents =
        .start 39 :: (v.map .char ++ .stop :: (code.map .code ++ parts.flatMap partEvents)) := by
      simp [partEvents]
    have hstop : scan (some 39) (39 :: (code ++ parts.flatMap partText)) =
        (scan none (parts.flatMap partText)).map (.stop :: code.map .code ++ ·) := by
      rw [scan_stop (head_ne_quote hne hcode _), scan_codes hcode, Option.map_map]
      rfl
    rw [htext, hevents, scan_start, List.forall_mem_cons, ← ih]
    constructor
    · intro hscan
      obtain ⟨ev, hev, he⟩ := Option.map_eq_some_iff.mp hscan
      obtain rfl := (List.cons.inj he).2
      have hlen := length_partEvents parts
      obtain ⟨hplain, hrest⟩ := plain_of_scan hev (by simp [hlen])
      rw [hstop] at hrest
      obtain ⟨ev', hev', he'⟩ := Option.map_eq_some_iff.mp hrest
      have : ev' = parts.flatMap partEvents := by simpa using he'
      exact ⟨hplain, this ▸ hev'⟩
    · rintro ⟨hplain, hrest⟩
      rw [scan_plain hplain, hstop, hrest]
      simp

/-- **A statement with its values pasted in is read back if and only if they
stand for themselves.** -/
theorem reads_text_iff {st : Statement} (h : st.Wf) : Reads st.text st ↔ ∀ p ∈ st.parts, plain p.1 := by
  rw [← scan_parts h.parts, Reads, Statement.text, Statement.events, scan_codes h.head]
  constructor
  · intro hscan
    obtain ⟨ev, hev, he⟩ := Option.map_eq_some_iff.mp hscan
    rwa [List.append_cancel_left he] at hev
  · intro hscan
    rw [hscan]
    rfl

end SqlText
