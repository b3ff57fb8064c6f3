/-
# The statements of the account table, as the server reads them

Three setters of `wx_account_mgr` write their statement with `sprintf` into a
buffer on the stack, the name of the account and the url between single quotes
as they are. The url has passed the base64 decoder, the name is whatever the
database held.

A statement fits into its buffer with the terminating zero and is read as one
statement with exactly these values if and only if the name has no quote and a
backslash only before `%` or `_`, and the strings are short enough
(`faithful_iff`). A quote in a name is enough to break it (`quote_in_name`).

Key definitions: `Store.Setter.statement`, `Store.Setter.Fits`, `Store.Setter.Faithful`.
Key theorems: `text_eq`, `faithful_iff`, `quote_in_name`.
-/
import ScheduleCenter.Database
import ScheduleCenter.Base.Base64
import ScheduleCenter.Base.SqlText

namespace ScheduleCenter
namespace Store
namespace Setter

open SqlText

/-- The url a setter writes. -/
def url : Setter → Str
  | voteStatus _ url _ => url
  | _ => []

/-- The statement a setter means. -/
def statement : Setter → Statement
  | voteStatus acc url _ => ⟨insertHead, [(acc, insertUrl), (url, Str.of ";")]⟩
  | accStatus acc n _ => ⟨updateHead .status, [(Decimal.signed n, updateWhere), (acc, Str.of ";")]⟩
  | everydayTask acc n _ => ⟨updateHead .dailytask, [(Decimal.signed n, updateWhere), (acc, Str.of ";")]⟩

/-- The text stays inside its buffer, and the server reads the statement that
is meant. -/
def Faithful (c : Setter) : Prop := c.text.length + 1 ≤ c.size ∧ Reads c.text c.statement

/-- The strings are short enough for the buffer. -/
def Fits : Setter → Prop
  | voteStatus acc url _ => acc.length + url.length ≤ 6345
  | accStatus acc n _ => acc.length + (Decimal.signed n).length ≤ 578
  | everydayTask acc n _ => acc.length + (Decimal.signed n).length ≤ 575

/-! ### The text -/

theorem cStr_eq_self {w : Str} (hw : 0 ∉ w) : cStr w = w := by
  refine List.takeWhile_eq_self_iff.mpr fun c hc => ?_
  have hne : c ≠ 0 := fun h => hw (h ▸ hc)
  simpa using hne

theorem text_insert {acc url : Str} (hacc : 0 ∉ acc) (hurl : 0 ∉ url) :
    insertSql acc url = (Statement.mk insertHead [(acc, insertUrl), (url, Str.of ";")]).text := by
  rw [insertSql_eq, cStr_eq_self hacc, cStr_eq_self hurl]
  simp [Statement.text, partText, List.intercalate_cons_cons]

theorem text_update (col : Column) (n : Int) {acc : Str} (hacc : 0 ∉ acc) :
    updateSql col n acc =
      (Statement.mk (updateHead col) [(Decimal.signed n, updateWhere), (acc, Str.of ";")]).text := by
  rw [updateSql_eq, cStr_eq_self hacc]
  simp [Statement.text, partText, List.intercalate_cons_cons]

/-- A setter writes its statement with the values pasted in. -/
theorem text_eq {c : Setter} (hacc : 0 ∉ c.acc) (hurl : 0 ∉ c.url) : c.text = c.statement.text := by
  rcases c with ⟨acc, url, sql⟩ | ⟨acc, n, sql⟩ | ⟨acc, n, sql⟩
  · exact text_insert hacc hurl
  · exact text_update .status n hacc
  · exact text_update .dailytask n hacc

theorem fits_iff {c : Setter} (hacc : 0 ∉ c.acc) (hurl : 0 ∉ c.url) : c.text.length + 1 ≤ c.size ↔ c.Fits := by
  have hinsert : insertHead.length = 41 := rfl
  have hinsertUrl : insertUrl.length = 8 := rfl
  have hstatus : (updateHead .status).length = 41 := rfl
  have hdaily : (updateHead .dailytask).length = 44 := rfl
  have hwhere : updateWhere.length = 15 := rfl
  have hend : (Str.of ";").length = 1 := rfl
  rw [text_eq hacc hurl]
  rcases c with ⟨acc, url, sql⟩ | ⟨acc, n, sql⟩ | ⟨acc, n, sql⟩
  all_goals
    simp only [Statement.text, statement, partText, size, Fits, List.flatMap_cons, List.flatMap_nil, List.length_append,
      List.length_cons, List.length_nil, hinsert, hinsertUrl, hstatus, hdaily, hwhere, hend]
    omega

/-! ### What the server reads -/

theorem wf_statement (c : Setter) : c.statement.Wf := by
  have hinsert : ∀ ch ∈ insertHead, ¬ isQuote ch := no_quote_of_all (by decide)
  have hstatus : ∀ ch ∈ updateHead .status, ¬ isQuote ch := no_quote_of_all (by decide)
  have hdaily : ∀ ch ∈ updateHead .dailytask, ¬ isQuote ch := no_quote_of_all (by decide)
  have hurl : insertUrl ≠ [] ∧ ∀ ch ∈ insertUrl, ¬ isQuote ch := ⟨by decide, no_quote_of_all (by decide)⟩
  have hwhere : updateWhere ≠ [] ∧ ∀ ch ∈ updateWhere, ¬ isQuote ch := ⟨by decide, no_quote_of_all (by decide)⟩
  have hend : Str.of ";" ≠ [] ∧ ∀ ch ∈ Str.of ";", ¬ isQuote ch := ⟨by decide, no_quote_of_all (by decide)⟩
  rcases c with ⟨acc, url, sql⟩ | ⟨acc, n, sql⟩ | ⟨acc, n, sql⟩
  · exact ⟨hinsert, List.forall_mem_cons.mpr ⟨hurl, List.forall_mem_singleton.mpr hend⟩⟩
  · exact ⟨hstatus, List.forall_mem_cons.mpr ⟨hwhere, List.forall_mem_singleton.mpr hend⟩⟩
  · exact ⟨hdaily, List.forall_mem_cons.mpr ⟨hwhere, List.forall_mem_singleton.mpr hend⟩⟩

/-- A number stands for itself. -/
theorem plain_signed (n : Int) : plain (Decimal.signed n) := by
  refine plain_of_forall fun c hc => ⟨?_, ?_⟩
  all_goals
    rintro rfl
    rcases Decimal.mem_signed hc with h | h
    · exact absurd h (by decide)
    · exact absurd h (by decide)

/-- What the base64 decoder takes has no byte that means something to the
server. -/
theorem ne_of_inAlphabet {u : Str} (hu : u.all Base64.inAlphabet) {c : UInt8} (hc : c ∈ u) :
    c ≠ 39 ∧ c ≠ 92 ∧ c ≠ 0 := by
  have hin := List.all_eq_true.mp hu c hc
  refine ⟨?_, ?_, ?_⟩
  all_goals
    rintro rfl
    exact absurd hin (by decide)

theorem plain_parts_iff {c : Setter} (hurl : c.url.all Base64.inAlphabet) :
    (∀ p ∈ c.statement.parts, plain p.1) ↔ plain c.acc := by
  rcases c with ⟨acc, url, sql⟩ | ⟨acc, n, sql⟩ | ⟨acc, n, sql⟩
  · have hplain : plain url :=
      plain_of_forall fun c hc => ⟨(ne_of_inAlphabet hurl hc).1, (ne_of_inAlphabet hurl hc).2.1⟩
    simp [statement, Setter.acc, hplain]
  · simp [statement, Setter.acc, plain_signed]
  · simp [statement, Setter.acc, plain_signed]

/-- **The statement of a setter fits and is read with its values if and only
if the strings are short enough and the name stands for itself.** -/
theorem faithful_iff (c : Setter) (hacc : 0 ∉ c.acc) (hurl : c.url.all Base64.inAlphabet) :
    c.Faithful ↔ c.Fits ∧ plain c.acc := by
  have hnul : 0 ∉ c.url := fun h => (ne_of_inAlphabet hurl h).2.2 rfl
  rw [Faithful, fits_iff hacc hnul, text_eq hacc hnul, reads_text_iff (wf_statement c), plain_parts_iff hurl]

theorem faithful_vote : (voteStatus (Str.of "a") (Str.of "dQ==") .success).Faithful ↔
    (voteStatus (Str.of "a") (Str.of "dQ==") .success).Fits ∧ plain (Str.of "a") :=
  faithful_iff (.voteStatus (Str.of "a") (Str.of "dQ==") .success) (by decide) (by decide)

/-- Of a name with a quote the server reads something else. -/
theorem quote_in_name : ¬ ∀ c : Setter, 0 ∉ c.acc → c.url.all Base64.inAlphabet → c.Faithful := by
  intro h
  have hreads := (h (.accStatus (Str.of "a'b") statusAbnormal .success) (by decide) (by decide)).2
  exact absurd hreads (by unfold Reads; decide)

end Setter
end Store
end ScheduleCenter
