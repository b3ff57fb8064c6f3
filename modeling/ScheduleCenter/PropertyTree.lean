/-
# Property trees and what they throw

The part of `boost::property_tree` that the server uses: a tree of strings,
the child of a key, and the two `get`s. Each way to fail has an exception of
its own, and none of those of `get` is a `json_parser_error`. A number is read
through a stream: white space around it, a sign, digits, within an `int`.

Key definitions: `Exn`, `Ptree`, `Ptree.getInt`, `Ptree.getString`.
Key theorems: `Ptree.ends_getInt`, `Ptree.ends_getString`, `Ptree.throws_getInt`.
-/
import ScheduleCenter.Replies
import ScheduleCenter.Base.Decimal
import ScheduleCenter.Base.Outcome
import Mathlib.Data.List.DropRight

namespace ScheduleCenter

open Outcome

/-- What can leave a function instead of a result. -/
inductive Exn
  | badLexicalCast
  | badAlloc
  | jsonParserError
  | ptreeBadPath
  | ptreeBadData
  /-- `dataflow_exception` of the base64 iterator. -/
  | dataflow
  /-- `boost::system::system_error` of `remote_endpoint()`. -/
  | systemError
  /-- No exception: the call is undefined. -/
  | undefined
deriving DecidableEq

/-- The class that the handlers of the program catch. -/
def Exn.isJsonParserError (e : Exn) : Bool := e = .jsonParserError

/-- `boost::property_tree::ptree`. -/
inductive Ptree
  | node (data : Str) (children : List (Str × Ptree))

namespace Ptree

def data : Ptree → Str
  | node d _ => d

/-- `find`: the first child with the key. -/
def find (key : Str) : Ptree → Option Ptree
  | node _ cs => (cs.find? fun c => c.1 = key).map (·.2)

/-! ### Numbers -/

/-- `isspace`. -/
def isSpace (c : UInt8) : Bool := c = 32 || (9 ≤ c && c ≤ 13)

/-- `>>` into an `int`, to the end of the text. -/
def streamInt (s : Str) : Option Int :=
  (lexicalCast ((s.dropWhile isSpace).rdropWhile isSpace)).filter fun n => -2 ^ 31 ≤ n ∧ n < 2 ^ 31

/-- `digits` reads what `Decimal.read` reads. -/
theorem digits_eq_read (s : Str) : digits s = (Decimal.read s).map fun n : ℕ => (n : Int) := by
  have hvalue : ∀ s : Str, s.all Decimal.isDigit →
      s.foldl (fun (n : Int) c => n * 10 + (c.toNat - 48)) 0 = (Nat.ofDigits 10 (s.reverse.map Decimal.digit) : ℕ) := by
    intro s
    induction s using List.reverseRecOn with
    | nil => intro _; rfl
    | append_singleton s c ih =>
      intro hall
      rw [List.all_append, Bool.and_eq_true] at hall
      have hc : 48 ≤ c.toNat := by
        have hdigit : Decimal.isDigit c := by simpa using hall.2
        simp only [Decimal.isDigit, Bool.and_eq_true, decide_eq_true_eq] at hdigit
        exact UInt8.le_iff_toNat_le.mp hdigit.1
      rw [List.foldl_append, ih hall.1, List.reverse_append, List.reverse_singleton, List.singleton_append, List.map_cons,
        Nat.ofDigits_cons]
      simp only [List.foldl_cons, List.foldl_nil, Decimal.digit]
      omega
  unfold digits Decimal.read
  by_cases h : s ≠ [] ∧ s.all isDigit
  · have h' : s ≠ [] ∧ s.all Decimal.isDigit := h
    rw [if_pos h, if_pos h', hvalue s h'.2]
    rfl
  · have h' : ¬ (s ≠ [] ∧ s.all Decimal.isDigit) := h
    rw [if_neg h, if_neg h']
    rfl

theorem lexicalCast_signed (n : Int) : lexicalCast (Decimal.signed n) = some n := by
  have hdigits : ∀ k : ℕ, digits (Decimal.padded 1 k) = some (k : Int) := fun k => by
    rw [digits_eq_read, Decimal.read_padded (by omega)]
    rfl
  unfold Decimal.signed
  by_cases hn : n < 0
  · rw [if_pos hn]
    show (digits (Decimal.padded 1 n.natAbs)).map (- ·) = some n
    rw [hdigits, Option.map_some]
    exact congrArg some (by omega)
  · rw [if_neg hn]
    have hsign : ∀ s, Decimal.padded 1 n.natAbs ≠ 45 :: s ∧ Decimal.padded 1 n.natAbs ≠ 43 :: s := by
      refine fun s => ⟨fun h => ?_, fun h => ?_⟩
      all_goals exact absurd (Decimal.isDigit_of_mem_padded (h ▸ List.mem_cons_self)) (by decide)
    rw [lexicalCast, hdigits]
    · exact congrArg some (by omega)
    · exact fun s => (hsign s).1
    · exact fun s => (hsign s).2

/-- An `int` is read back from its text. -/
theorem streamInt_signed {n : Int} (hle : -2 ^ 31 ≤ n) (hlt : n < 2 ^ 31) : streamInt (Decimal.signed n) = some n := by
  have hspace : ∀ c ∈ Decimal.signed n, ¬ isSpace c := by
    intro c hc
    rcases Decimal.mem_signed hc with rfl | hdigit
    · decide
    · simp only [Decimal.isDigit, isSpace, Bool.and_eq_true, Bool.or_eq_true, decide_eq_true_eq,
        UInt8.le_iff_toNat_le, ← UInt8.toNat_inj] at hdigit ⊢
      have h48 : (48 : UInt8).toNat = 48 := rfl
      have h32 : (32 : UInt8).toNat = 32 := rfl
      have h13 : (13 : UInt8).toNat = 13 := rfl
      omega
  have hfront : (Decimal.signed n).dropWhile isSpace = Decimal.signed n :=
    List.dropWhile_eq_self_iff.mpr fun h => hspace _ (List.getElem_mem h)
  have hback : (Decimal.signed n).rdropWhile isSpace = Decimal.signed n :=
    List.rdropWhile_eq_self_iff.mpr fun h => hspace _ (List.getLast_mem h)
  rw [streamInt, hfront, hback, lexicalCast_signed]
  exact Option.filter_eq_some_iff.mpr ⟨rfl, by simpa using And.intro hle hlt⟩

/-- What is read is an `int`. -/
theorem streamInt_range {s : Str} {n : Int} (h : streamInt s = some n) : -2 ^ 31 ≤ n ∧ n < 2 ^ 31 := by
  have := (Option.filter_eq_some_iff.mp h).2
  simpa using this

/-! ### The fields of a tree -/

/-- The text under a key. -/
def str (key : Str) (pt : Ptree) : Option Str := (pt.find key).map data

/-- The number under a key. -/
def int (key : Str) (pt : Ptree) : Option Int := (pt.str key).bind streamInt

/-- `pt.get<std::string>(key)`. -/
def getString (pt : Ptree) (key : Str) : Except Exn Str := orThrow (pt.str key) .ptreeBadPath

/-- `pt.get<int>(key)`. -/
def getInt (pt : Ptree) (key : Str) : Except Exn Int := do
  orThrow (streamInt (← pt.getString key)) .ptreeBadData

@[simp]
theorem ends_getString {pt : Ptree} {key : Str} {P : Str → Prop} :
    Ends (pt.getString key) P ↔ ∃ w, pt.str key = some w ∧ P w := by
  rw [getString, ends_orThrow]

@[simp]
theorem ends_getInt {pt : Ptree} {key : Str} {P : Int → Prop} :
    Ends (pt.getInt key) P ↔ ∃ n, pt.int key = some n ∧ P n := by
  simp only [getInt, int, ends_bind, ends_getString, ends_orThrow, Option.bind_eq_some_iff]
  constructor
  · rintro ⟨w, hw, n, hn, hP⟩
    exact ⟨n, ⟨w, hw, hn⟩, hP⟩
  · rintro ⟨n, ⟨w, hw, hn⟩, hP⟩
    exact ⟨w, hw, n, hn, hP⟩

@[simp]
theorem throws_getString {pt : Ptree} {key : Str} : ¬ Throws (pt.getString key) Exn.isJsonParserError := by
  simp [getString, Exn.isJsonParserError]

/-- What `get` throws is not caught. -/
@[simp]
theorem throws_getInt {pt : Ptree} {key : Str} : ¬ Throws (pt.getInt key) Exn.isJsonParserError := by
  simp [getInt, Exn.isJsonParserError, getString]

end Ptree
end ScheduleCenter
