/-
# Decimal numbers in ASCII

A number with at least `w` digits, as `printf` writes it with `%0wd`, and the
number a text of digits stands for; integers with `%d`. The digits are those
of `Nat.digitsAppend`, the last one first there. What is written is read back
(`read_padded`, `readSigned_signed`), and it is longer than `w` from `10 ^ w` on
(`lt_length_padded`).

Key definitions: `Decimal.padded`, `Decimal.read`, `Decimal.signed`, `Decimal.readSigned`.
Key theorems: `Decimal.read_padded`, `Decimal.length_padded`, `Decimal.lt_length_padded`,
`Decimal.readSigned_signed`.
-/
import Mathlib.Data.Nat.Digits.Lemmas
import Mathlib.Data.UInt

namespace Decimal

def isDigit (c : UInt8) : Bool := 48 ≤ c && c ≤ 57

/-- The character of a digit. -/
def char (d : ℕ) : UInt8 := UInt8.ofNat (48 + d)

/-- The digit of a character. -/
def digit (c : UInt8) : ℕ := c.toNat - 48

/-- A number with at least `w` digits. -/
def padded (w n : ℕ) : List UInt8 := ((Nat.digitsAppend 10 w n).map char).reverse

/-- An integer as `printf` writes it with `%d`. -/
def signed (n : ℤ) : List UInt8 := if n < 0 then 45 :: padded 1 n.natAbs else padded 1 n.natAbs

/-- The number that a text of digits stands for. -/
def read (s : List UInt8) : Option ℕ :=
  if s ≠ [] ∧ s.all isDigit then some (Nat.ofDigits 10 (s.reverse.map digit)) else none

theorem digit_char {d : ℕ} (hd : d < 10) : digit (char d) = d := by
  rw [digit, char, UInt8.toNat_ofNat']
  omega

theorem isDigit_char {d : ℕ} (hd : d < 10) : isDigit (char d) = true := by
  interval_cases d <;> rfl

theorem isDigit_of_mem_padded {w n : ℕ} {c : UInt8} (hc : c ∈ padded w n) : isDigit c = true := by
  obtain ⟨d, hd, rfl⟩ := List.mem_map.mp (List.mem_reverse.mp hc)
  exact isDigit_char (Nat.lt_of_mem_digitsAppend (by omega) w d hd)

/-- A number of at most `w` digits has exactly `w`. -/
theorem length_padded {w n : ℕ} (hn : n < 10 ^ w) : (padded w n).length = w := by
  rw [padded, List.length_reverse, List.length_map, Nat.length_digitsAppend (by omega) w hn]

/-- `w` is a minimum: a number of more digits has them all. -/
theorem lt_length_padded {w n : ℕ} (hn : 10 ^ w ≤ n) : w < (padded w n).length := by
  have hdigits : w < (Nat.digits 10 n).length := (Nat.lt_digits_length_iff (by omega) n).mpr hn
  rw [padded, List.length_reverse, List.length_map, Nat.digitsAppend, List.length_append]
  omega

theorem le_length_padded (w n : ℕ) : w ≤ (padded w n).length := by
  by_cases hn : n < 10 ^ w
  · exact (length_padded hn).ge
  · exact (lt_length_padded (Nat.le_of_not_lt hn)).le

theorem length_padded_le {w n k : ℕ} (hwk : w ≤ k) (hn : n < 10 ^ k) : (padded w n).length ≤ k := by
  have hdigits : (Nat.digits 10 n).length ≤ k := (Nat.digits_length_le_iff (by omega) n).mpr hn
  rw [padded, List.length_reverse, List.length_map, Nat.digitsAppend, List.length_append, List.length_replicate]
  omega

/-- What is written is read back. -/
theorem read_padded {w : ℕ} (hw : 0 < w) (n : ℕ) : read (padded w n) = some n := by
  have hne : padded w n ≠ [] := List.ne_nil_of_length_pos (hw.trans_le (le_length_padded w n))
  have hall : (padded w n).all isDigit := List.all_eq_true.mpr fun c hc => isDigit_of_mem_padded hc
  have hdigits : (padded w n).reverse.map digit = Nat.digitsAppend 10 w n := by
    have hid : ∀ d ∈ Nat.digitsAppend 10 w n, (digit ∘ char) d = id d := fun d hd =>
      digit_char (Nat.lt_of_mem_digitsAppend (by omega) w d hd)
    rw [padded, List.reverse_reverse, List.map_map, List.map_congr_left hid, List.map_id]
  rw [read, if_pos ⟨hne, hall⟩, hdigits, Nat.digitsAppend, Nat.ofDigits_append_replicate_zero, Nat.ofDigits_digits]

/-- A number that is not zero has no leading zero. -/
theorem head_padded_ne {n : ℕ} (hn : 0 < n) {c : UInt8} {s : List UInt8} (h : padded 1 n = c :: s) : c ≠ 48 := by
  have hne : Nat.digits 10 n ≠ [] := Nat.digits_ne_nil_iff_ne_zero.mpr hn.ne'
  have happend : Nat.digitsAppend 10 1 n = Nat.digits 10 n := by
    have hlen := List.length_pos_iff.mpr hne
    rw [Nat.digitsAppend, show 1 - (Nat.digits 10 n).length = 0 by omega, List.replicate_zero, List.append_nil]
  have hhead : (padded 1 n).head? = some (char ((Nat.digits 10 n).getLast hne)) := by
    rw [padded, happend, List.head?_reverse, List.getLast?_map, List.getLast?_eq_some_getLast hne]
    rfl
  rw [h, List.head?_cons, Option.some.injEq] at hhead
  have hlast := Nat.getLast_digit_ne_zero 10 hn.ne'
  have hlt : (Nat.digits 10 n).getLast hne < 10 := Nat.digits_lt_base (by decide) (List.getLast_mem hne)
  rintro rfl
  have := congrArg digit hhead
  rw [digit_char hlt] at this
  exact hlast this.symm

/-- The integer that a text of digits stands for, with a sign or without. -/
def readSigned (s : List UInt8) : Option ℤ :=
  if s.head? = some 45 then (read s.tail).map fun n : ℕ => -(n : ℤ) else (read s).map fun n : ℕ => (n : ℤ)

theorem head?_padded_ne {n : ℕ} : (padded 1 n).head? ≠ some 45 := by
  intro h
  exact absurd (isDigit_of_mem_padded (List.mem_of_mem_head? h)) (by decide)

theorem readSigned_signed (n : ℤ) : readSigned (signed n) = some n := by
  unfold readSigned signed
  by_cases hn : n < 0
  · rw [if_pos hn, List.head?_cons, if_pos rfl, List.tail_cons, read_padded (by omega), Option.map_some]
    exact congrArg some (by omega)
  · rw [if_neg hn, if_neg head?_padded_ne, read_padded (by omega), Option.map_some]
    exact congrArg some (by omega)

theorem signed_ne_nil (n : ℤ) : signed n ≠ [] := by
  unfold signed
  split_ifs
  · exact List.cons_ne_nil _ _
  · exact List.ne_nil_of_length_pos (le_length_padded 1 _)

theorem length_signed_le {n : ℤ} {k : ℕ} (hk : 1 ≤ k) (hn : n.natAbs < 10 ^ k) : (signed n).length ≤ k + 1 := by
  have hlen := length_padded_le hk hn
  unfold signed
  split_ifs
  · exact Nat.succ_le_succ hlen
  · omega

/-- The characters of an integer. -/
theorem mem_signed {n : ℤ} {c : UInt8} (hc : c ∈ signed n) : c = 45 ∨ isDigit c := by
  unfold signed at hc
  by_cases hn : n < 0
  · rw [if_pos hn] at hc
    rcases List.mem_cons.mp hc with rfl | hc
    · exact Or.inl rfl
    · exact Or.inr (isDigit_of_mem_padded hc)
  · rw [if_neg hn] at hc
    exact Or.inr (isDigit_of_mem_padded hc)

end Decimal
