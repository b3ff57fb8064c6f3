/-
# Base64, a character at a time

Four characters are three bytes; two or three characters at the end are one or
two. The padding counts as zero bits. A single character at the end needs one
more for its byte, and none is there. So a text is decoded if and only if it
is written in the alphabet and leaves no single character (`decode_isSome_iff`).

The standard encoder writes groups of four and pads the last one. Read back,
its bytes are followed by a zero for each character of padding (`decode_encode`).

Key definitions: `Base64.value`, `Base64.decode`, `Base64.encode`.
Key theorems: `Base64.decode_isSome_iff`, `Base64.decode_encode`.
-/
import Mathlib.Data.UInt

namespace Base64

/-- The six bits of a character; `=` has zeros. -/
def value (c : UInt8) : Option ℕ :=
  if 65 ≤ c ∧ c ≤ 90 then some (c.toNat - 65)
  else if 97 ≤ c ∧ c ≤ 122 then some (c.toNat - 71)
  else if 48 ≤ c ∧ c ≤ 57 then some (c.toNat + 4)
  else if c = 43 then some 62
  else if c = 47 then some 63
  else if c = 61 then some 0
  else none

def inAlphabet (c : UInt8) : Bool := (value c).isSome

def values : List UInt8 → Option (List ℕ)
  | [] => some []
  | c :: s => (value c).bind fun v => (values s).map (v :: ·)

/-- The bytes of groups of four; bits that make no byte are dropped. -/
def bytes : List ℕ → List UInt8
  | a :: b :: c :: d :: vs =>
    .ofNat (a * 4 + b / 16) :: .ofNat (b % 16 * 16 + c / 4) :: .ofNat (c % 4 * 64 + d) :: bytes vs
  | [a, b, c] => [.ofNat (a * 4 + b / 16), .ofNat (b % 16 * 16 + c / 4)]
  | [a, b] => [.ofNat (a * 4 + b / 16)]
  | _ => []

def decode (s : List UInt8) : Option (List UInt8) := if s.length % 4 = 1 then none else (values s).map bytes

theorem values_isSome (s : List UInt8) : (values s).isSome = s.all inAlphabet := by
  induction s with
  | nil => rfl
  | cons c s ih =>
    rw [List.all_cons, ← ih, inAlphabet, values]
    rcases value c with _ | v
    · rfl
    · simp

/-- A text is decoded if and only if it is in the alphabet and can be cut. -/
theorem decode_isSome_iff (s : List UInt8) : (decode s).isSome ↔ s.all inAlphabet ∧ s.length % 4 ≠ 1 := by
  unfold decode
  by_cases hlen : s.length % 4 = 1
  · simp [hlen]
  · rw [if_neg hlen, Option.isSome_map, values_isSome]
    exact (and_iff_left hlen).symm

/-! ### The encoder -/

/-- The character of six bits. -/
def char (v : ℕ) : UInt8 :=
  if v < 26 then .ofNat (v + 65)
  else if v < 52 then .ofNat (v + 71)
  else if v < 62 then .ofNat (v - 4)
  else if v = 62 then 43
  else 47

/-- The standard encoding, padded. -/
def encode : List UInt8 → List UInt8
  | a :: b :: c :: u =>
    char (a.toNat / 4) :: char (a.toNat % 4 * 16 + b.toNat / 16) ::
      char (b.toNat % 16 * 4 + c.toNat / 64) :: char (c.toNat % 64) :: encode u
  | [a, b] => [char (a.toNat / 4), char (a.toNat % 4 * 16 + b.toNat / 16), char (b.toNat % 16 * 4), 61]
  | [a] => [char (a.toNat / 4), char (a.toNat % 4 * 16), 61, 61]
  | [] => []

/-- The characters of padding. -/
def padding (u : List UInt8) : ℕ := (3 - u.length % 3) % 3

theorem value_char : ∀ v < 64, value (char v) = some v := by decide

theorem value_pad : value 61 = some 0 := rfl

/-- Three bytes through four characters. -/
theorem values_group {a b c d : ℕ} (ha : a < 64) (hb : b < 64) (hc : c < 64) (hd : d < 64) (s : List UInt8) :
    values (char a :: char b :: char c :: char d :: s) = (values s).map fun vs => a :: b :: c :: d :: vs := by
  simp only [values, value_char _ ha, value_char _ hb, value_char _ hc, value_char _ hd, Option.bind_some,
    Option.map_map, Function.comp_def]

theorem ofNat_of_eq {n : ℕ} {a : UInt8} (h : n = a.toNat) : UInt8.ofNat n = a := by
  rw [h, UInt8.ofNat_toNat]

theorem length_encode : ∀ u : List UInt8, (encode u).length % 4 = 0
  | [] => rfl
  | [_] | [_, _] => by simp [encode]
  | _ :: _ :: _ :: u => by
    have := length_encode u
    simp only [encode, List.length_cons]
    omega

theorem values_encode : ∀ u : List UInt8, ∃ vs, values (encode u) = some vs ∧
    bytes vs = u ++ List.replicate (padding u) 0
  | [] => ⟨[], rfl, rfl⟩
  | [a] => by
    have ha := a.toNat_lt
    refine ⟨[a.toNat / 4, a.toNat % 4 * 16, 0, 0], ?_, ?_⟩
    · simp only [encode, values, value_char _ (by omega : a.toNat / 4 < 64),
        value_char _ (by omega : a.toNat % 4 * 16 < 64), value_pad, Option.bind_some, Option.map_some]
    · have h1 : UInt8.ofNat (a.toNat / 4 * 4 + a.toNat % 4 * 16 / 16) = a := ofNat_of_eq (by omega)
      have h2 : a.toNat % 4 * 16 % 16 = 0 := by omega
      simp only [bytes, h1, h2]
      rfl
  | [a, b] => by
    have ha := a.toNat_lt
    have hb := b.toNat_lt
    refine ⟨[a.toNat / 4, a.toNat % 4 * 16 + b.toNat / 16, b.toNat % 16 * 4, 0], ?_, ?_⟩
    · simp only [encode, values, value_char _ (by omega : a.toNat / 4 < 64),
        value_char _ (by omega : a.toNat % 4 * 16 + b.toNat / 16 < 64),
        value_char _ (by omega : b.toNat % 16 * 4 < 64), value_pad, Option.bind_some, Option.map_some]
    · have h1 : UInt8.ofNat (a.toNat / 4 * 4 + (a.toNat % 4 * 16 + b.toNat / 16) / 16) = a := ofNat_of_eq (by omega)
      have h2 : UInt8.ofNat ((a.toNat % 4 * 16 + b.toNat / 16) % 16 * 16 + b.toNat % 16 * 4 / 4) = b :=
        ofNat_of_eq (by omega)
      have h3 : b.toNat % 16 * 4 % 4 = 0 := by omega
      simp only [bytes, h1, h2, h3]
      rfl
  | a :: b :: c :: u => by
    obtain ⟨vs, hvs, hbytes⟩ := values_encode u
    have ha := a.toNat_lt
    have hb := b.toNat_lt
    have hc := c.toNat_lt
    refine ⟨a.toNat / 4 :: (a.toNat % 4 * 16 + b.toNat / 16) :: (b.toNat % 16 * 4 + c.toNat / 64) ::
      c.toNat % 64 :: vs, ?_, ?_⟩
    · rw [encode, values_group (by omega) (by omega) (by omega) (by omega), hvs]
      rfl
    · have h1 : UInt8.ofNat (a.toNat / 4 * 4 + (a.toNat % 4 * 16 + b.toNat / 16) / 16) = a := ofNat_of_eq (by omega)
      have h2 : UInt8.ofNat ((a.toNat % 4 * 16 + b.toNat / 16) % 16 * 16 + (b.toNat % 16 * 4 + c.toNat / 64) / 4) = b :=
        ofNat_of_eq (by omega)
      have h3 : UInt8.ofNat ((b.toNat % 16 * 4 + c.toNat / 64) % 4 * 64 + c.toNat % 64) = c := ofNat_of_eq (by omega)
      have hpad : padding (a :: b :: c :: u) = padding u := by
        simp only [padding, List.length_cons]
        omega
      simp only [bytes, h1, h2, h3, hbytes, hpad, List.cons_append]

/-- What the decoder makes of an encoding: the bytes, and a zero for each
character of padding. -/
theorem decode_encode (u : List UInt8) : decode (encode u) = some (u ++ List.replicate (padding u) 0) := by
  obtain ⟨vs, hvs, hbytes⟩ := values_encode u
  rw [decode, if_neg (by rw [length_encode]; decide), hvs, Option.map_some, hbytes]

/-- An encoding is read back if and only if it is not padded. -/
theorem decode_encode_eq_iff (u : List UInt8) : decode (encode u) = some u ↔ u.length % 3 = 0 := by
  rw [decode_encode, Option.some.injEq, List.append_right_eq_self, List.replicate_eq_nil_iff, padding]
  omega

end Base64
