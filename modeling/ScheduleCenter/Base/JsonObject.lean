/-
# JSON numbers and objects

Readers in the way of `JsonText`: numbers by the grammar of JSON, which allows no
leading zero, and objects with values of any kind. An integer written in
decimal is read as it was written (`number_signed`), and so is an object whose
members are pasted, if its keys are plain and its values are read
(`object_pasted`). A number has to be followed by something that cannot belong
to it.

Key definitions: `JsonText.number`, `JsonText.object`, `JsonText.pasteObject`.
Key theorems: `JsonText.number_signed`, `JsonText.object_pasted`.
-/
import ScheduleCenter.Base.Decimal
import ScheduleCenter.Base.JsonText

namespace JsonText

open Decimal (isDigit)

/-! ### Numbers -/

/-- One digit at least. -/
def digits : Parser (List UInt8) := fun s =>
  if s.takeWhile isDigit = [] then none else some (s.takeWhile isDigit, s.dropWhile isDigit)

/-- A zero, or digits that begin with another one. -/
def intPart : Parser (List UInt8)
  | 48 :: s => some ([48], s)
  | s => digits s

def fraction : Parser (List UInt8)
  | 46 :: s => (digits s).map fun d => (46 :: d.1, d.2)
  | s => some ([], s)

/-- What is behind the `e`. -/
def exponentDigits : Parser (List UInt8)
  | 43 :: s => (digits s).map fun d => (43 :: d.1, d.2)
  | 45 :: s => (digits s).map fun d => (45 :: d.1, d.2)
  | s => digits s

def exponent : Parser (List UInt8)
  | 101 :: s => (exponentDigits s).map fun d => (101 :: d.1, d.2)
  | 69 :: s => (exponentDigits s).map fun d => (69 :: d.1, d.2)
  | s => some ([], s)

def unsigned : Parser (List UInt8) := fun s =>
  (intPart s).bind fun i => (fraction i.2).bind fun f => (exponent f.2).map fun e => (i.1 ++ f.1 ++ e.1, e.2)

/-- The text of a number. -/
def number : Parser (List UInt8)
  | 45 :: s => (unsigned s).map fun u => (45 :: u.1, u.2)
  | s => unsigned s

/-! ### Objects -/

variable {α : Type*}

/-- A key and its value. -/
def member (value : Parser α) : Parser (List UInt8 × α) := fun s =>
  (string s).bind fun k =>
    match skip k.2 with
    | 58 :: r => (value (skip r)).map fun v => ((k.1, v.1), v.2)
    | _ => none

/-- What is behind the opening brace, at most `fuel` members and at least one. -/
def members (value : Parser α) : ℕ → Parser (List (List UInt8 × α))
  | 0, _ => none
  | fuel + 1, s => (member value s).bind fun p =>
    match skip p.2 with
    | 125 :: r => some ([p.1], r)
    | 44 :: r => (members value fuel (skip r)).map fun q => (p.1 :: q.1, q.2)
    | _ => none

def object (value : Parser α) : Parser (List (List UInt8 × α))
  | 123 :: s =>
    match skip s with
    | 125 :: r => some ([], r)
    | s' => members value s'.length s'
  | _ => none

/-! ### Integers -/

/-- Nothing of a number. -/
def Ends (r : List UInt8) : Prop := ∀ c ∈ r.head?, isDigit c = false ∧ c ≠ 46 ∧ c ≠ 101 ∧ c ≠ 69

theorem Ends.dropWhile {r : List UInt8} (hr : Ends r) : r.takeWhile isDigit = [] ∧ r.dropWhile isDigit = r := by
  rcases r with _ | ⟨c, r⟩
  · exact ⟨rfl, rfl⟩
  · obtain ⟨hdigit, -⟩ := hr c rfl
    exact ⟨List.takeWhile_cons_of_neg (by simp [hdigit]), List.dropWhile_cons_of_neg (by simp [hdigit])⟩

theorem digits_append {d r : List UInt8} (hne : d ≠ []) (hd : ∀ c ∈ d, isDigit c) (hr : Ends r) :
    digits (d ++ r) = some (d, r) := by
  obtain ⟨htake, hdrop⟩ := hr.dropWhile
  have htake' : (d ++ r).takeWhile isDigit = d := by
    rw [List.takeWhile_append_of_pos hd, htake, List.append_nil]
  have hdrop' : (d ++ r).dropWhile isDigit = r := by
    rw [List.dropWhile_append_of_pos hd, hdrop]
  rw [digits, htake', hdrop', if_neg hne]

/-- The digits of a number have no leading zero. -/
theorem intPart_padded (n : ℕ) {r : List UInt8} (hr : Ends r) :
    intPart (Decimal.padded 1 n ++ r) = some (Decimal.padded 1 n, r) := by
  have hdigits : ∀ c ∈ Decimal.padded 1 n, isDigit c := fun c hc => Decimal.isDigit_of_mem_padded hc
  rcases Nat.eq_zero_or_pos n with rfl | hn
  · rfl
  · have hne : Decimal.padded 1 n ≠ [] := List.ne_nil_of_length_pos (Decimal.le_length_padded 1 n)
    obtain ⟨c, d, hcd⟩ := List.exists_cons_of_ne_nil hne
    have hc : c ≠ 48 := Decimal.head_padded_ne hn hcd
    have hread := digits_append hne hdigits hr
    rw [hcd, List.cons_append] at hread ⊢
    rw [intPart]
    · exact hread
    · intro s hs
      exact absurd (List.cons.inj hs).1 hc

theorem unsigned_padded (n : ℕ) {r : List UInt8} (hr : Ends r) :
    unsigned (Decimal.padded 1 n ++ r) = some (Decimal.padded 1 n, r) := by
  have hfraction : fraction r = some ([], r) := by
    rcases r with _ | ⟨c, r⟩
    · rfl
    · rw [fraction]
      intro s hs
      exact (hr c rfl).2.1 (List.cons.inj hs).1
  have hexponent : exponent r = some ([], r) := by
    rcases r with _ | ⟨c, r⟩
    · rfl
    · rw [exponent]
      · intro s hs
        exact (hr c rfl).2.2.1 (List.cons.inj hs).1
      · intro s hs
        exact (hr c rfl).2.2.2 (List.cons.inj hs).1
  simp [unsigned, intPart_padded n hr, hfraction, hexponent]

/-- An integer is read as it was written. -/
theorem number_signed (n : ℤ) {r : List UInt8} (hr : Ends r) :
    number (Decimal.signed n ++ r) = some (Decimal.signed n, r) := by
  unfold Decimal.signed
  by_cases hn : n < 0
  · rw [if_pos hn, List.cons_append, number, unsigned_padded _ hr]
    rfl
  · rw [if_neg hn]
    have hne : Decimal.padded 1 n.natAbs ≠ [] := List.ne_nil_of_length_pos (Decimal.le_length_padded 1 _)
    obtain ⟨c, d, hcd⟩ := List.exists_cons_of_ne_nil hne
    have hread := unsigned_padded n.natAbs hr
    rw [hcd, List.cons_append] at hread ⊢
    rw [number]
    · exact hread
    · intro s hs
      have hc : isDigit c := Decimal.isDigit_of_mem_padded (hcd ▸ List.mem_cons_self)
      rw [(List.cons.inj hs).1] at hc
      exact absurd hc (by decide)

/-! ### Pasted objects -/

/-- A member and the text of its value. -/
structure Member (α : Type*) where
  key : List UInt8
  text : List UInt8
  value : α

/-- The key between quotes, as it is, and the text of the value. -/
def pasteMember (m : Member α) : List UInt8 := quoted m.key ++ 58 :: m.text

def pasteObject (l : List (Member α)) : List UInt8 := 123 :: ([44].intercalate (l.map pasteMember) ++ [125])

/-- A member that is read as it is meant. -/
structure Member.Read (value : Parser α) (m : Member α) : Prop where
  key : m.key.all plain
  opens : Opens m.text
  value : ∀ r, Ends r → value (m.text ++ r) = some (m.value, r)

theorem opens_pasteMember (m : Member α) : Opens (pasteMember m) := (opens_quoted m.key).append _

theorem member_paste {value : Parser α} {m : Member α} (hm : m.Read value) {r : List UInt8} (hr : Ends r) :
    member value (pasteMember m ++ r) = some ((m.key, m.value), r) := by
  have htext : pasteMember m ++ r = quoted m.key ++ 58 :: (m.text ++ r) := by simp [pasteMember]
  have hcolon : ∀ s, skip (58 :: s) = 58 :: s := fun s => rfl
  rw [htext, member, string_quoted hm.key]
  simp [hcolon, (hm.opens.append r).skip, hm.value r hr]

theorem ends_comma (r : List UInt8) : Ends (44 :: r) := by
  intro c hc
  cases hc
  decide

theorem ends_brace (r : List UInt8) : Ends (125 :: r) := by
  intro c hc
  cases hc
  decide

theorem members_paste {value : Parser α} {l : List (Member α)} (hl : ∀ m ∈ l, m.Read value) (hne : l ≠ [])
    {fuel : ℕ} (hfuel : l.length ≤ fuel) (r : List UInt8) :
    members value fuel ([44].intercalate (l.map pasteMember) ++ 125 :: r) =
      some (l.map fun m => (m.key, m.value), r) := by
  induction l generalizing fuel with
  | nil => exact absurd rfl hne
  | cons m l ih =>
    obtain ⟨fuel, rfl⟩ := Nat.exists_eq_succ_of_ne_zero (Nat.ne_of_gt (Nat.lt_of_lt_of_le (Nat.succ_pos _) hfuel))
    have hm := hl m List.mem_cons_self
    rcases l with _ | ⟨n, l⟩
    · have hskip : skip (125 :: r) = 125 :: r := rfl
      simp [members, member_paste hm (ends_brace r), hskip]
    · have hrest := ih (fun x hx => hl x (List.mem_cons_of_mem _ hx)) (List.cons_ne_nil _ _)
        (Nat.le_of_succ_le_succ hfuel)
      have hopens : Opens ([44].intercalate ((n :: l).map pasteMember) ++ 125 :: r) :=
        (Opens.intercalate (fun x _ => opens_pasteMember x) (List.cons_ne_nil _ _)).append _
      have hcomma : ∀ s, skip (44 :: s) = 44 :: s := fun s => rfl
      have htext : [44].intercalate ((m :: n :: l).map pasteMember) ++ 125 :: r =
          pasteMember m ++ 44 :: ([44].intercalate ((n :: l).map pasteMember) ++ 125 :: r) := by
        simp [List.intercalate_cons_cons]
      rw [htext, members, member_paste hm (ends_comma _), Option.bind_some]
      simp only [hcomma, hopens.skip, hrest, Option.map_some]
      rfl

/-- **An object of members that are read is read.** -/
theorem object_pasted {value : Parser α} {l : List (Member α)} (hl : ∀ m ∈ l, m.Read value) (hne : l ≠ [])
    (r : List UInt8) : object value (pasteObject l ++ r) = some (l.map fun m => (m.key, m.value), r) := by
  have htext : pasteObject l ++ r = 123 :: ([44].intercalate (l.map pasteMember) ++ 125 :: r) := by
    simp [pasteObject]
  have hopens : Opens ([44].intercalate (l.map pasteMember)) :=
    Opens.intercalate (fun m _ => opens_pasteMember m) hne
  have hfuel : l.length ≤ ([44].intercalate (l.map pasteMember) ++ 125 :: r).length := by
    rw [List.length_append, length_intercalate, List.length_map, List.length_cons]
    omega
  have hmembers := members_paste hl hne hfuel r
  have hquote : ([44].intercalate (l.map pasteMember) ++ 125 :: r).head? = some 34 := by
    obtain ⟨m, l, rfl⟩ := List.exists_cons_of_ne_nil hne
    rcases l with _ | ⟨n, l⟩
    · simp [pasteMember, quoted]
    · simp [pasteMember, quoted, List.intercalate_cons_cons]
  rw [htext, object, (hopens.append _).skip]
  split
  case h_1 r' hclose =>
    rw [hclose] at hquote
    cases hquote
  case h_2 => exact hmembers

end JsonText
