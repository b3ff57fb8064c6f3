/-
# Code that returns or throws

`Ends x P`: the code `x` returns, and what it returns satisfies `P`.
`Throws x p`: it throws an exception with `p`. The rules take a program apart:
a return, a throw, one part after another (`ends_bind`), a value that may be
missing (`ends_orThrow`), and a handler for some of the exceptions
(`ends_catching`).

Key definitions: `Outcome.Ends`, `Outcome.Throws`, `Outcome.orThrow`, `Outcome.catching`.
Key theorems: `Outcome.ends_bind`, `Outcome.throws_bind`, `Outcome.ends_catching`.
-/
import Mathlib.Tactic.Common

namespace Outcome

universe u

variable {ε : Type*} {α β : Type u}

/-- The code returns a value with `P`. -/
def Ends (x : Except ε α) (P : α → Prop) : Prop := ∃ a, x = .ok a ∧ P a

/-- The code throws an exception with `p`. -/
def Throws (x : Except ε α) (p : ε → Bool) : Prop := ∃ e, x = .error e ∧ p e

/-- The value, or the exception where there is none. -/
def orThrow (o : Option α) (e : ε) : Except ε α := o.elim (.error e) .ok

/-- Runs `x`; the exceptions with `p` are caught, and `a` is returned. -/
def catching (p : ε → Bool) (a : α) : Except ε α → Except ε α
  | .ok b => .ok b
  | .error e => if p e then .ok a else .error e

theorem ends_eq_iff {x : Except ε α} {a : α} : Ends x (· = a) ↔ x = .ok a := by
  constructor
  · rintro ⟨b, hb, rfl⟩
    exact hb
  · exact fun h => ⟨a, h, rfl⟩

@[simp]
theorem ends_pure {a : α} {P : α → Prop} : Ends (pure a : Except ε α) P ↔ P a := by
  constructor
  · rintro ⟨b, hb, hP⟩
    rwa [Except.ok.inj hb]
  · exact fun hP => ⟨a, rfl, hP⟩

@[simp]
theorem ends_throw {e : ε} {P : α → Prop} : ¬ Ends (throw e : Except ε α) P := by
  rintro ⟨b, hb, -⟩
  cases hb

@[simp]
theorem ends_bind {x : Except ε α} {f : α → Except ε β} {P : β → Prop} :
    Ends (x >>= f) P ↔ Ends x fun a => Ends (f a) P := by
  rcases x with e | a
  · constructor
    · rintro ⟨b, hb, -⟩
      cases hb
    · rintro ⟨a, ha, -⟩
      cases ha
  · constructor
    · exact fun h => ⟨a, rfl, h⟩
    · rintro ⟨b, hb, h⟩
      rwa [← Except.ok.inj hb] at h

@[simp]
theorem ends_ite {c : Prop} [Decidable c] {x y : Except ε α} {P : α → Prop} :
    Ends (if c then x else y) P ↔ (c → Ends x P) ∧ (¬ c → Ends y P) := by
  by_cases hc : c
  · simp [hc]
  · simp [hc]

@[simp]
theorem ends_map {x : Except ε α} {f : α → β} {P : β → Prop} : Ends (f <$> x) P ↔ Ends x fun a => P (f a) := by
  rcases x with e | a
  · simp [Ends]
  · simp [Ends]

@[simp]
theorem ends_orThrow {o : Option α} {e : ε} {P : α → Prop} : Ends (orThrow o e) P ↔ ∃ a, o = some a ∧ P a := by
  rcases o with _ | a
  · simp [Ends, orThrow]
  · simp [Ends, orThrow]

@[simp]
theorem throws_pure {a : α} {p : ε → Bool} : ¬ Throws (pure a : Except ε α) p := by
  rintro ⟨e, he, -⟩
  cases he

@[simp]
theorem throws_bind {x : Except ε α} {f : α → Except ε β} {p : ε → Bool} :
    Throws (x >>= f) p ↔ Throws x p ∨ Ends x fun a => Throws (f a) p := by
  rcases x with e | a
  · have hbind : (Except.error e >>= f) = .error e := rfl
    simp [Throws, Ends, hbind]
  · have hbind : (Except.ok a >>= f) = f a := rfl
    simp [Throws, Ends, hbind]

@[simp]
theorem throws_ite {c : Prop} [Decidable c] {x y : Except ε α} {p : ε → Bool} :
    Throws (if c then x else y) p ↔ (c ∧ Throws x p) ∨ (¬ c ∧ Throws y p) := by
  by_cases hc : c
  · simp [hc]
  · simp [hc]

@[simp]
theorem throws_map {x : Except ε α} {f : α → β} {p : ε → Bool} : Throws (f <$> x) p ↔ Throws x p := by
  rcases x with e | a
  · simp [Throws]
  · simp [Throws]

@[simp]
theorem throws_orThrow {o : Option α} {e : ε} {p : ε → Bool} : Throws (orThrow o e) p ↔ o = none ∧ p e := by
  rcases o with _ | a
  · simp [Throws, orThrow]
  · simp [Throws, orThrow]

/-- A handler: the code returns, or it throws what the handler catches. -/
theorem ends_catching {p : ε → Bool} {a : α} {x : Except ε α} {P : α → Prop} :
    Ends (catching p a x) P ↔ Ends x P ∨ Throws x p ∧ P a := by
  rcases x with e | b
  · by_cases he : p e
    · simp [Ends, Throws, catching, he]
    · simp [Ends, Throws, catching, he]
  · simp [Ends, Throws, catching]

end Outcome
