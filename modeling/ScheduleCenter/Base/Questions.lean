/-
# Programs that ask

A program on a state asks questions, one after another. Whether a question is
answered depends on who is asked and on how many questions came before it, since
the world may change between two of them; at the first one without an answer the
program ends with an exception, half done.

`Runs answers x s l a s'`: from the state `s` the program `x` asks `l`, in this
order; if all of them answer it returns `a` in the state `s'`, and if not it
throws. The rules take a program apart, and what is asked adds up
(`Runs.bind`).

Key definitions: `Questions.Prog`, `Questions.ask`, `Questions.answered`, `Questions.Runs`.
Key theorems: `answered_append`, `Runs.bind`, `Runs.bind_nil`, `Runs.bind_last`.
-/
import Mathlib.Tactic.Common

namespace Questions

variable {ι σ α β : Type}

/-- Programs on a state `σ` that count the questions asked. -/
abbrev Prog (σ : Type) := EStateM Unit (σ × ℕ)

/-- The state. -/
def state : Prog σ σ := fun p => .ok p.1 p

/-- Changes the state. -/
def update (f : σ → σ) : Prog σ Unit := fun p => .ok () (f p.1, p.2)

/-- Asks `i`. -/
def ask (answers : ι → ℕ → Bool) (i : ι) : Prog σ Unit := fun p =>
  if answers i p.2 then .ok () (p.1, p.2 + 1) else .error () (p.1, p.2 + 1)

/-- All of the list answer, asked in this order from the question `n` on. -/
def answered (answers : ι → ℕ → Bool) : List ι → ℕ → Bool
  | [], _ => true
  | i :: l, n => answers i n && answered answers l (n + 1)

theorem answered_append (answers : ι → ℕ → Bool) : ∀ (l m : List ι) (n : ℕ),
    answered answers (l ++ m) n = (answered answers l n && answered answers m (n + l.length))
  | [], _, _ => rfl
  | i :: l, m, n => by
    rw [List.cons_append, answered, answered_append answers l m, answered, Bool.and_assoc, List.length_cons,
      Nat.add_right_comm, Nat.add_assoc]

theorem answered_of_forall {answers : ι → ℕ → Bool} (h : ∀ i n, answers i n) : ∀ (l : List ι) (n : ℕ),
    answered answers l n
  | [], _ => rfl
  | i :: l, n => by rw [answered, h i n, answered_of_forall h l, Bool.and_self]

/-- From `s`, the program asks `l`; it returns `a` in `s'` if all of them answer
and throws if not. -/
structure Runs (answers : ι → ℕ → Bool) (x : Prog σ α) (s : σ) (l : List ι) (a : α) (s' : σ) : Prop where
  ok : ∀ n, answered answers l n → x (s, n) = .ok a (s', n + l.length)
  error : ∀ n, ¬ answered answers l n → ∃ p, x (s, n) = .error () p

variable {answers : ι → ℕ → Bool} {x : Prog σ α} {f : α → Prog σ β} {s s₁ s' : σ} {l m : List ι} {a : α} {b : β}

theorem runs_pure : Runs answers (pure a) s [] a s :=
  ⟨fun _ _ => rfl, fun _ h => absurd rfl h⟩

theorem runs_state : Runs answers state s [] s s :=
  ⟨fun _ _ => rfl, fun _ h => absurd rfl h⟩

theorem runs_update {g : σ → σ} : Runs answers (update g) s [] () (g s) :=
  ⟨fun _ _ => rfl, fun _ h => absurd rfl h⟩

theorem runs_ask {i : ι} : Runs answers (ask answers i) s [i] () s where
  ok n h := by
    have hi : answers i n := by simpa [answered] using h
    simp [ask, hi]
  error n h := by
    have hi : ¬ answers i n := by simpa [answered] using h
    exact ⟨(s, n + 1), by simp [ask, hi]⟩

/-- One program after another: what they ask is appended. -/
theorem Runs.bind (hx : Runs answers x s l a s₁) (hf : Runs answers (f a) s₁ m b s') :
    Runs answers (x >>= f) s (l ++ m) b s' where
  ok n h := by
    rw [answered_append, Bool.and_eq_true] at h
    have hok : x (s, n) = .ok a (s₁, n + l.length) := hx.ok n h.1
    calc (x >>= f) (s, n) = f a (s₁, n + l.length) := by simp [Bind.bind, EStateM.bind, hok]
      _ = .ok b (s', n + l.length + m.length) := hf.ok _ h.2
      _ = .ok b (s', n + (l ++ m).length) := by rw [List.length_append, Nat.add_assoc]
  error n h := by
    by_cases hl : answered answers l n
    · have hm : ¬ answered answers m (n + l.length) := by
        intro hm
        exact h (by rw [answered_append, hl, hm, Bool.and_self])
      obtain ⟨p, hp⟩ := hf.error _ hm
      exact ⟨p, by simp [Bind.bind, EStateM.bind, hx.ok n hl, hp]⟩
    · obtain ⟨p, hp⟩ := hx.error n hl
      exact ⟨p, by simp [Bind.bind, EStateM.bind, hp]⟩

/-- A program that asks nobody, and then another. -/
theorem Runs.bind_nil (hx : Runs answers x s [] a s₁) (hf : Runs answers (f a) s₁ m b s') :
    Runs answers (x >>= f) s m b s' :=
  hx.bind hf

/-- A program, and then one that asks nobody. -/
theorem Runs.bind_last (hx : Runs answers x s l a s₁) (hf : Runs answers (f a) s₁ [] b s') :
    Runs answers (x >>= f) s l b s' := by
  have hboth := hx.bind hf
  rwa [List.append_nil] at hboth

end Questions
