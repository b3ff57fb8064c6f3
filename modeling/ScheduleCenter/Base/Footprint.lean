/-
# Code that reads a memory, and the cells it reads

A program of `Prog α β` reads cells of a memory one after another, each chosen by
what it has read before, and returns a value. Its footprint in a memory is the
list of cells it reads. Memories that agree on the footprint give the same
value (`eval_congr`); so a program that stays inside the cells that are known
does not depend on the others (`eval_eq_of_holds`).

Key definitions: `Footprint.Prog`, `Footprint.eval`, `Footprint.cells`, `Footprint.Holds`.
Key theorems: `Footprint.eval_congr`, `Footprint.eval_eq_of_holds`, `Footprint.eval_upTo`.
-/
import Mathlib.Data.List.TakeWhile
import Mathlib.Tactic.Common

namespace Footprint

universe u v w

variable {α : Type u} {β : Type v} {γ : Type w}

/-- Code over a memory with cells in `α`. -/
inductive Prog (α : Type u) (β : Type v)
  | ret (b : β)
  | read (i : ℕ) (k : α → Prog α β)

/-- One after the other. -/
def Prog.bind : Prog α β → (β → Prog α γ) → Prog α γ
  | .ret b, f => f b
  | .read i k, f => .read i fun a => (k a).bind f

/-- The value returned. -/
def eval (mem : ℕ → α) : Prog α β → β
  | .ret b => b
  | .read i k => eval mem (k (mem i))

/-- The cells read, in order. -/
def cells (mem : ℕ → α) : Prog α β → List ℕ
  | .ret _ => []
  | .read i k => i :: cells mem (k (mem i))

@[simp] theorem eval_ret (mem : ℕ → α) (b : β) : eval mem (.ret b) = b := rfl

@[simp] theorem cells_ret (mem : ℕ → α) (b : β) : cells mem (.ret b : Prog α β) = [] := rfl

@[simp]
theorem eval_bind (mem : ℕ → α) (f : β → Prog α γ) : ∀ P : Prog α β, eval mem (P.bind f) = eval mem (f (eval mem P))
  | .ret _ => rfl
  | .read i k => eval_bind mem f (k (mem i))

@[simp]
theorem cells_bind (mem : ℕ → α) (f : β → Prog α γ) :
    ∀ P : Prog α β, cells mem (P.bind f) = cells mem P ++ cells mem (f (eval mem P))
  | .ret _ => rfl
  | .read i k => congrArg _ (cells_bind mem f (k (mem i)))

/-- **A program does not depend on what it does not read.** -/
theorem eval_congr {mem mem' : ℕ → α} : ∀ P : Prog α β, (∀ i ∈ cells mem P, mem' i = mem i) → eval mem' P = eval mem P
  | .ret _, _ => rfl
  | .read i k, h => by
    have hi : mem' i = mem i := h i List.mem_cons_self
    have hk : eval mem' (k (mem i)) = eval mem (k (mem i)) :=
      eval_congr (k (mem i)) fun j hj => h j (List.mem_cons_of_mem _ hj)
    rw [eval, eval, hi, hk]

/-! ### A memory that begins with known cells -/

/-- The memory begins with `l`. -/
def Holds (l : List α) (mem : ℕ → α) : Prop := ∀ i a, l[i]? = some a → mem i = a

theorem holds_getD (l : List α) (a : α) : Holds l (l.getD · a) := by
  intro i b h
  show l.getD i a = b
  rw [List.getD_eq_getElem?_getD, h]
  rfl

theorem Holds.left {l t : List α} {mem : ℕ → α} (hm : Holds (l ++ t) mem) : Holds l mem := by
  intro i a h
  have hlt : i < l.length := (List.getElem?_eq_some_iff.mp h).1
  exact hm i a (by rw [List.getElem?_append_left hlt, h])

theorem Holds.drop {l : List α} {mem : ℕ → α} (hm : Holds l mem) (i : ℕ) :
    ∀ j a, (l.drop i)[j]? = some a → mem (i + j) = a := by
  intro j a h
  rw [List.getElem?_drop] at h
  exact hm _ _ h

theorem eval_eq_of_holds {l : List α} {mem mem' : ℕ → α} (hm : Holds l mem) (hm' : Holds l mem') (P : Prog α β)
    (hin : ∀ i ∈ cells mem P, i < l.length) : eval mem' P = eval mem P := by
  refine eval_congr P fun i hi => ?_
  have hget := List.getElem?_eq_getElem (hin i hi)
  rw [hm i _ hget, hm' i _ hget]

/-! ### Loops -/

/-- Reads `n` cells from `i` on. -/
def block (i : ℕ) : ℕ → Prog α (List α)
  | 0 => .ret []
  | n + 1 => .read i fun a => (block (i + 1) n).bind fun as => .ret (a :: as)

/-- Reads from `i` on to a cell that passes, and returns those before it; none
of `n` cells may pass. -/
def upTo (p : α → Bool) (i : ℕ) : ℕ → Prog α (Option (List α))
  | 0 => .ret none
  | n + 1 => .read i fun a => if p a then .ret (some []) else (upTo p (i + 1) n).bind fun r => .ret (r.map (a :: ·))

@[simp]
theorem eval_block (mem : ℕ → α) : ∀ i n : ℕ, eval mem (block i n) = (List.range' i n).map mem
  | _, 0 => rfl
  | i, n + 1 => by
    rw [block, eval, eval_bind, eval_block mem (i + 1) n]
    rfl

@[simp]
theorem cells_block (mem : ℕ → α) : ∀ i n : ℕ, cells mem (block i n) = List.range' i n
  | _, 0 => rfl
  | i, n + 1 => by
    rw [block, cells, cells_bind, cells_block mem (i + 1) n]
    exact congrArg _ (List.append_nil _)

/-- A block of known cells. -/
theorem eval_block_holds {l : List α} {mem : ℕ → α} (hm : Holds l mem) {i n : ℕ} (h : i + n ≤ l.length) :
    eval mem (block i n) = (l.drop i).take n := by
  rw [eval_block]
  refine List.ext_getElem? fun j => ?_
  by_cases hj : j < n
  · have hget : l[i + j]? = some l[i + j] := List.getElem?_eq_getElem (by omega)
    rw [List.getElem?_map, List.getElem?_range' hj, List.getElem?_take_of_lt hj, List.getElem?_drop, hget]
    simp [hm _ _ hget]
  · rw [List.getElem?_eq_none (by simp; omega), List.getElem?_eq_none (by simp; omega)]

/-- A known cell that passes ends the loop, which has then read known cells
only. -/
theorem eval_upTo {p : α → Bool} : ∀ {n i : ℕ} {l : List α} {mem : ℕ → α}, (∀ j a, l[j]? = some a → mem (i + j) = a) →
    l.length ≤ n → (∃ a ∈ l, p a) →
    eval mem (upTo p i n) = some (l.takeWhile (!p ·)) ∧ ∀ j ∈ cells mem (upTo p i n), j < i + l.length
  | 0, _, [], _, _, _, h => by simp at h
  | n + 1, _, [], _, _, _, h => by simp at h
  | n + 1, i, a :: l, mem, hm, hlen, h => by
    have ha : mem i = a := hm 0 a rfl
    rw [upTo, eval, cells, ha]
    by_cases hp : p a
    · rw [if_pos hp, List.takeWhile_cons_of_neg (by simp [hp])]
      simp
    · rw [if_neg hp, List.takeWhile_cons_of_pos (by simp [hp])]
      have hm' : ∀ j b, l[j]? = some b → mem (i + 1 + j) = b := by
        intro j b hj
        rw [Nat.add_assoc, Nat.add_comm 1 j]
        exact hm (j + 1) b hj
      have hex : ∃ b ∈ l, p b := by
        obtain ⟨b, hb, hpb⟩ := h
        rcases List.mem_cons.mp hb with rfl | hb
        · exact absurd hpb hp
        · exact ⟨b, hb, hpb⟩
      obtain ⟨heval, hcells⟩ := eval_upTo hm' (Nat.le_of_succ_le_succ hlen) hex
      rw [eval_bind, cells_bind, heval]
      refine ⟨rfl, fun j hj => ?_⟩
      simp only [List.mem_cons, cells_ret, List.append_nil, List.length_cons] at hj ⊢
      rcases hj with rfl | hj
      · omega
      · have := hcells j hj
        omega

/-- If no known cell passes, the loop gives up or reads the cell behind them. -/
theorem cells_upTo {p : α → Bool} : ∀ {n i : ℕ} {l : List α} {mem : ℕ → α}, (∀ j a, l[j]? = some a → mem (i + j) = a) →
    l.length ≤ n → (∀ a ∈ l, ¬ p a) → eval mem (upTo p i n) = none ∨ i + l.length ∈ cells mem (upTo p i n)
  | 0, _, [], _, _, _, _ => Or.inl rfl
  | n + 1, i, [], mem, _, _, _ => Or.inr List.mem_cons_self
  | n + 1, i, a :: l, mem, hm, hlen, h => by
    have ha : mem i = a := hm 0 a rfl
    have hp : ¬ p a := h a List.mem_cons_self
    have hm' : ∀ j b, l[j]? = some b → mem (i + 1 + j) = b := by
      intro j b hj
      rw [Nat.add_assoc, Nat.add_comm 1 j]
      exact hm (j + 1) b hj
    have hrest := cells_upTo hm' (Nat.le_of_succ_le_succ hlen) fun b hb => h b (List.mem_cons_of_mem _ hb)
    rw [upTo, eval, cells, ha, if_neg hp, eval_bind, cells_bind]
    rcases hrest with heval | hcells
    · exact Or.inl (by rw [heval]; rfl)
    · refine Or.inr (List.mem_cons_of_mem _ (List.mem_append_left _ ?_))
      rw [List.length_cons, Nat.add_comm l.length 1, ← Nat.add_assoc]
      exact hcells

end Footprint
