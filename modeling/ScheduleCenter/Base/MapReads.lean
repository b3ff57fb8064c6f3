/-
# Code that reads a map whose `operator[]` inserts

A program of `Prog κ ν β` asks whether keys are in a map and reads values through
`operator[]`, which inserts a default value where it finds none, and returns a
value. Afterwards the map has the keys it had and those that were read
(`mem_eval`): it is the map it was if and only if every key that was read was
there (`eval_eq_iff`).

Key definitions: `MapReads.Prog`, `MapReads.eval`, `MapReads.brackets`, `MapReads.Hits`,
`MapReads.Finds`.
Key theorems: `MapReads.mem_eval`, `MapReads.eval_eq_iff`, `MapReads.Finds.bind`.
-/
import Mathlib.Data.List.AList

namespace MapReads

variable {κ ν β γ : Type}

/-- Code over a map from `κ` to `ν`. -/
inductive Prog (κ ν β : Type)
  | ret (b : β)
  /-- `find(k) != end()`. -/
  | find (k : κ) (c : Bool → Prog κ ν β)
  /-- `operator[](k)`. -/
  | bracket (k : κ) (c : ν → Prog κ ν β)

/-- One after the other. -/
def Prog.bind : Prog κ ν β → (β → Prog κ ν γ) → Prog κ ν γ
  | .ret b, f => f b
  | .find k c, f => .find k fun found => (c found).bind f
  | .bracket k c, f => .bracket k fun v => (c v).bind f

instance : Monad (Prog κ ν) where
  pure := .ret
  bind := .bind

def find (k : κ) : Prog κ ν Bool := .find k .ret

def bracket (k : κ) : Prog κ ν ν := .bracket k .ret

variable [DecidableEq κ] [Inhabited ν]

/-- The value that `operator[]` gives. -/
def value (m : AList fun _ : κ => ν) (k : κ) : ν := (m.lookup k).getD default

/-- The map that `operator[]` leaves. -/
def touch (m : AList fun _ : κ => ν) (k : κ) : AList fun _ : κ => ν := if k ∈ m then m else m.insert k default

/-- The value returned, and the map afterwards. -/
def eval : Prog κ ν β → (AList fun _ : κ => ν) → β × AList fun _ : κ => ν
  | .ret b, m => (b, m)
  | .find k c, m => eval (c (k ∈ m)) m
  | .bracket k c, m => eval (c (value m k)) (touch m k)

/-- The keys read through `operator[]`, in order. -/
def brackets : Prog κ ν β → (AList fun _ : κ => ν) → List κ
  | .ret _, _ => []
  | .find k c, m => brackets (c (k ∈ m)) m
  | .bracket k c, m => k :: brackets (c (value m k)) (touch m k)

variable {m : AList fun _ : κ => ν} {k : κ} {x : Prog κ ν β} {f : β → Prog κ ν γ}

theorem mem_touch {k' : κ} : k' ∈ touch m k ↔ k' ∈ m ∨ k' = k := by
  unfold touch
  split_ifs with hk
  · constructor
    · exact Or.inl
    · rintro (h | rfl)
      · exact h
      · exact hk
  · rw [AList.mem_insert, or_comm]

theorem touch_of_mem (hk : k ∈ m) : touch m k = m := if_pos hk

/-- **The keys are those that were there and those that were read.** -/
theorem mem_eval {k' : κ} : ∀ (x : Prog κ ν β) (m : AList fun _ : κ => ν),
    k' ∈ (eval x m).2 ↔ k' ∈ m ∨ k' ∈ brackets x m
  | .ret _, m => by simp [eval, brackets]
  | .find k c, m => mem_eval (c (k ∈ m)) m
  | .bracket k c, m => by rw [eval, brackets, mem_eval, mem_touch, List.mem_cons, or_assoc]

/-- Every key that is read is there. -/
def Hits (x : Prog κ ν β) (m : AList fun _ : κ => ν) : Prop := ∀ k ∈ brackets x m, k ∈ m

theorem hits_bracket {c : ν → Prog κ ν β} : Hits (.bracket k c) m ↔ k ∈ m ∧ Hits (c (value m k)) m := by
  rw [Hits, brackets, List.forall_mem_cons]
  apply and_congr_right
  intro hk
  rw [touch_of_mem hk, Hits]

/-- Where every key is there, the map is not changed. -/
theorem Hits.eval_snd : ∀ {x : Prog κ ν β} {m : AList fun _ : κ => ν}, Hits x m → (eval x m).2 = m
  | .ret _, _, _ => rfl
  | .find k c, m, h => Hits.eval_snd (x := c (k ∈ m)) h
  | .bracket k c, m, h => by
    obtain ⟨hk, hc⟩ := hits_bracket.mp h
    rw [eval, touch_of_mem hk, hc.eval_snd]

/-- **The map is not changed if and only if every key that is read is there.** -/
theorem eval_eq_iff : (eval x m).2 = m ↔ Hits x m := by
  constructor
  · intro h k hk
    rw [← h]
    exact (mem_eval x m).mpr (Or.inr hk)
  · exact Hits.eval_snd

/-! ### One after the other -/

theorem eval_bind : ∀ (x : Prog κ ν β) (m : AList fun _ : κ => ν),
    eval (x >>= f) m = eval (f (eval x m).1) (eval x m).2
  | .ret _, _ => rfl
  | .find k c, m => eval_bind (c (k ∈ m)) m
  | .bracket k c, m => eval_bind (c (value m k)) (touch m k)

theorem brackets_bind : ∀ (x : Prog κ ν β) (m : AList fun _ : κ => ν),
    brackets (x >>= f) m = brackets x m ++ brackets (f (eval x m).1) (eval x m).2
  | .ret _, _ => rfl
  | .find k c, m => brackets_bind (c (k ∈ m)) m
  | .bracket k c, m => congrArg _ (brackets_bind (c (value m k)) (touch m k))

/-- The program returns `b` and reads only keys that are there. -/
structure Finds (x : Prog κ ν β) (m : AList fun _ : κ => ν) (b : β) : Prop where
  value : (eval x m).1 = b
  hits : Hits x m

theorem Finds.eval_eq {b : β} (h : Finds x m b) : eval x m = (b, m) := Prod.ext h.value h.hits.eval_snd

theorem finds_pure (b : β) : Finds (pure b : Prog κ ν β) m b := ⟨rfl, fun _ hk => nomatch hk⟩

theorem finds_find (k : κ) : Finds (find k : Prog κ ν Bool) m (k ∈ m) := ⟨rfl, fun _ hk => nomatch hk⟩

theorem finds_bracket (hk : k ∈ m) : Finds (bracket k : Prog κ ν ν) m (value m k) :=
  ⟨rfl, hits_bracket.mpr ⟨hk, fun _ hk => nomatch hk⟩⟩

theorem Finds.bind {b : β} {c : γ} (hx : Finds x m b) (hf : Finds (f b) m c) : Finds (x >>= f) m c where
  value := by rw [eval_bind, hx.eval_eq, hf.value]
  hits k hk := by
    rw [brackets_bind, hx.eval_eq, List.mem_append] at hk
    exact hk.elim (hx.hits k) (hf.hits k)

end MapReads
