/-
# Counting the entries of a list that is updated in place

A table of threads is a list, a step of one of them replaces its entry. How
many entries satisfy a predicate changes by that entry alone, also when the
predicate reads a state that the step changes, as long as it says the same of
the other entries (`countP_set_add`). Sums over the table change the same way
(`sum_map_set_add`), and so do sums over a map (`sum_entries_insert_add`); two
tables related entry by entry stay so if both are updated at one place
(`forall₂_set`). An entry of the updated list is the new one or one of the others
(`getElem?_set_cases`, `forall_mem_set`).

Key theorems: `Counting.countP_set_add`, `Counting.sum_map_set_add`,
`Counting.sum_entries_insert_add`, `Counting.forall₂_set`, `Counting.countP_add_congr`,
`Counting.getElem?_set_cases`.
-/
import Mathlib.Algebra.Order.BigOperators.Group.List
import Mathlib.Data.List.AList
import Mathlib.Algebra.Order.Group.Nat
import Mathlib.Tactic.Abel

namespace Counting

variable {α : Type*}

/-- An entry of the new list is the new one, or one of the others. -/
theorem getElem?_set_cases {l : List α} {i j : ℕ} {y z : α} (h : (l.set i y)[j]? = some z) :
    j = i ∧ z = y ∨ j ≠ i ∧ l[j]? = some z := by
  rw [List.getElem?_set] at h
  split_ifs at h with hij hlt
  · exact Or.inl ⟨hij.symm, (Option.some.inj h).symm⟩
  · exact Or.inr ⟨Ne.symm hij, h⟩

/-- What holds of every entry and of the new one. -/
theorem forall_mem_set {P : α → Prop} {l : List α} {i : ℕ} {y : α} (h : ∀ z ∈ l, P z) (hy : P y) :
    ∀ z ∈ l.set i y, P z := by
  intro z hz
  rcases List.mem_or_eq_of_mem_set hz with hz | rfl
  · exact h z hz
  · exact hy

theorem countP_cons_toNat (p : α → Bool) (a : α) (l : List α) :
    (a :: l).countP p = l.countP p + (p a).toNat := by
  rw [List.countP_cons]
  cases p a <;> rfl

/-- Entry `i` goes from `x` to `y`, the predicate from `p` to `p'`, and on the
other entries the two agree. -/
theorem countP_set_add {p p' : α → Bool} {x y : α} : ∀ {l : List α} {i : ℕ}, l[i]? = some x →
    (∀ j z, j ≠ i → l[j]? = some z → p' z = p z) →
    (l.set i y).countP p' + (p x).toNat = l.countP p + (p' y).toNat
  | [], _, hx, _ => by simp at hx
  | a :: l, 0, hx, hf => by
    simp only [List.getElem?_cons_zero, Option.some.injEq] at hx
    subst hx
    have hl : l.countP p' = l.countP p := by
      refine List.countP_congr fun z hz => ?_
      obtain ⟨j, hj, rfl⟩ := List.mem_iff_getElem.mp hz
      rw [hf (j + 1) l[j] (by omega) (by simp [hj])]
    simp only [List.set_cons_zero, countP_cons_toNat, hl]
    omega
  | a :: l, i + 1, hx, hf => by
    simp only [List.getElem?_cons_succ] at hx
    have ih := countP_set_add (y := y) hx fun j z hj hz => hf (j + 1) z (by omega) (by simpa using hz)
    have ha : p' a = p a := hf 0 a (by omega) (by simp)
    simp only [List.set_cons_succ, countP_cons_toNat, ha]
    omega

/-- A sum over a list that is updated in place changes by the entry alone. -/
theorem sum_map_set_add {M : Type*} [AddCommMonoid M] (f : α → M) {x : α} (y : α) : ∀ {l : List α} {i : ℕ},
    l[i]? = some x → ((l.set i y).map f).sum + f x = (l.map f).sum + f y
  | [], _, hx => by simp at hx
  | a :: l, 0, hx => by
    simp only [List.getElem?_cons_zero, Option.some.injEq] at hx
    subst hx
    simp only [List.set_cons_zero, List.map_cons, List.sum_cons]
    abel
  | a :: l, i + 1, hx => by
    simp only [List.getElem?_cons_succ] at hx
    have ih := sum_map_set_add f y hx
    simp only [List.set_cons_succ, List.map_cons, List.sum_cons]
    rw [add_assoc, ih, add_assoc]

theorem le_sum_map (f : α → ℕ) {x : α} {l : List α} (hx : x ∈ l) : f x ≤ (l.map f).sum :=
  List.single_le_sum (fun _ _ => Nat.zero_le _) _ (List.mem_map_of_mem hx)

/-- Two different entries contribute both. -/
theorem add_le_sum_map (f : α → ℕ) {x y : α} : ∀ {l : List α} {i j : ℕ}, l[i]? = some x → l[j]? = some y → i ≠ j →
    f x + f y ≤ (l.map f).sum
  | [], _, _, hx, _, _ => by simp at hx
  | a :: l, 0, 0, _, _, hij => absurd rfl hij
  | a :: l, 0, j + 1, hx, hy, _ => by
    simp only [List.getElem?_cons_zero, Option.some.injEq, List.getElem?_cons_succ] at hx hy
    have := le_sum_map f (List.mem_of_getElem? hy)
    simp only [List.map_cons, List.sum_cons, hx]
    omega
  | a :: l, i + 1, 0, hx, hy, _ => by
    simp only [List.getElem?_cons_zero, Option.some.injEq, List.getElem?_cons_succ] at hx hy
    have := le_sum_map f (List.mem_of_getElem? hx)
    simp only [List.map_cons, List.sum_cons, hy]
    omega
  | a :: l, i + 1, j + 1, hx, hy, hij => by
    simp only [List.getElem?_cons_succ] at hx hy
    have := add_le_sum_map f hx hy (by omega)
    simp only [List.map_cons, List.sum_cons]
    omega

/-- A sum over a map changes by the entry whose value is replaced. -/
theorem sum_entries_insert_add {κ ν M : Type*} [DecidableEq κ] [AddCommMonoid M] (f : (Sigma fun _ : κ => ν) → M)
    {m : AList fun _ : κ => ν} {k : κ} {v : ν} (h : m.lookup k = some v) (v' : ν) :
    ((m.insert k v').entries.map f).sum + f ⟨k, v⟩ = (m.entries.map f).sum + f ⟨k, v'⟩ := by
  have hmem : k ∈ m.entries.keys := AList.mem_keys.mp (AList.lookup_isSome.mp (by rw [h]; rfl))
  obtain ⟨w, l₁, l₂, hl₁, hl, herase⟩ := List.exists_of_kerase hmem
  have hw : w = v := by
    have hlookup : m.lookup k = some w := AList.mem_lookup_iff.mpr (by rw [hl]; simp)
    exact Option.some.inj (hlookup.symm.trans h)
  subst hw
  have hentries : (m.insert k v').entries = ⟨k, v'⟩ :: List.kerase k m.entries := rfl
  rw [hentries, herase, hl]
  simp only [List.map_cons, List.map_append, List.sum_cons, List.sum_append]
  abel

/-- Two lists related entry by entry stay so if both are updated at one place. -/
theorem forall₂_set {β : Type*} {R : α → β → Prop} {x : α} {y : β} (hxy : R x y) :
    ∀ {l : List α} {l' : List β} (i : ℕ), List.Forall₂ R l l' → List.Forall₂ R (l.set i x) (l'.set i y)
  | _, _, _, .nil => .nil
  | _, _, 0, .cons _ h => .cons hxy h
  | _, _, i + 1, .cons ha h => .cons ha (forall₂_set hxy i h)

theorem forall₂_getElem? {β : Type*} {R : α → β → Prop} {x : α} : ∀ {l : List α} {l' : List β} {i : ℕ},
    List.Forall₂ R l l' → l[i]? = some x → ∃ y, l'[i]? = some y ∧ R x y
  | _, _, 0, .cons ha _, hx => by
    simp only [List.getElem?_cons_zero, Option.some.injEq] at hx
    exact ⟨_, rfl, hx ▸ ha⟩
  | _, _, _ + 1, .cons _ h, hx => by
    simp only [List.getElem?_cons_succ] at hx ⊢
    exact forall₂_getElem? h hx

/-- Two pairs of predicates that agree entry by entry agree in total. -/
theorem countP_add_congr {p q r u : α → Bool} : ∀ {l : List α},
    (∀ x ∈ l, (p x).toNat + (q x).toNat = (r x).toNat + (u x).toNat) →
    l.countP p + l.countP q = l.countP r + l.countP u
  | [], _ => rfl
  | a :: l, h => by
    have ih := countP_add_congr fun x hx => h x (List.mem_cons_of_mem _ hx)
    have ha := h a List.mem_cons_self
    simp only [countP_cons_toNat]
    omega

end Counting
