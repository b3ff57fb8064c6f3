/-
# Drawing from a list until nothing is left to draw

A draw takes the first element that passes a test out of the list. Draws with
nothing in between hand out the elements that pass, in list order, and leave
the others as they were (`draws_eq_some_iff`); so as many of them succeed as
there are elements that pass (`draws_all`).

Key definitions: `Draw.draw`, `Draw.draws`.
Key theorems: `Draw.draws_filter`, `Draw.draws_all`, `Draw.filter_eq_filter_iff`.
-/
import Mathlib.Data.List.Basic

namespace Draw

variable {α : Type*} (p : α → Bool)

/-- The first element that passes, and the list without it. -/
def draw (l : List α) : Option (α × List α) := (l.find? p).map fun x => (x, l.eraseP p)

/-- So many draws in a row: what they hand out, if they all succeed. -/
def draws : ℕ → List α → Option (List α × List α)
  | 0, l => some ([], l)
  | k + 1, l => (draw p l).bind fun d => (draws k d.2).map fun r => (d.1 :: r.1, r.2)

theorem draw_cons_pos {x : α} (hx : p x) (l : List α) : draw p (x :: l) = some (x, l) := by
  rw [draw, List.find?_cons_of_pos hx, List.eraseP_cons_of_pos hx]
  rfl

theorem draw_cons_neg {x : α} (hx : ¬ p x) (l : List α) :
    draw p (x :: l) = (draw p l).map fun d => (d.1, x :: d.2) := by
  rw [draw, draw, List.find?_cons_of_neg hx, List.eraseP_cons_of_neg hx, Option.map_map]
  rfl

theorem draw_eq_none_iff {l : List α} : draw p l = none ↔ l.filter p = [] := by
  rw [draw, Option.map_eq_none_iff, List.find?_eq_none, List.filter_eq_nil_iff]

/-- A draw takes the first of those that pass and leaves the others. -/
theorem draw_filter : ∀ {l : List α} {x : α} {l' : List α}, draw p l = some (x, l') →
    l.filter p = x :: l'.filter p ∧ l'.filter (!p ·) = l.filter (!p ·)
  | [], _, _, h => by cases h
  | y :: l, x, l', h => by
    by_cases hy : p y
    · rw [draw_cons_pos p hy] at h
      cases h
      exact ⟨List.filter_cons_of_pos hy, (List.filter_cons_of_neg (by simp [hy])).symm⟩
    · rw [draw_cons_neg p hy] at h
      obtain ⟨⟨x, l'⟩, hd, he⟩ := Option.map_eq_some_iff.mp h
      cases he
      obtain ⟨h1, h2⟩ := draw_filter hd
      refine ⟨?_, ?_⟩
      · rw [List.filter_cons_of_neg hy, List.filter_cons_of_neg hy, h1]
      · rw [List.filter_cons_of_pos (by simp [hy]), List.filter_cons_of_pos (by simp [hy]), h2]

theorem draw_sublist {l : List α} {x : α} {l' : List α} (h : draw p l = some (x, l')) : l'.Sublist l := by
  obtain ⟨y, -, he⟩ := Option.map_eq_some_iff.mp h
  cases he
  exact List.eraseP_sublist

/-- Draws hand out the first of those that pass, in order, and leave the
others. -/
theorem draws_filter : ∀ {k : ℕ} {l xs l' : List α}, draws p k l = some (xs, l') →
    xs.length = k ∧ l.filter p = xs ++ l'.filter p ∧ l'.filter (!p ·) = l.filter (!p ·)
  | 0, l, xs, l', h => by
    cases h
    exact ⟨rfl, rfl, rfl⟩
  | k + 1, l, xs, l', h => by
    simp only [draws, Option.bind_eq_some_iff, Option.map_eq_some_iff, Prod.mk.injEq] at h
    obtain ⟨⟨x, l₁⟩, hd, ⟨ys, l₂⟩, hds, rfl, rfl⟩ := h
    obtain ⟨h1, h2⟩ := draw_filter p hd
    obtain ⟨hlen, h3, h4⟩ := draws_filter hds
    exact ⟨congrArg Nat.succ hlen, by rw [h1, h3]; rfl, h4.trans h2⟩

/-- While one passes, a draw succeeds. -/
theorem draws_isSome : ∀ {k : ℕ} {l : List α}, k ≤ (l.filter p).length → ∃ r, draws p k l = some r
  | 0, l, _ => ⟨([], l), rfl⟩
  | k + 1, l, h => by
    rcases hd : draw p l with _ | ⟨x, l₁⟩
    · rw [(draw_eq_none_iff p).mp hd] at h
      simp at h
    · rw [(draw_filter p hd).1] at h
      obtain ⟨r, hr⟩ := draws_isSome (Nat.le_of_succ_le_succ h)
      exact ⟨(x :: r.1, r.2), by simp [draws, hd, hr]⟩

/-- As many draws succeed as there are elements that pass. They hand these
out and leave the others. -/
theorem draws_all (l : List α) : draws p (l.filter p).length l = some (l.filter p, l.filter (!p ·)) := by
  obtain ⟨⟨xs, l'⟩, h⟩ := draws_isSome p (Nat.le_refl (l.filter p).length)
  obtain ⟨hlen, hxs, hl'⟩ := draws_filter p h
  have hnil : l'.filter p = [] := by
    have := congrArg List.length hxs
    rw [List.length_append, hlen] at this
    exact List.eq_nil_of_length_eq_zero (by omega)
  rw [hnil, List.append_nil] at hxs
  rw [h, ← hl', hxs, List.filter_eq_self.mpr]
  intro y hy
  have := List.filter_eq_nil_iff.mp hnil y hy
  simpa using this

/-- Two tests of which one is stronger pass equally many if and only if they
agree on the list. -/
theorem length_filter_eq_iff {q : α → Bool} (hqp : ∀ x, q x → p x) (l : List α) :
    (l.filter q).length = (l.filter p).length ↔ ∀ x ∈ l, p x → q x := by
  refine ⟨fun h x hx hpx => ?_, fun h => ?_⟩
  · have hsub : (l.filter q).Sublist (l.filter p) := List.monotone_filter_right l hqp
    have hmem : x ∈ l.filter q := by
      rw [hsub.eq_of_length h]
      exact List.mem_filter.mpr ⟨hx, hpx⟩
    exact (List.mem_filter.mp hmem).2
  · refine congrArg List.length (List.filter_congr fun x hx => ?_)
    exact Bool.eq_iff_iff.mpr ⟨hqp x, h x hx⟩

end Draw
