/-
# Walking through the keys of an ordered map

The iterator of an ordered map stands at a key or at the end; `++` takes it to
the least key that is greater, in the map as it is then. While the set of
keys stays the same, it passes every key once: `++` adds the key it stands at to
those behind it, and nothing else (`behind_next`), and comes nearer to the end
(`ahead_next`).

Key definitions: `OrderedKeys.first`, `OrderedKeys.next`, `OrderedKeys.Behind`, `OrderedKeys.ahead`.
Key theorems: `OrderedKeys.mem_of_next`, `OrderedKeys.not_behind_first`, `OrderedKeys.behind_next`,
`OrderedKeys.ahead_next`.
-/
import Mathlib.Data.List.MinMax

namespace OrderedKeys

variable {κ ω : Type*} [LinearOrder ω] (rank : κ → ω) (keys : List κ)

/-- `begin()`: the least key. -/
def first : Option κ := keys.argmin rank

/-- `++` at the key `c`: the least of the greater ones. -/
def next (c : κ) : Option κ := (keys.filter fun k => rank c < rank k).argmin rank

/-- The key `k` is behind the iterator: it is less than the one where it stands. -/
def Behind (it : Option κ) (k : κ) : Prop := k ∈ keys ∧ ∀ c ∈ it, rank k < rank c

variable {rank keys} {c d k : κ} {it : Option κ}

theorem mem_of_first (h : first rank keys = some c) : c ∈ keys := List.argmin_mem h

theorem mem_of_next (h : next rank keys c = some d) : d ∈ keys := List.mem_of_mem_filter (List.argmin_mem h)

/-- The least of some keys is not greater than any. -/
theorem rank_le_of_argmin {l : List κ} (hc : c ∈ l.argmin rank) (hk : k ∈ l) : rank c ≤ rank k :=
  List.le_of_mem_argmin hk hc

theorem not_behind_self : ¬ Behind rank keys (some c) c := fun h => lt_irrefl _ (h.2 c rfl)

theorem not_behind_first : ¬ Behind rank keys (first rank keys) k := by
  rintro ⟨hk, hlt⟩
  have hne : first rank keys ≠ none := fun h => List.ne_nil_of_mem hk (List.argmin_eq_none.mp h)
  obtain ⟨c, hc⟩ := Option.ne_none_iff_exists'.mp hne
  exact absurd (hlt c hc) (not_lt.mpr (rank_le_of_argmin hc hk))

theorem behind_congr {keys' : List κ} (h : ∀ k, k ∈ keys' ↔ k ∈ keys) : Behind rank keys' it k ↔ Behind rank keys it k :=
  and_congr_left fun _ => h k

/-- What is behind after `++` was not greater. -/
theorem behind_next_iff_le (hk : k ∈ keys) : Behind rank keys (next rank keys c) k ↔ rank k ≤ rank c := by
  have hfilter : k ∈ keys.filter (fun k => rank c < rank k) ↔ rank c < rank k := by simp [hk]
  constructor
  · rintro ⟨-, hlt⟩
    by_contra hgt
    have hmem := hfilter.mpr (not_le.mp hgt)
    have hne : next rank keys c ≠ none := fun h => List.ne_nil_of_mem hmem (List.argmin_eq_none.mp h)
    obtain ⟨d, hd⟩ := Option.ne_none_iff_exists'.mp hne
    exact absurd (hlt d hd) (not_lt.mpr (rank_le_of_argmin hd hmem))
  · intro hle
    refine ⟨hk, fun d hd => hle.trans_lt ?_⟩
    simpa using (List.mem_filter.mp (List.argmin_mem hd)).2

/-- **`++` passes one key.** -/
theorem behind_next (hrank : Function.Injective rank) (hc : c ∈ keys) :
    Behind rank keys (next rank keys c) k ↔ Behind rank keys (some c) k ∨ k = c := by
  by_cases hk : k ∈ keys
  · rw [behind_next_iff_le hk, le_iff_lt_or_eq, hrank.eq_iff]
    simp [Behind, hk]
  · have hne : k ≠ c := fun h => hk (h ▸ hc)
    simp [Behind, hk, hne]

/-! ### How far it is to the end -/

variable (rank keys) in
/-- How many keys are greater. -/
def ahead (c : κ) : ℕ := keys.countP fun k => rank c < rank k

/-- **`++` comes nearer to the end.** -/
theorem ahead_next (h : next rank keys c = some d) : ahead rank keys d < ahead rank keys c := by
  have hd : d ∈ keys.filter fun k => rank c < rank k := List.argmin_mem h
  have hlt : rank c < rank d := by simpa using (List.mem_filter.mp hd).2
  unfold ahead
  rw [List.countP_eq_length_filter, List.countP_eq_length_filter]
  calc (keys.filter fun k => rank d < rank k).length
      = ((keys.filter fun k => rank c < rank k).filter fun k => rank d < rank k).length := by
        rw [List.filter_filter]
        congr 1
        apply List.filter_congr
        intro k _
        by_cases hk : rank d < rank k
        · simp [hk, hlt.trans hk]
        · simp [hk]
    _ < (keys.filter fun k => rank c < rank k).length :=
        List.length_filter_lt_length_iff_exists.mpr ⟨d, hd, by simp⟩

theorem ahead_perm {keys' : List κ} (h : keys.Perm keys') : ahead rank keys c = ahead rank keys' c := h.countP_eq _

end OrderedKeys
