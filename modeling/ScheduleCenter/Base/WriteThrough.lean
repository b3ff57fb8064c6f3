/-
# A cache in front of a store

A cache and a store hold a value for each key. A change is made in the cache
first and is sent to the store then; the store may not get it, and nothing is
undone. From agreement, a change leads to agreement if and only if the store
gets it or it changes nothing (`agree_put_iff`).

A cache may also hold back what it has: a value is sent on only if the cache
has another one for the key. Then a store that has missed a value does not get
it when it is set again (`set_store_iff`). After a history of settings the cache
has the last value set, and the store the last one that was both a change and
sent (`cache_sets`, `store_sets`).

Key definitions: `WriteThrough.Pair`, `WriteThrough.Change`, `WriteThrough.Pair.put`,
`WriteThrough.Filter`, `WriteThrough.Filter.set`, `WriteThrough.changes`.
Key theorems: `WriteThrough.agree_put_iff`, `WriteThrough.Filter.set_store_iff`,
`WriteThrough.Filter.cache_sets`, `WriteThrough.Filter.store_sets`.
-/
import Mathlib.Logic.Function.Basic
import Mathlib.Data.List.Induction

namespace WriteThrough

variable {κ ν : Type*} [DecidableEq κ]

/-- A value for some of the keys. -/
abbrev Table (κ ν : Type*) := κ → Option ν

/-- The value under the key is changed, if there is one. -/
def Table.modify (t : Table κ ν) (k : κ) (f : ν → ν) : Table κ ν := Function.update t k ((t k).map f)

theorem Table.modify_self (t : Table κ ν) (k : κ) (f : ν → ν) : t.modify k f k = (t k).map f :=
  Function.update_self k _ t

theorem Table.modify_ne (t : Table κ ν) {k k' : κ} (f : ν → ν) (h : k' ≠ k) : t.modify k f k' = t k' :=
  Function.update_of_ne h _ t

theorem Table.modify_eq_self_iff {t : Table κ ν} {k : κ} {f : ν → ν} : t.modify k f = t ↔ (t k).map f = t k := by
  unfold Table.modify
  exact Function.update_eq_self_iff

structure Pair (κ ν : Type*) where
  cache : Table κ ν
  store : Table κ ν

/-- A change, and whether the store gets it. -/
structure Change (κ ν : Type*) where
  key : κ
  f : ν → ν
  stored : Bool

def Pair.put (p : Pair κ ν) (c : Change κ ν) : Pair κ ν where
  cache := p.cache.modify c.key c.f
  store := if c.stored then p.store.modify c.key c.f else p.store

def Pair.Agree (p : Pair κ ν) : Prop := p.cache = p.store

/-- The store gets the change, or there is nothing to get. -/
def Pair.Kept (p : Pair κ ν) (c : Change κ ν) : Prop := c.stored ∨ (p.cache c.key).map c.f = p.cache c.key

theorem agree_put_iff {p : Pair κ ν} (h : p.Agree) (c : Change κ ν) : (p.put c).Agree ↔ p.Kept c := by
  unfold Pair.Agree at h
  unfold Pair.Agree Pair.Kept Pair.put
  by_cases hc : c.stored
  · simp [hc, h]
  · simp only [hc, Bool.false_eq_true, if_false, false_or, ← h]
    exact Table.modify_eq_self_iff

/-! ### A cache that holds back -/

/-- A cache with a value for every key, and a store. -/
structure Filter (κ ν : Type*) where
  cache : κ → ν
  store : Table κ ν

namespace Filter

/-- A value is set; `sent` if the store gets what the cache does not hold back. -/
def set [DecidableEq ν] (p : Filter κ ν) (k : κ) (v : ν) (sent : Bool) : Filter κ ν :=
  if p.cache k = v then p
  else ⟨Function.update p.cache k v, if sent then Function.update p.store k (some v) else p.store⟩

variable [DecidableEq ν] {p : Filter κ ν} {k : κ} {v : ν}

theorem set_of_eq (h : p.cache k = v) (sent : Bool) : p.set k v sent = p := if_pos h

theorem set_of_ne (h : p.cache k ≠ v) (sent : Bool) :
    p.set k v sent = ⟨Function.update p.cache k v, if sent then Function.update p.store k (some v) else p.store⟩ :=
  if_neg h

theorem store_set_of_ne (h : p.cache k ≠ v) (sent : Bool) :
    (p.set k v sent).store = if sent then Function.update p.store k (some v) else p.store := by
  rw [set_of_ne h]

/-- If nothing is lost on the way, the store has the value if and only if it
had it where the cache holds it back. -/
theorem set_store_iff (sent : Bool) (h : p.cache k = v ∨ sent) :
    (p.set k v sent).store = Function.update p.store k (some v) ↔ (p.cache k = v → p.store k = some v) := by
  by_cases hk : p.cache k = v
  · rw [set_of_eq hk, forall_prop_of_true hk, eq_comm, Function.update_eq_self_iff, eq_comm]
  · rw [set_of_ne hk, if_pos (h.resolve_left hk)]
    exact iff_of_true rfl fun heq => absurd heq hk

end Filter

/-! ### A history of settings -/

/-- A value is set, and whether it is sent if it is not held back. -/
structure Setting (κ ν : Type*) where
  key : κ
  value : ν
  sent : Bool

/-- The value set last. -/
def lastValue (h : List (Setting κ ν)) : Option ν := h.getLast?.map (·.value)

omit [DecidableEq κ] in
theorem lastValue_cons (c : Setting κ ν) (h : List (Setting κ ν)) :
    lastValue (c :: h) = some ((lastValue h).getD c.value) := by
  rcases hlast : h.getLast? with _ | d
  · simp [lastValue, List.getLast?_cons, hlast]
  · simp [lastValue, List.getLast?_cons, hlast]

omit [DecidableEq κ] in
theorem lastValue_concat (h : List (Setting κ ν)) (c : Setting κ ν) : lastValue (h ++ [c]) = some c.value := by
  simp [lastValue]

variable [DecidableEq ν]

/-- The settings of a key that change it, from a value on. -/
def changes (k : κ) : ν → List (Setting κ ν) → List (Setting κ ν)
  | _, [] => []
  | v, c :: h => if c.key = k ∧ c.value ≠ v then c :: changes k c.value h else changes k v h

/-- The last setting is a change if the one of the key before it had another value. -/
theorem changes_concat (k : κ) (c : Setting κ ν) : ∀ (v : ν) (h : List (Setting κ ν)),
    changes k v (h ++ [c]) = changes k v h ++
      if c.key = k ∧ c.value ≠ (lastValue (h.filter (·.key = k))).getD v then [c] else []
  | _, [] => rfl
  | v, d :: h => by
    have ih := fun v => changes_concat k c v h
    simp only [List.cons_append, changes]
    by_cases hd : d.key = k
    · rw [List.filter_cons_of_pos (by simpa using hd), lastValue_cons, Option.getD_some]
      by_cases hv : d.value = v
      · rw [if_neg (by simp [hv]), if_neg (by simp [hv]), ih, hv]
      · rw [if_pos ⟨hd, hv⟩, if_pos ⟨hd, hv⟩, ih, List.cons_append]
    · rw [List.filter_cons_of_neg (by simpa using hd), if_neg (by simp [hd]), if_neg (by simp [hd]), ih]

namespace Filter

variable (p : Filter κ ν)

/-- One setting after another. -/
def sets (h : List (Setting κ ν)) : Filter κ ν := h.foldl (fun p c => p.set c.key c.value c.sent) p

theorem sets_concat (h : List (Setting κ ν)) (c : Setting κ ν) :
    p.sets (h ++ [c]) = (p.sets h).set c.key c.value c.sent := by
  simp [sets]

/-- The cache has what was set last. -/
theorem cache_sets (h : List (Setting κ ν)) (k : κ) :
    (p.sets h).cache k = (lastValue (h.filter (·.key = k))).getD (p.cache k) := by
  induction h using List.reverseRecOn with
  | nil => rfl
  | append_singleton h c ih =>
    have hset : ∀ q : Filter κ ν, (q.set c.key c.value c.sent).cache = Function.update q.cache c.key c.value := by
      intro q
      by_cases hq : q.cache c.key = c.value
      · rw [set_of_eq hq, ← hq, Function.update_eq_self]
      · rw [set_of_ne hq]
    rw [sets_concat, hset, List.filter_append]
    by_cases hc : c.key = k
    · subst hc
      rw [Function.update_self, List.filter_cons_of_pos (by simp), List.filter_nil, lastValue_concat, Option.getD_some]
    · rw [Function.update_of_ne (Ne.symm hc), ih, List.filter_cons_of_neg (by simpa using hc), List.filter_nil,
        List.append_nil]

/-- The store has the last change that was sent, or what it had. -/
theorem store_sets (h : List (Setting κ ν)) (k : κ) :
    (p.sets h).store k = (lastValue ((changes k (p.cache k) h).filter (·.sent))).or (p.store k) := by
  induction h using List.reverseRecOn with
  | nil => rfl
  | append_singleton h c ih =>
    rw [sets_concat, changes_concat, ← cache_sets]
    by_cases hheld : (p.sets h).cache c.key = c.value
    · -- held back: no change, and nothing is sent
      have hno : ¬ (c.key = k ∧ c.value ≠ (p.sets h).cache k) := by
        rintro ⟨rfl, hne⟩
        exact hne hheld.symm
      rw [set_of_eq hheld, if_neg hno, List.append_nil, ih]
    · rw [store_set_of_ne hheld]
      by_cases hc : c.key = k
      · subst hc
        have hchange : c.key = c.key ∧ c.value ≠ (p.sets h).cache c.key := ⟨rfl, Ne.symm hheld⟩
        rw [if_pos hchange, List.filter_append]
        by_cases hsent : c.sent = true
        · rw [if_pos hsent, Function.update_self, List.filter_cons_of_pos (by simpa using hsent), List.filter_nil,
            lastValue_concat, Option.some_or]
        · rw [if_neg hsent, ih, List.filter_cons_of_neg (by simpa using hsent), List.filter_nil, List.append_nil]
      · have hother : ¬ (c.key = k ∧ c.value ≠ (p.sets h).cache k) := fun hchange => hc hchange.1
        rw [if_neg hother, List.append_nil, ← ih]
        by_cases hsent : c.sent = true
        · rw [if_pos hsent, Function.update_of_ne (Ne.symm hc)]
        · rw [if_neg hsent]

end Filter

end WriteThrough
