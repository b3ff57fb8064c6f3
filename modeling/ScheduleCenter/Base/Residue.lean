/-
# A reader that leaves on the stream what it could not read

Texts are written one after another to one stream, and after each of them a
reader reads from the stream. It reads a text to the end or stops with an
error, and what it then has not read is in front of the next text
(`Reader.outcomes`). So the outcome for a text may depend on the texts before
it. It does not, for these texts and whichever comes next, if and only if each
text that is an error leaves nothing but blanks (`Reader.outcomes_eq_map`,
`Reader.blank_of_outcomes`): in front of blanks the reader is as on a fresh
stream, and anything else spoils the text `probe`.

Key definitions: `Residue.Reader`, `Residue.Reader.outcomes`, `Residue.Reader.residue`.
Key theorems: `Residue.Reader.outcomes_eq_map`, `Residue.Reader.blank_of_outcomes`.
-/
import Mathlib.Data.List.Basic

namespace Residue

/-- A reader: its outcome (`none` is an error) and what it leaves unread. -/
structure Reader (α T : Type*) (blank : α → Bool) (probe : List α) where
  read : List α → Option T × List α
  /-- A text that is read is read to its end. -/
  read_all : ∀ s t, (read s).1 = some t → (read s).2 = []
  /-- An error leaves the text from some place on. -/
  read_suffix : ∀ s, (read s).2 <:+ s
  /-- Blanks in front of a text are skipped. -/
  read_blank : ∀ w s, (∀ c ∈ w, blank c) → read (w ++ s) = read s
  /-- `probe` is a text, and only blanks can stand in front of it. -/
  read_probe : ∀ s, (read (s ++ probe)).1.isSome ↔ ∀ c ∈ s, blank c

namespace Reader

variable {α T : Type*} {blank : α → Bool} {probe : List α} (R : Reader α T blank probe)

/-- The outcome for a text on a fresh stream. -/
def alone (p : List α) : Option T := (R.read p).1

/-- The outcomes for texts written one after another, from what is unread. -/
def outcomes : List α → List (List α) → List (Option T)
  | _, [] => []
  | rest, p :: ps => (R.read (rest ++ p)).1 :: outcomes (R.read (rest ++ p)).2 ps

/-- What is unread after the texts. -/
def residue : List α → List (List α) → List α
  | rest, [] => rest
  | rest, p :: ps => residue (R.read (rest ++ p)).2 ps

/-- What is unread was written, and nothing behind it was read. -/
theorem residue_suffix : ∀ (rest : List α) (ps : List (List α)), R.residue rest ps <:+ rest ++ ps.flatten
  | rest, [] => by simp [residue]
  | rest, p :: ps => by
    have hread : (R.read (rest ++ p)).2 ++ ps.flatten <:+ rest ++ p ++ ps.flatten := by
      obtain ⟨t, ht⟩ := R.read_suffix (rest ++ p)
      exact ⟨t, by rw [← List.append_assoc, ht]⟩
    rw [residue, List.flatten_cons, ← List.append_assoc]
    exact (residue_suffix _ ps).trans hread

/-- Texts that leave only blanks, and the one behind them, are read as alone. -/
theorem outcomes_eq_map {rest : List α} {ps : List (List α)} (hrest : ∀ c ∈ rest, blank c)
    (h : ∀ p ∈ ps, R.alone p = none → ∀ c ∈ (R.read p).2, blank c) (q : List α) :
    R.outcomes rest (ps ++ [q]) = (ps ++ [q]).map R.alone := by
  induction ps generalizing rest with
  | nil => simp [outcomes, alone, R.read_blank rest q hrest]
  | cons p ps ih =>
    have hp : ∀ c ∈ (R.read p).2, blank c := by
      rcases hout : (R.read p).1 with _ | t
      · exact h p List.mem_cons_self hout
      · rw [R.read_all p t hout]
        exact fun c hc => absurd hc List.not_mem_nil
    have htail := ih hp fun p' hp' => h p' (List.mem_cons_of_mem _ hp')
    rw [List.cons_append, outcomes, R.read_blank rest p hrest, htail]
    rfl

/-- If at each moment `probe` would be read as alone, each text leaves only
blanks. -/
theorem blank_of_outcomes {rest : List α} {ps : List (List α)} (hrest : ∀ c ∈ rest, blank c)
    (h : ∀ qs, qs <+: ps → R.outcomes rest (qs ++ [probe]) = (qs ++ [probe]).map R.alone) :
    ∀ p ∈ ps, ∀ c ∈ (R.read p).2, blank c := by
  induction ps generalizing rest with
  | nil => exact fun p hp => absurd hp List.not_mem_nil
  | cons p ps ih =>
    have hp : ∀ c ∈ (R.read p).2, blank c := by
      have hprobe := h [p] (List.prefix_append [p] ps)
      simp only [List.cons_append, List.nil_append, outcomes, R.read_blank rest p hrest, List.map_cons, List.map_nil,
        List.cons.injEq, and_true] at hprobe
      have hfresh := (R.read_probe []).mpr fun c hc => absurd hc List.not_mem_nil
      rw [← R.read_probe, hprobe.2]
      exact hfresh
    have htail : ∀ qs, qs <+: ps → R.outcomes (R.read p).2 (qs ++ [probe]) = (qs ++ [probe]).map R.alone := by
      intro qs hqs
      have := h (p :: qs) (List.cons_prefix_cons.mpr ⟨rfl, hqs⟩)
      rw [List.cons_append, outcomes, R.read_blank rest p hrest, List.map_cons] at this
      exact (List.cons.inj this).2
    intro p' hp'
    rcases List.mem_cons.mp hp' with rfl | hp'
    · exact hp
    · exact ih hp htail p' hp'

/-- The reader with its outcomes rewritten. -/
def map {T' : Type*} (f : T → T') : Reader α T' blank probe where
  read s := ((R.read s).1.map f, (R.read s).2)
  read_all s t h := by
    obtain ⟨t', ht', -⟩ := Option.map_eq_some_iff.mp h
    exact R.read_all s t' ht'
  read_suffix := R.read_suffix
  read_blank w s h := by rw [R.read_blank w s h]
  read_probe s := by rw [Option.isSome_map, R.read_probe]

end Reader
end Residue
