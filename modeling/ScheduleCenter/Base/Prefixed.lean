/-
# Messages behind their lengths

A stream of messages, each behind a header of fixed width that holds its
length. The reader takes a message when the header and as much as it says are
there (`parse`), wherever the bytes were cut on their way: from a stream of
whole messages it gets these messages (`parse_stream`), and from a part of one a
prefix of them (`parse_take`). If each message is written once, and maybe not
to its end, the reader gets the messages if and only if all were written to
their ends (`parse_cut_iff`): what is missing of one is taken from the next.

Key definitions: `Prefixed.Header`, `Header.frame`, `Header.parse`, `Header.cut`.
Key theorems: `parse_stream`, `parse_mono`, `parse_take`, `length_parse`, `parse_cut_iff`.
-/
import Mathlib.Algebra.Order.BigOperators.Group.List
import Mathlib.Algebra.Order.Group.Nat
import Mathlib.Algebra.Order.Ring.Nat
import Mathlib.Algebra.GroupWithZero.Nat
import Mathlib.Tactic.Common

namespace Prefixed

/-- A header of fixed width for the lengths below `limit`. -/
structure Header (β : Type*) where
  width : ℕ
  write : ℕ → List β
  read : List β → ℕ
  limit : ℕ
  width_pos : 0 < width
  length_write : ∀ n, (write n).length = width
  read_write : ∀ n, n < limit → read (write n) = n
  /-- The header is read from its own bytes. -/
  read_append : ∀ b c, width ≤ b.length → read (b ++ c) = read b

namespace Header

variable {β : Type*} (H : Header β)

def frame (m : List β) : List β := H.write m.length ++ m

def size (m : List β) : ℕ := H.width + m.length

def stream (ms : List (List β)) : List β := (ms.map H.frame).flatten

/-- The messages that are there, and the bytes behind them. -/
def parse (b : List β) : List (List β) × List β :=
  if b.length < H.width + H.read b then ([], b)
  else ((b.drop H.width).take (H.read b) :: (parse (b.drop (H.width + H.read b))).1,
    (parse (b.drop (H.width + H.read b))).2)
termination_by b.length
decreasing_by
  all_goals
    have := H.width_pos
    simp only [List.length_drop]
    omega

@[simp]
theorem length_frame (m : List β) : (H.frame m).length = H.size m := by
  rw [frame, List.length_append, H.length_write, size]

@[simp]
theorem stream_cons (m : List β) (ms : List (List β)) : H.stream (m :: ms) = H.frame m ++ H.stream ms := rfl

theorem parse_short {b : List β} (h : b.length < H.width + H.read b) : H.parse b = ([], b) := by
  rw [parse, if_pos h]

theorem parse_long {b : List β} (h : H.width + H.read b ≤ b.length) :
    H.parse b = ((b.drop H.width).take (H.read b) :: (H.parse (b.drop (H.width + H.read b))).1,
      (H.parse (b.drop (H.width + H.read b))).2) := by
  rw [parse, if_neg (by omega)]

@[simp]
theorem parse_nil : H.parse [] = ([], []) := H.parse_short (Nat.add_pos_left H.width_pos _)

/-- A whole message is taken. -/
theorem parse_frame {m : List β} (hm : m.length < H.limit) (b : List β) :
    H.parse (H.frame m ++ b) = (m :: (H.parse b).1, (H.parse b).2) := by
  have hread : H.read (H.frame m ++ b) = m.length := by
    rw [frame, List.append_assoc, H.read_append _ _ (H.length_write _).ge, H.read_write _ hm]
  have hlen : (H.frame m ++ b).length = H.width + m.length + b.length := by
    rw [List.length_append, length_frame, size]
  have hmsg : (H.frame m ++ b).drop H.width = m ++ b := by
    rw [frame, List.append_assoc, List.drop_left' (H.length_write _)]
  have hrest : (H.frame m ++ b).drop (H.width + m.length) = b := List.drop_left' (H.length_frame m)
  rw [H.parse_long (by rw [hread, hlen]; omega), hread, hmsg, hrest, List.take_left]

/-- **Round trip.** -/
theorem parse_stream_append : ∀ {ms : List (List β)}, (∀ m ∈ ms, m.length < H.limit) → ∀ b : List β,
    H.parse (H.stream ms ++ b) = (ms ++ (H.parse b).1, (H.parse b).2)
  | [], _, b => rfl
  | m :: ms, h, b => by
    rw [stream_cons, List.append_assoc, H.parse_frame (h m List.mem_cons_self),
      parse_stream_append (fun m' hm' => h m' (List.mem_cons_of_mem m hm')) b]
    rfl

theorem parse_stream {ms : List (List β)} (h : ∀ m ∈ ms, m.length < H.limit) :
    H.parse (H.stream ms) = (ms, []) := by
  have hparse := H.parse_stream_append h []
  rwa [List.append_nil, parse_nil, List.append_nil] at hparse

/-- More bytes do not change the messages that are there. -/
theorem parse_mono (b c : List β) : (H.parse b).1 <+: (H.parse (b ++ c)).1 := by
  induction b using Header.parse.induct (H := H) with
  | case1 b hshort =>
    rw [H.parse_short hshort]
    exact List.nil_prefix
  | case2 b hlong ih =>
    have hle : H.width + H.read b ≤ b.length := by omega
    have hread : H.read (b ++ c) = H.read b := H.read_append b c (by omega)
    rw [H.parse_long hle, H.parse_long (b := b ++ c) (by rw [hread, List.length_append]; omega), hread,
      List.drop_append_of_le_length (by omega : H.width ≤ b.length), List.drop_append_of_le_length hle,
      List.take_append_of_le_length (by rw [List.length_drop]; omega)]
    exact (List.prefix_cons_inj _).mpr ih

/-- Of a part of a stream the reader gets a prefix of the messages. -/
theorem parse_take {ms : List (List β)} (h : ∀ m ∈ ms, m.length < H.limit) (k : ℕ) :
    (H.parse ((H.stream ms).take k)).1 <+: ms := by
  have hmono := H.parse_mono ((H.stream ms).take k) ((H.stream ms).drop k)
  rwa [List.take_append_drop, H.parse_stream h] at hmono

/-- All bytes are in the messages or behind them. -/
theorem length_parse (b : List β) : ((H.parse b).1.map H.size).sum + (H.parse b).2.length = b.length := by
  induction b using Header.parse.induct (H := H) with
  | case1 b hshort =>
    rw [H.parse_short hshort]
    simp
  | case2 b hlong ih =>
    rw [H.parse_long (by omega)]
    simp only [List.length_drop] at ih
    simp only [List.map_cons, List.sum_cons, size, List.length_take, List.length_drop] at ih ⊢
    omega

/-! ### Writes that stop short -/

/-- What is written: of each message the first bytes, as many as its write says. -/
def cut (ws : List (List β × ℕ)) : List β := (ws.map fun w => (H.frame w.1).take w.2).flatten

theorem cut_append (ws ws' : List (List β × ℕ)) : H.cut (ws ++ ws') = H.cut ws ++ H.cut ws' := by
  simp [cut]

theorem length_cut : ∀ {ws : List (List β × ℕ)}, (∀ w ∈ ws, w.2 ≤ H.size w.1) →
    (H.cut ws).length = (ws.map (·.2)).sum
  | [], _ => rfl
  | w :: ws, h => by
    have ih := length_cut fun w' hw' => h w' (List.mem_cons_of_mem w hw')
    have hw := h w List.mem_cons_self
    simp only [cut, List.map_cons, List.flatten_cons, List.length_append, List.length_take, length_frame,
      List.sum_cons] at ih ⊢
    omega

theorem cut_eq_stream {ws : List (List β × ℕ)} (h : ∀ w ∈ ws, w.2 = H.size w.1) :
    H.cut ws = H.stream (ws.map (·.1)) := by
  unfold cut stream
  rw [List.map_map]
  congr 1
  refine List.map_congr_left fun w hw => ?_
  rw [h w hw, ← length_frame, List.take_length]
  rfl

/-- **The reader gets the messages if and only if every write got to the end.** -/
theorem parse_cut_iff {ws : List (List β × ℕ)} (hlimit : ∀ w ∈ ws, w.1.length < H.limit)
    (hle : ∀ w ∈ ws, w.2 ≤ H.size w.1) :
    (H.parse (H.cut ws)).1 = ws.map (·.1) ↔ ∀ w ∈ ws, w.2 = H.size w.1 := by
  constructor
  · intro h w hw
    by_contra hne
    -- the messages take more bytes than were written
    have hlt : (ws.map (·.2)).sum < (ws.map fun w => H.size w.1).sum :=
      List.sum_lt_sum _ _ hle ⟨w, hw, lt_of_le_of_ne (hle w hw) hne⟩
    have hbytes := H.length_parse (H.cut ws)
    rw [h, H.length_cut hle, List.map_map] at hbytes
    have heq : ((ws.map (H.size ∘ fun w => w.1)).sum) = (ws.map fun w => H.size w.1).sum := rfl
    omega
  · intro h
    rw [H.cut_eq_stream h, H.parse_stream]
    intro m hm
    obtain ⟨w, hw, rfl⟩ := List.mem_map.mp hm
    exact hlimit w hw

end Header
end Prefixed
