/-
# A receiver that decodes once per read

A receiver reads a byte stream into a buffer of fixed size that it uses again
for each read: a read overwrites the start of the buffer and leaves the rest
(`fill`). After each read it decodes from the start of the buffer, whatever
the number of bytes that came (`deliver`). How the stream is cut into reads is
not its choice. For a wire format in which the last byte of a frame matters
and so does one byte at a fixed place (`Codec`), the receiver gets every
sequence of messages of given sizes right if and only if each read returns
exactly one frame (`Codec.deliver_iff`): a shorter read decodes before the
frame is there, a longer one loses the start of the next.

Key definitions: `Reads.fill`, `Reads.deliver`, `Reads.Codec`.
Key theorems: `Reads.Codec.deliver_frames`, `Reads.Codec.deliver_iff`.
-/
import Mathlib.Data.List.SplitLengths
import Mathlib.Algebra.BigOperators.Group.List.Basic
import Mathlib.Algebra.GroupWithZero.Nat
import Mathlib.Tactic.Common

namespace Reads

variable {β μ π : Type*} {N : ℕ}

/-- A read overwrites the start of the buffer. -/
def fill (buf ch : List β) : List β := ch ++ buf.drop ch.length

/-- What the receiver decodes, one content per read; the reads are numbered
from `k`. -/
def deliver (decode : ℕ → List β → Option π) : ℕ → List β → List (List β) → List (Option π)
  | _, _, [] => []
  | k, buf, ch :: chs => decode k (fill buf ch) :: deliver decode (k + 1) (fill buf ch) chs

theorem fill_length {buf ch : List β} (h : ch.length ≤ buf.length) : (fill buf ch).length = buf.length := by
  simp only [fill, List.length_append, List.length_drop]
  omega

theorem fill_getElem? (buf ch : List β) (i : ℕ) :
    (fill buf ch)[i]? = if i < ch.length then ch[i]? else buf[i]? := by
  rw [fill, List.getElem?_append, List.getElem?_drop]
  split_ifs with h
  · rfl
  · congr 1
    omega

@[simp] theorem deliver_length (decode : ℕ → List β → Option π) : ∀ (chs : List (List β)) (k : ℕ) (buf : List β),
    (deliver decode k buf chs).length = chs.length
  | [], _, _ => rfl
  | _ :: chs, _, _ => by simp [deliver, deliver_length decode chs]

/-- A wire format and a receiver with a buffer of `N` bytes. What is decoded
may depend on the number of the read: a receiver may look behind its buffer. -/
structure Codec (β μ π : Type*) (N : ℕ) where
  encode : μ → List β
  content : μ → π
  decode : ℕ → List β → Option π
  /-- A place in the frame whose byte the content determines. -/
  key : ℕ
  encode_length_le : ∀ m, (encode m).length ≤ N
  key_lt : ∀ m, key < (encode m).length
  /-- A buffer that starts with a frame decodes to it. -/
  decode_encode : ∀ k m b, b.length = N → encode m <+: b → decode k b = some (content m)
  decode_key : ∀ k m b, b.length = N → decode k b = some (content m) → b[key]? = (encode m)[key]?
  /-- Two messages may differ in the last byte alone. -/
  exists_last : ∀ m, ∃ m', (encode m').length = (encode m).length ∧ (encode m').dropLast = (encode m).dropLast ∧
    content m' ≠ content m
  /-- Two messages may differ in the byte at `key` alone. -/
  exists_key : ∀ m, ∃ m', (encode m').length = (encode m).length ∧
    (∀ i, i ≠ key → (encode m')[i]? = (encode m)[i]?) ∧ (encode m')[key]? ≠ (encode m)[key]?

namespace Codec

variable (C : Codec β μ π N)

/-- The number of bytes of a message on the wire. -/
def size (m : μ) : ℕ := (C.encode m).length

/-- The bytes of a sequence of messages. -/
def stream (ms : List μ) : List β := (ms.map C.encode).flatten

/-- What the receiver makes of `ms` if its reads return `cs` bytes. -/
def received (k : ℕ) (buf : List β) (cs : List ℕ) (ms : List μ) : List (Option π) :=
  deliver C.decode k buf (cs.splitLengths (C.stream ms))

theorem size_pos (m : μ) : 0 < C.size m := Nat.zero_lt_of_lt (C.key_lt m)

@[simp] theorem stream_cons (m : μ) (ms : List μ) : C.stream (m :: ms) = C.encode m ++ C.stream ms := rfl

theorem length_stream (ms : List μ) : (C.stream ms).length = (ms.map C.size).sum := by
  simp only [stream, List.length_flatten, List.map_map]
  rfl

theorem splitLengths_stream : ∀ ms : List μ, (ms.map C.size).splitLengths (C.stream ms) = ms.map C.encode
  | [] => rfl
  | m :: ms => by
    simp only [List.map_cons, List.splitLengths_cons, stream_cons, size, List.take_left, List.drop_left]
    exact congrArg _ (splitLengths_stream ms)

/-- If each read returns one frame, the messages arrive. -/
theorem deliver_frames : ∀ (ms : List μ) (k : ℕ) {buf : List β}, buf.length = N →
    deliver C.decode k buf (ms.map C.encode) = ms.map fun m => some (C.content m)
  | [], _, _, _ => rfl
  | m :: ms, k, buf, hbuf => by
    have hlen : (fill buf (C.encode m)).length = N := by
      rw [fill_length (by rw [hbuf]; exact C.encode_length_le m), hbuf]
    simp only [List.map_cons, deliver]
    rw [C.decode_encode k m _ hlen (List.prefix_append _ _), deliver_frames ms (k + 1) hlen]

variable {C} {k : ℕ} {buf : List β} {m : μ} {ms : List μ}

/-- A read that returns less than the frame does not see its last byte. -/
theorem not_received_of_lt (k : ℕ) (buf : List β) (ms : List μ) {c : ℕ} (cs : List ℕ) (hc : c < C.size m) :
    ∃ m', C.size m' = C.size m ∧
      ¬ (C.received k buf (c :: cs) (m :: ms) = (m :: ms).map (fun m => some (C.content m)) ∧
        C.received k buf (c :: cs) (m' :: ms) = (m' :: ms).map fun m => some (C.content m)) := by
  obtain ⟨m', hlen, hlast, hne⟩ := C.exists_last m
  refine ⟨m', hlen, fun ⟨h, h'⟩ => hne ?_⟩
  have htake : ∀ n : μ, c < C.size n → (C.stream (n :: ms)).take c = (C.encode n).dropLast.take c := by
    intro n hn
    have hle : c ≤ (C.encode n).length := Nat.le_of_lt hn
    rw [stream_cons, List.take_append_of_le_length hle, List.dropLast_eq_take, List.take_take]
    congr 1
    unfold size at hn
    omega
  simp only [received, List.splitLengths_cons, deliver, List.map_cons, List.cons.injEq] at h h'
  rw [htake m hc] at h
  rw [htake m' (by unfold size at hc ⊢; omega), hlast] at h'
  exact Option.some.inj (h'.1.symm.trans h.1)

/-- The byte at `key` after two reads, the first of more than `key` bytes, is
one of two bytes of the stream. -/
theorem fill_fill_key (buf : List β) {s : List β} {c i : ℕ} (c₂ : ℕ) (hi : i < c) (hc : c ≤ s.length) :
    (fill (fill buf (s.take c)) ((s.drop c).take c₂))[i]? = s[c + i]? ∧ i < min c₂ (s.length - c) ∨
      (fill (fill buf (s.take c)) ((s.drop c).take c₂))[i]? = s[i]? ∧ ¬ i < min c₂ (s.length - c) := by
  have hlen : ((s.drop c).take c₂).length = min c₂ (s.length - c) := by simp
  rw [fill_getElem?, hlen]
  split_ifs with h
  · left
    refine ⟨?_, h⟩
    rw [List.getElem?_take_of_lt (by omega), List.getElem?_drop]
  · right
    refine ⟨?_, h⟩
    rw [fill_getElem?, if_pos (by simp; omega), List.getElem?_take_of_lt hi]

/-- Streams that differ in the message `m₁` behind `m`, and there at `key`
alone, agree everywhere else. -/
theorem stream_getElem?_congr {m₁ m₁' : μ} (hlen : C.size m₁' = C.size m₁)
    (hkey : ∀ i, i ≠ C.key → (C.encode m₁')[i]? = (C.encode m₁)[i]?) {j : ℕ} (hj : j ≠ C.size m + C.key) :
    (C.stream (m :: m₁' :: ms))[j]? = (C.stream (m :: m₁ :: ms))[j]? := by
  unfold size at hlen hj
  simp only [stream_cons, List.getElem?_append, hlen]
  split_ifs
  · rfl
  · exact hkey _ (by omega)
  · rfl

/-- A read that returns more than the frame takes the start of the next one,
which the next decode then misses. -/
theorem not_received_of_gt (k : ℕ) {m₁ : μ} {c c₂ : ℕ} (cs : List ℕ) (hbuf : buf.length = N) (hc : C.size m < c)
    (hcN : c ≤ N) (hc₂ : c₂ ≤ N) (hsum : c ≤ (C.stream (m :: m₁ :: ms)).length) :
    ∃ m₁', C.size m₁' = C.size m₁ ∧
      ¬ (C.received k buf (c :: c₂ :: cs) (m :: m₁ :: ms) = (m :: m₁ :: ms).map (fun m => some (C.content m)) ∧
        C.received k buf (c :: c₂ :: cs) (m :: m₁' :: ms) =
          (m :: m₁' :: ms).map fun m => some (C.content m)) := by
  obtain ⟨m₁', hlen, hkey, hne⟩ := C.exists_key m₁
  refine ⟨m₁', hlen, fun ⟨h, h'⟩ => hne ?_⟩
  have hstream : (C.stream (m :: m₁' :: ms)).length = (C.stream (m :: m₁ :: ms)).length := by
    simp [hlen]
  have hk : C.key < c := by
    have := C.key_lt m
    unfold size at hc
    omega
  have hbound : ∀ s : List β, (fill (fill buf (s.take c)) ((s.drop c).take c₂)).length = N := by
    intro s
    have h₁ : (fill buf (s.take c)).length = N := by
      rw [fill_length (by simp; omega), hbuf]
    rw [fill_length (by simp; omega), h₁]
  simp only [received, List.splitLengths_cons, deliver, List.map_cons, List.cons.injEq] at h h'
  have hb := C.decode_key _ _ _ (hbound _) h.2.1
  have hb' := C.decode_key _ _ _ (hbound _) h'.2.1
  rw [← hb, ← hb']
  -- neither of the two bytes is the one at `key` in the frame of `m₁`
  have hagree : ∀ j, j ≠ C.size m + C.key →
      (C.stream (m :: m₁' :: ms))[j]? = (C.stream (m :: m₁ :: ms))[j]? :=
    fun j hj => stream_getElem?_congr hlen hkey hj
  have hpos := C.size_pos m
  rcases fill_fill_key buf c₂ hk hsum with ⟨he, hlt⟩ | ⟨he, hge⟩
  all_goals rcases fill_fill_key buf c₂ hk (hstream ▸ hsum) with ⟨he', hlt'⟩ | ⟨he', hge'⟩
  · rw [he, he', hagree _ (by omega)]
  · exact absurd (hstream ▸ hlt) hge'
  · exact absurd (hstream ▸ hlt') hge
  · rw [he, he', hagree _ (by omega)]

/-- A read that returns the frame delivers its message, whatever comes behind. -/
theorem received_size_cons (hbuf : buf.length = N) (cs : List ℕ) (m : μ) (ms : List μ) :
    C.received k buf (C.size m :: cs) (m :: ms) =
      some (C.content m) :: C.received (k + 1) (fill buf (C.encode m)) cs ms := by
  have hlen : (fill buf (C.encode m)).length = N := by
    rw [fill_length (by rw [hbuf]; exact C.encode_length_le m), hbuf]
  simp only [received, List.splitLengths_cons, stream_cons, deliver, size, List.take_left, List.drop_left]
  rw [C.decode_encode k m _ hlen (List.prefix_append _ _)]

/-- If all messages of the given sizes arrive, each read returns one frame. -/
theorem eq_sizes_of_received {ms₀ : List μ} {cs : List ℕ} (hbuf : buf.length = N) (hcs : ∀ c ∈ cs, 0 < c ∧ c ≤ N)
    (hsum : cs.sum = (ms₀.map C.size).sum)
    (h : ∀ ms : List μ, ms.map C.size = ms₀.map C.size →
      C.received k buf cs ms = ms.map fun m => some (C.content m)) : cs = ms₀.map C.size := by
  induction ms₀ generalizing cs k buf with
  | nil =>
    cases cs with
    | nil => rfl
    | cons c cs =>
      have := (hcs c List.mem_cons_self).1
      simp only [List.sum_cons, List.map_nil, List.sum_nil] at hsum
      omega
  | cons m ms₀ ih =>
    have hm := C.size_pos m
    simp only [List.map_cons, List.sum_cons] at hsum
    cases cs with
    | nil =>
      simp only [List.sum_nil] at hsum
      omega
    | cons c cs =>
      have hc := hcs c List.mem_cons_self
      simp only [List.sum_cons] at hsum
      have hfst := h (m :: ms₀) rfl
      rcases Nat.lt_trichotomy c (C.size m) with hlt | rfl | hgt
      · obtain ⟨m', hsz, hnot⟩ := not_received_of_lt k buf ms₀ cs hlt
        exact absurd ⟨hfst, h (m' :: ms₀) (by simp [hsz])⟩ hnot
      · -- the first read is right, and the others are those of the messages behind it
        have hlen : (fill buf (C.encode m)).length = N := by
          rw [fill_length (by rw [hbuf]; exact C.encode_length_le m), hbuf]
        have htail : ∀ ms : List μ, ms.map C.size = ms₀.map C.size →
            C.received (k + 1) (fill buf (C.encode m)) cs ms = ms.map fun m => some (C.content m) := by
          intro ms hms
          have := h (m :: ms) (by simp [hms])
          rw [received_size_cons hbuf] at this
          exact (List.cons.inj this).2
        have := ih hlen (fun c' hc' => hcs c' (List.mem_cons_of_mem _ hc')) (by omega) htail
        rw [List.map_cons, this]
      · -- there is a second message, since the first read has more than the first one
        obtain ⟨m₁, ms₁, rfl⟩ : ∃ m₁ ms₁, ms₀ = m₁ :: ms₁ := by
          refine List.exists_cons_of_ne_nil ?_
          rintro rfl
          simp only [List.map_nil, List.sum_nil] at hsum
          omega
        obtain ⟨c₂, cs, rfl⟩ : ∃ c₂ cs', cs = c₂ :: cs' := by
          refine List.exists_cons_of_ne_nil ?_
          rintro rfl
          have := congrArg List.length hfst
          simp [received] at this
        have hc₂ := hcs c₂ (List.mem_cons_of_mem _ List.mem_cons_self)
        have hle : c ≤ (C.stream (m :: m₁ :: ms₁)).length := by
          rw [length_stream, List.map_cons, List.sum_cons]
          omega
        obtain ⟨m₁', hsz, hnot⟩ := not_received_of_gt k cs hbuf hgt hc.2 hc₂.2 hle
        exact absurd ⟨hfst, h (m :: m₁' :: ms₁) (by simp [hsz])⟩ hnot

/-- **The receiver gets all messages of the given sizes right if and only if
each read returns exactly one frame.** -/
theorem deliver_iff {ms₀ : List μ} {cs : List ℕ} (hbuf : buf.length = N) (hcs : ∀ c ∈ cs, 0 < c ∧ c ≤ N)
    (hsum : cs.sum = (ms₀.map C.size).sum) :
    (∀ ms : List μ, ms.map C.size = ms₀.map C.size →
      C.received k buf cs ms = ms.map fun m => some (C.content m)) ↔ cs = ms₀.map C.size := by
  constructor
  · exact eq_sizes_of_received hbuf hcs hsum
  · rintro rfl ms hms
    rw [received, ← hms, splitLengths_stream]
    exact C.deliver_frames ms k hbuf

end Codec
end Reads
