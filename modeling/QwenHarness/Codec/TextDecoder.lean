import QwenHarness.Codec.Utf8

/-!
# Decoding a stream

A stream decoder takes its bytes in chunks and keeps what a chunk leaves of a character for the
next. A byte order mark at the start of the stream is not part of the text.

The text does not depend on the chunks. It can be cut wherever it could be cut between two bytes
that stand for themselves: `cuts_between` is this for any two neighbours that do not come out of
one byte.
-/

namespace TextDecoder

abbrev Bytes := List UInt8

abbrev Text := List Char

structure State where
  bomSeen : Bool
  utf8 : Utf8.State

def State.new : State := ⟨false, none⟩

def byteOrderMark : Char := '\uFEFF'

/-- What comes out of the characters of a chunk. -/
def State.strip : Bool → Text → Text × Bool
  | false, c :: cs => (if c = byteOrderMark then cs else c :: cs, true)
  | bomSeen, cs => (cs, bomSeen)

/-- Decode a chunk of a stream. -/
def decode (s : State) (chunk : Bytes) : Text × State :=
  ((State.strip s.bomSeen (Utf8.run s.utf8 chunk).1).1,
    ⟨(State.strip s.bomSeen (Utf8.run s.utf8 chunk).1).2, (Utf8.run s.utf8 chunk).2⟩)

/-- Decode the chunks of a stream. What is left of a character at its end is dropped. -/
def decodeAll : State → List Bytes → List Text
  | _, [] => []
  | s, chunk :: chunks => (decode s chunk).1 :: decodeAll (decode s chunk).2 chunks

/-- The text of a stream. -/
def text (bytes : Bytes) : Text := (decode .new bytes).1

theorem strip_append (b : Bool) (xs ys : Text) : State.strip b (xs ++ ys) =
    ((State.strip b xs).1 ++ (State.strip (State.strip b xs).2 ys).1,
      (State.strip (State.strip b xs).2 ys).2) := by
  rcases b with - | -
  · rcases xs with - | ⟨c, cs⟩
    · rfl
    · rw [List.cons_append, State.strip, State.strip]
      split_ifs <;> rfl
  · rfl

/-- **A cut** changes nothing: the second chunk is decoded from where the first ended. -/
theorem decode_append (s : State) (xs ys : Bytes) : decode s (xs ++ ys) =
    ((decode s xs).1 ++ (decode (decode s xs).2 ys).1, (decode (decode s xs).2 ys).2) := by
  simp only [decode]
  rw [Utf8.run_append, strip_append]

theorem decode_nil (s : State) : decode s [] = ([], s) := by
  rcases s with ⟨- | -, u⟩ <;> rfl

/-- **The text of the chunks** is the text of the bytes. -/
theorem flatten_decodeAll (s : State) (chunks : List Bytes) :
    (decodeAll s chunks).flatten = (decode s chunks.flatten).1 := by
  induction chunks generalizing s with
  | nil => rw [List.flatten_nil, decode_nil]; rfl
  | cons chunk chunks ih =>
    rw [decodeAll, List.flatten_cons, ih, List.flatten_cons, decode_append]

theorem text_flatten (chunks : List Bytes) : (decodeAll .new chunks).flatten = text chunks.flatten :=
  flatten_decodeAll .new chunks

/-! ## Where a text can be cut -/

theorem start_length (b : UInt8) : (Utf8.start b).1.length ≤ 1 := by
  simp only [Utf8.start]
  split_ifs <;> simp

/-- Of two neighbours that come out of one byte, the first is a replacement. -/
theorem eq_replacement_of_feed {s : Utf8.State} {x : UInt8} {a b : Char} {u v : Text}
    (h : (Utf8.feed s x).1 = u ++ a :: b :: v) : a = Utf8.replacement := by
  have hlength : (Utf8.feed s x).1.length = u.length + v.length + 2 := by
    rw [h, List.length_append, List.length_cons, List.length_cons]
    omega
  have hstart := start_length x
  rcases s with - | p
  · rw [Utf8.feed] at hlength
    omega
  · rw [Utf8.feed] at h hlength
    split_ifs at h hlength
    · rw [List.length_singleton] at hlength
      omega
    · -- the character before it is given up, and the byte taken up by itself
      rw [List.length_cons] at hlength
      obtain rfl : u = [] := List.eq_nil_of_length_eq_zero (by omega)
      exact (List.head_eq_of_cons_eq h).symm

theorem exists_strip (b : Bool) (cs : Text) : ∃ mark, cs = mark ++ (State.strip b cs).1 := by
  rcases b with - | -
  · rcases cs with - | ⟨c, cs⟩
    · exact ⟨[], rfl⟩
    · rw [State.strip]
      split_ifs
      · exact ⟨[c], rfl⟩
      · exact ⟨[], rfl⟩
  · exact ⟨[], rfl⟩

theorem eq_replacement_of_decode {s : State} {x : UInt8} {a b : Char} {u v : Text}
    (h : (decode s [x]).1 = u ++ a :: b :: v) : a = Utf8.replacement := by
  obtain ⟨mark, hmark⟩ := exists_strip s.bomSeen (Utf8.run s.utf8 [x]).1
  have hfeed : (Utf8.feed s.utf8 x).1 = (mark ++ u) ++ a :: b :: v := by
    rw [List.append_assoc, ← h]
    refine Eq.trans ?_ hmark
    rw [Utf8.run, Utf8.run, List.append_nil]
  exact eq_replacement_of_feed hfeed

/-- **A text can be cut** between any two characters that do not come out of one byte. -/
theorem exists_cut {s : State} {bytes : Bytes} {a b : Char} {u v : Text}
    (ha : a ≠ Utf8.replacement) (h : (decode s bytes).1 = u ++ a :: b :: v) :
    ∃ xs ys, bytes = xs ++ ys ∧ (decode s xs).1 = u ++ [a] := by
  induction bytes generalizing s u with
  | nil =>
    rw [decode_nil] at h
    exact absurd h (by simp)
  | cons x bytes ih =>
    have happend (xs : Bytes) : (decode s (x :: xs)).1 =
        (decode s [x]).1 ++ (decode (decode s [x]).2 xs).1 :=
      congrArg Prod.fst (decode_append s [x] xs)
    rw [happend] at h
    have hlater {u' : Text} (hu : u = (decode s [x]).1 ++ u')
        (hrest : (decode (decode s [x]).2 bytes).1 = u' ++ a :: b :: v) :
        ∃ xs ys, x :: bytes = xs ++ ys ∧ (decode s xs).1 = u ++ [a] := by
      obtain ⟨xs, ys, hxs, hcut⟩ := ih hrest
      exact ⟨x :: xs, ys, by rw [hxs]; rfl, by rw [happend, hcut, hu, List.append_assoc]⟩
    rcases List.append_eq_append_iff.mp h with ⟨u', hu, hrest⟩ | ⟨w, hx, hrest⟩
    · exact hlater hu hrest
    · rcases w with - | ⟨c, w⟩
      · rw [List.append_nil] at hx
        exact @hlater [] (by rw [hx, List.append_nil]) hrest.symm
      · obtain ⟨rfl, hrest'⟩ := List.cons_eq_cons.mp hrest
        rcases w with - | ⟨d, w⟩
        · exact ⟨[x], bytes, rfl, hx⟩
        · exact absurd (eq_replacement_of_decode hx) ha

theorem text_append (xs ys : Bytes) : ∃ rest, decodeAll .new [xs, ys] = [text xs, rest] ∧
    text (xs ++ ys) = text xs ++ rest :=
  ⟨_, rfl, congrArg Prod.fst (decode_append .new xs ys)⟩

end TextDecoder
