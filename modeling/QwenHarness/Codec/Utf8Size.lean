import QwenHarness.Codec.Garbled
import QwenHarness.Codec.Utf16

/-!
# How long a decoded text is

A decoded text has no more code units than there were bytes. With bytes below 0x80 it has as many,
and its own bytes are the same.
-/

namespace Utf8

/-! ## Bytes that are characters -/

def IsAscii (bs : List UInt8) : Prop := ∀ b ∈ bs, b.toNat < 0x80

theorem run_ascii {bs : List UInt8} (h : IsAscii bs) :
    run none bs = (bs.map fun b ↦ Char.ofNat b.toNat, none) := by
  induction bs with
  | nil => rfl
  | cons b bs ih =>
    obtain ⟨hb, hbs⟩ := List.forall_mem_cons.mp h
    have hfeed : feed none b = ([Char.ofNat b.toNat], none) := if_pos hb
    rw [run, hfeed, ih hbs]
    rfl

theorem whole_ascii {bs : List UInt8} (h : IsAscii bs) : Whole bs := by
  rw [Whole, run_ascii h]

theorem decode_ascii {bs : List UInt8} (h : IsAscii bs) :
    decode bs = bs.map fun b ↦ Char.ofNat b.toNat := by
  rw [decode, run_ascii h, flush, List.append_nil]

theorem IsAscii.of_prefix {xs ys : List UInt8} (h : IsAscii ys) (hle : xs <+: ys) : IsAscii xs :=
  fun b hb ↦ h b (hle.subset hb)

theorem decode_ne_nil {bs : List UInt8} (h : bs ≠ []) : decode bs ≠ [] := by
  intro hnil
  obtain ⟨hrun, hflush⟩ := List.append_eq_nil_iff.mp hnil
  cases hstate : (run none bs).2 with
  | none => exact run_ne_nil hstate h hrun
  | some p =>
    rw [hstate] at hflush
    cases hflush

end Utf8

namespace Utf16

/-! ## Code units -/

/-- The text of bytes. -/
def decoded (bs : List UInt8) : Text := ofChars (Utf8.decode bs)

theorem ofChars_append (cs ds : List Char) : ofChars (cs ++ ds) = ofChars cs ++ ofChars ds :=
  List.flatMap_append

theorem decoded_append {xs : List UInt8} (h : Utf8.Whole xs) (ys : List UInt8) :
    decoded (xs ++ ys) = decoded xs ++ decoded ys := by
  rw [decoded, Utf8.decode_append h, ofChars_append]
  rfl

theorem length_ofChar_le (c : Char) : (ofChar c).length ≤ 2 := by
  rw [ofChar]
  split_ifs
  · exact Nat.le_succ 1
  · exact le_rfl

/-- A byte that was taken and has not come out yet. -/
def held : Utf8.State → ℕ
  | none => 0
  | some _ => 1

theorem length_start (b : UInt8) :
    (ofChars (Utf8.start b).1).length + held (Utf8.start b).2 ≤ 1 := by
  have hascii : ∀ n, n < 0x80 → (ofChars [Char.ofNat n]).length ≤ 1 := by decide
  rw [Utf8.start]
  split_ifs with h
  · exact hascii _ h
  all_goals exact le_rfl

theorem length_feed (s : Utf8.State) (b : UInt8) :
    (ofChars (Utf8.feed s b).1).length + held (Utf8.feed s b).2 ≤ held s + 1 := by
  cases s with
  | none =>
    rw [Utf8.feed, held, Nat.zero_add]
    exact length_start b
  | some p =>
    rw [Utf8.feed]
    split_ifs
    · have hlength : ofChars [Char.ofNat (p.next b.toNat)] = ofChar (Char.ofNat (p.next b.toNat)) :=
        List.flatMap_singleton _ _
      dsimp only
      have hle := length_ofChar_le (Char.ofNat (p.next b.toNat))
      rw [hlength, held, held]
      omega
    · exact Nat.le_succ 1
    · have hstart := length_start b
      have hreplacement : (ofChars [Utf8.replacement]).length = 1 := rfl
      change (ofChars ([Utf8.replacement] ++ (Utf8.start b).1)).length + held (Utf8.start b).2 ≤
        1 + 1
      rw [ofChars_append, List.length_append, hreplacement]
      omega

theorem length_run (s : Utf8.State) (bs : List UInt8) :
    (ofChars (Utf8.run s bs).1).length + held (Utf8.run s bs).2 ≤ held s + bs.length := by
  induction bs generalizing s with
  | nil => exact le_of_eq (Nat.zero_add _)
  | cons b bs ih =>
    have hfeed := length_feed s b
    have hrun := ih (Utf8.feed s b).2
    change (ofChars ((Utf8.feed s b).1 ++ (Utf8.run (Utf8.feed s b).2 bs).1)).length +
      held (Utf8.run (Utf8.feed s b).2 bs).2 ≤ _
    rw [ofChars_append, List.length_append, List.length_cons]
    omega

/-- **No more code units than bytes.** -/
theorem length_decoded_le (bs : List UInt8) : (decoded bs).length ≤ bs.length := by
  have hrun := length_run none bs
  rw [held, Nat.zero_add] at hrun
  have hflush : (ofChars (Utf8.flush (Utf8.run none bs).2)).length =
      held (Utf8.run none bs).2 := by
    cases (Utf8.run none bs).2 <;> rfl
  rw [decoded, Utf8.decode, ofChars_append, List.length_append, hflush]
  exact hrun

/-! ## Bytes -/

/-- How many bytes a text takes. -/
def size (t : Text) : ℕ := (bytes t).length

theorem size_ofChars (cs : List Char) : size (ofChars cs) = (Utf8.encode cs).length := by
  rw [size, bytes, toChars_ofChars]

theorem size_ofChars_append (cs ds : List Char) :
    size (ofChars (cs ++ ds)) = size (ofChars cs) + size (ofChars ds) := by
  rw [size_ofChars, size_ofChars, size_ofChars, Utf8.encode_append, List.length_append]

theorem size_pos {cs : List Char} (h : cs ≠ []) : 0 < size (ofChars cs) := by
  cases cs with
  | nil => exact absurd rfl h
  | cons c cs =>
    rw [size_ofChars, Utf8.encode_cons, List.length_append]
    have hc : 0 < (String.utf8EncodeChar c).length := by
      rw [String.length_utf8EncodeChar]
      exact Char.utf8Size_pos c
    omega

theorem length_decoded_ascii {bs : List UInt8} (h : Utf8.IsAscii bs) :
    (decoded bs).length = bs.length := by
  have hascii : ∀ n, n < 0x80 → (ofChar (Char.ofNat n)).length = 1 := by decide
  rw [decoded, Utf8.decode_ascii h]
  induction bs with
  | nil => rfl
  | cons b bs ih =>
    obtain ⟨hb, hbs⟩ := List.forall_mem_cons.mp h
    rw [List.map_cons, ofChars, List.flatMap_cons, List.length_append, hascii _ hb, ← ofChars,
      ih hbs, List.length_cons, Nat.add_comm]

theorem size_decoded_ascii {bs : List UInt8} (h : Utf8.IsAscii bs) :
    size (decoded bs) = bs.length := by
  have hascii : ∀ n, n < 0x80 → (String.utf8EncodeChar (Char.ofNat n)).length = 1 := by decide
  rw [decoded, size_ofChars, Utf8.decode_ascii h]
  induction bs with
  | nil => rfl
  | cons b bs ih =>
    obtain ⟨hb, hbs⟩ := List.forall_mem_cons.mp h
    rw [List.map_cons, Utf8.encode_cons, List.length_append, hascii _ hb, ih hbs, List.length_cons,
      Nat.add_comm]

end Utf16
