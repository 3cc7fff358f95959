import Mathlib.Data.List.Basic
import Mathlib.Order.Nat

/-!
# Decoding UTF-8, whole or in parts

The decoder is a machine that takes one byte after the other. A byte that cannot follow ends the
character before it, which comes out as a replacement character, and is then taken up by itself; so
nothing is ever an error.

Between characters the machine is idle. A text that is cut there decodes to what its parts decode
to. A text that is cut inside a character does not: each part ends it with a replacement character
of its own.
-/

namespace Utf8

/-- The inside of a character: how many bytes are still needed, the value so far, and the bounds of
the next byte. -/
structure Pending where
  needed : ℕ
  code : ℕ
  lower : ℕ
  upper : ℕ

/-- The machine is idle, or inside a character. -/
abbrev State := Option Pending

def replacement : Char := '\uFFFD'

/-- Take up a byte between characters. -/
def start (b : UInt8) : List Char × State :=
  let n := b.toNat
  if n < 0x80 then ([Char.ofNat n], none)
  else if n < 0xC2 then ([replacement], none)
  else if n < 0xE0 then ([], some ⟨1, n - 0xC0, 0x80, 0xBF⟩)
  else if n < 0xF0 then
    ([], some ⟨2, n - 0xE0, if n = 0xE0 then 0xA0 else 0x80, if n = 0xED then 0x9F else 0xBF⟩)
  else if n < 0xF5 then
    ([], some ⟨3, n - 0xF0, if n = 0xF0 then 0x90 else 0x80, if n = 0xF4 then 0x8F else 0xBF⟩)
  else ([replacement], none)

/-- The value with the next byte. -/
def Pending.next (p : Pending) (n : ℕ) : ℕ := p.code * 64 + (n - 0x80)

/-- Take one byte. -/
def feed : State → UInt8 → List Char × State
  | none, b => start b
  | some p, b =>
    if p.lower ≤ b.toNat ∧ b.toNat ≤ p.upper then
      if p.needed ≤ 1 then ([Char.ofNat (p.next b.toNat)], none)
      else ([], some ⟨p.needed - 1, p.next b.toNat, 0x80, 0xBF⟩)
    else (replacement :: (start b).1, (start b).2)

/-- Take bytes one after the other. -/
def run : State → List UInt8 → List Char × State
  | s, [] => ([], s)
  | s, b :: bs => ((feed s b).1 ++ (run (feed s b).2 bs).1, (run (feed s b).2 bs).2)

/-- What is left of a character at the end. -/
def flush : State → List Char
  | none => []
  | some _ => [replacement]

/-- The text of the bytes. -/
def decode (bs : List UInt8) : List Char := (run none bs).1 ++ flush (run none bs).2

/-! ## Cutting -/

/-- The bytes end between two characters. -/
def Whole (bs : List UInt8) : Prop := (run none bs).2 = none

instance (bs : List UInt8) : Decidable (Whole bs) :=
  decidable_of_iff ((run none bs).2.isNone = true) (by rw [Whole, Option.isNone_iff_eq_none])

theorem run_append (s : State) (xs ys : List UInt8) : run s (xs ++ ys) =
    ((run s xs).1 ++ (run (run s xs).2 ys).1, (run (run s xs).2 ys).2) := by
  induction xs generalizing s with
  | nil => simp [run]
  | cons x xs ih => rw [List.cons_append, run, ih, run]; simp

/-- **A cut between characters** changes nothing. -/
theorem decode_append {xs : List UInt8} (h : Whole xs) (ys : List UInt8) :
    decode (xs ++ ys) = decode xs ++ decode ys := by
  rw [Whole] at h
  rw [decode, decode, decode, run_append, h, flush, List.append_nil, List.append_assoc]

theorem whole_nil : Whole [] := rfl

theorem Whole.append {xs ys : List UInt8} (hx : Whole xs) (hy : Whole ys) : Whole (xs ++ ys) := by
  rw [Whole] at hx
  rw [Whole, run_append, hx]
  exact hy

/-- **Parts that end between characters**, but for the last, decode to the text of the whole. -/
theorem decode_flatten {parts : List (List UInt8)} (h : ∀ part ∈ parts.dropLast, Whole part) :
    decode parts.flatten = (parts.map decode).flatten := by
  induction parts with
  | nil => rfl
  | cons part parts ih =>
    rcases parts with - | ⟨next, parts⟩
    · simp
    · rw [List.dropLast_cons_cons] at h
      have hrest := ih fun p hp ↦ h p (List.mem_cons_of_mem part hp)
      rw [List.flatten_cons, decode_append (h part List.mem_cons_self), hrest]
      rfl

/-! ## Encoding -/

/-- The bytes of a text. -/
def encode (cs : List Char) : List UInt8 := cs.flatMap String.utf8EncodeChar

theorem toNat_ofNat {n : ℕ} (h : n < 256) : (UInt8.ofNat n).toNat = n := by
  rw [UInt8.toNat_ofNat', Nat.mod_eq_of_lt h]

theorem start_one {n : ℕ} (h : n < 0x80) : start (UInt8.ofNat n) = ([Char.ofNat n], none) := by
  have hn : (UInt8.ofNat n).toNat = n := toNat_ofNat (by omega)
  simp only [start, hn]
  rw [if_pos h]

theorem start_two {n : ℕ} (h : 0xC2 ≤ n) (h' : n < 0xE0) :
    start (UInt8.ofNat n) = ([], some ⟨1, n - 0xC0, 0x80, 0xBF⟩) := by
  have hn : (UInt8.ofNat n).toNat = n := toNat_ofNat (by omega)
  simp only [start, hn]
  rw [if_neg (by omega), if_neg (by omega), if_pos h']

theorem start_three {n : ℕ} (h : 0xE0 ≤ n) (h' : n < 0xF0) : start (UInt8.ofNat n) =
    ([], some ⟨2, n - 0xE0, if n = 0xE0 then 0xA0 else 0x80, if n = 0xED then 0x9F else 0xBF⟩) := by
  have hn : (UInt8.ofNat n).toNat = n := toNat_ofNat (by omega)
  simp only [start, hn]
  rw [if_neg (by omega), if_neg (by omega), if_neg (by omega), if_pos h']

theorem start_four {n : ℕ} (h : 0xF0 ≤ n) (h' : n < 0xF5) : start (UInt8.ofNat n) =
    ([], some ⟨3, n - 0xF0, if n = 0xF0 then 0x90 else 0x80, if n = 0xF4 then 0x8F else 0xBF⟩) := by
  have hn : (UInt8.ofNat n).toNat = n := toNat_ofNat (by omega)
  simp only [start, hn]
  rw [if_neg (by omega), if_neg (by omega), if_neg (by omega), if_neg (by omega), if_pos h']

theorem feed_more (p : Pending) {n : ℕ} (hn : n < 256) (h : p.lower ≤ n ∧ n ≤ p.upper)
    (hneeded : 1 < p.needed) : feed (some p) (UInt8.ofNat n) =
      ([], some ⟨p.needed - 1, p.next n, 0x80, 0xBF⟩) := by
  simp only [feed, toNat_ofNat hn]
  rw [if_pos h, if_neg (by omega)]

theorem feed_last (p : Pending) {n : ℕ} (hn : n < 256) (h : p.lower ≤ n ∧ n ≤ p.upper)
    (hneeded : p.needed ≤ 1) : feed (some p) (UInt8.ofNat n) = ([Char.ofNat (p.next n)], none) := by
  simp only [feed, toNat_ofNat hn]
  rw [if_pos h, if_pos hneeded]

theorem run_two {a b : ℕ} (ha : 0xC2 ≤ a ∧ a < 0xE0) (hb : 0x80 ≤ b ∧ b < 0xC0) :
    run none [UInt8.ofNat a, UInt8.ofNat b] =
      ([Char.ofNat ((a - 0xC0) * 64 + (b - 0x80))], none) := by
  rw [run, feed, start_two ha.1 ha.2, run,
    feed_last _ (by omega) ⟨hb.1, by simp; omega⟩ le_rfl, run]
  rfl

theorem run_three {a b c : ℕ} (ha : 0xE0 ≤ a ∧ a < 0xF0) (hb : 0x80 ≤ b ∧ b < 0xC0)
    (hc : 0x80 ≤ c ∧ c < 0xC0) (hlow : a = 0xE0 → 0xA0 ≤ b) (hhigh : a = 0xED → b < 0xA0) :
    run none [UInt8.ofNat a, UInt8.ofNat b, UInt8.ofNat c] =
      ([Char.ofNat (((a - 0xE0) * 64 + (b - 0x80)) * 64 + (c - 0x80))], none) := by
  rw [run, feed, start_three ha.1 ha.2, run, feed_more _ (by omega) (by
    constructor <;> simp only <;> split_ifs <;> omega) (by simp), run,
    feed_last _ (by omega) ⟨hc.1, by simp; omega⟩ le_rfl, run]
  rfl

theorem run_four {a b c d : ℕ} (ha : 0xF0 ≤ a ∧ a < 0xF5) (hb : 0x80 ≤ b ∧ b < 0xC0)
    (hc : 0x80 ≤ c ∧ c < 0xC0) (hd : 0x80 ≤ d ∧ d < 0xC0) (hlow : a = 0xF0 → 0x90 ≤ b)
    (hhigh : a = 0xF4 → b < 0x90) :
    run none [UInt8.ofNat a, UInt8.ofNat b, UInt8.ofNat c, UInt8.ofNat d] =
      ([Char.ofNat ((((a - 0xF0) * 64 + (b - 0x80)) * 64 + (c - 0x80)) * 64 + (d - 0x80))],
        none) := by
  rw [run, feed, start_four ha.1 ha.2, run, feed_more _ (by omega) (by
    constructor <;> simp only <;> split_ifs <;> omega) (by simp), run,
    feed_more _ (by omega) ⟨hc.1, by simp; omega⟩ (by simp), run,
    feed_last _ (by omega) ⟨hd.1, by simp; omega⟩ le_rfl, run]
  rfl

/-- The bytes of a character are taken up as that character. -/
theorem run_encodeChar (c : Char) : run none (String.utf8EncodeChar c) = ([c], none) := by
  -- a character is not a surrogate, and not beyond the last plane: so the bounds of the second
  -- byte are kept
  have hvalid : c.val.toNat < 0xD800 ∨ 0xDFFF < c.val.toNat ∧ c.val.toNat < 0x110000 := c.valid
  have hchar : Char.ofNat c.val.toNat = c := Char.ofNat_toNat c
  rw [String.utf8EncodeChar]
  generalize c.val.toNat = v at hvalid hchar
  rw [← hchar]
  split_ifs with h1 h2 h3
  · rw [run, feed, start_one (by omega), run]
    rfl
  · have hv : (v / 64 % 0x20 + 0xC0 - 0xC0) * 64 + (v % 0x40 + 0x80 - 0x80) = v := by omega
    rw [run_two (by omega) (by omega), hv]
  · have hv : ((v / 4096 % 0x10 + 0xE0 - 0xE0) * 64 + (v / 64 % 0x40 + 0x80 - 0x80)) * 64 +
        (v % 0x40 + 0x80 - 0x80) = v := by omega
    rw [run_three (by omega) (by omega) (by omega) (by omega) (by omega), hv]
  · have hv : (((v / 262144 % 0x08 + 0xF0 - 0xF0) * 64 + (v / 4096 % 0x40 + 0x80 - 0x80)) * 64 +
        (v / 64 % 0x40 + 0x80 - 0x80)) * 64 + (v % 0x40 + 0x80 - 0x80) = v := by omega
    rw [run_four (by omega) (by omega) (by omega) (by omega) (by omega) (by omega), hv]

theorem whole_encode (cs : List Char) : Whole (encode cs) := by
  induction cs with
  | nil => exact whole_nil
  | cons c cs ih =>
    have hc : Whole (String.utf8EncodeChar c) := by rw [Whole, run_encodeChar]
    exact hc.append ih

/-- **The text comes back** from its bytes. -/
theorem decode_encode (cs : List Char) : decode (encode cs) = cs := by
  induction cs with
  | nil => rfl
  | cons c cs ih =>
    have hc : Whole (String.utf8EncodeChar c) := by rw [Whole, run_encodeChar]
    rw [encode, List.flatMap_cons, decode_append hc, ← encode, ih, decode, run_encodeChar]
    rfl

end Utf8
