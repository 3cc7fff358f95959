import QwenHarness.Codec.Utf8
import Mathlib.Algebra.GroupWithZero.Nat
import Mathlib.Data.Fin.Basic
import Mathlib.Data.List.DropRight

/-!
# Texts of code units

A text is a list of UTF-16 code units: its length, its order and what is searched in it are those of
the units, and a half of a surrogate pair may stand alone in it. Where a text becomes bytes, such a
half becomes the replacement character.
-/

namespace Utf16

abbrev CodeUnit := Fin 65536

abbrev Text := List CodeUnit

scoped instance neZero : NeZero 65536 := ⟨by decide⟩

/-! ## Characters -/

/-- One unit, or a surrogate pair. -/
def ofChar (c : Char) : Text :=
  if c.toNat < 0x10000 then [Fin.ofNat _ c.toNat]
  else
    [Fin.ofNat _ (0xD800 + (c.toNat - 0x10000) / 0x400),
      Fin.ofNat _ (0xDC00 + (c.toNat - 0x10000) % 0x400)]

def ofChars (cs : List Char) : Text := cs.flatMap ofChar

def ofString (s : String) : Text := ofChars s.toList

def isHigh (u : CodeUnit) : Bool := decide (0xD800 ≤ u.val ∧ u.val < 0xDC00)

def isLow (u : CodeUnit) : Bool := decide (0xDC00 ≤ u.val ∧ u.val < 0xE000)

/-- The character of a unit that is not one of a pair. -/
def single (u : CodeUnit) : Char :=
  if isHigh u || isLow u then Utf8.replacement else Char.ofNat u.val

def pair (u v : CodeUnit) : Char :=
  Char.ofNat (0x10000 + (u.val - 0xD800) * 0x400 + (v.val - 0xDC00))

def toChars : Text → List Char
  | [] => []
  | [u] => [single u]
  | u :: v :: us =>
    if isHigh u && isLow v then pair u v :: toChars us else single u :: toChars (v :: us)

/-- `Buffer.from(text, 'utf8')`. -/
def bytes (t : Text) : List UInt8 := Utf8.encode (toChars t)

/-! ## Well-formed texts -/

/-- No half of a surrogate pair stands alone. -/
def IsWellFormed (t : Text) : Prop := ∃ cs : List Char, t = ofChars cs

theorem isWellFormed_nil : IsWellFormed [] := ⟨[], rfl⟩

theorem IsWellFormed.append {s t : Text} (hs : IsWellFormed s) (ht : IsWellFormed t) :
    IsWellFormed (s ++ t) := by
  obtain ⟨cs, rfl⟩ := hs
  obtain ⟨ds, rfl⟩ := ht
  exact ⟨cs ++ ds, List.flatMap_append.symm⟩

theorem isWellFormed_ofChars (cs : List Char) : IsWellFormed (ofChars cs) := ⟨cs, rfl⟩

theorem toNat_ofNat_of_isValid {n : ℕ} (h : n.isValidChar) : (Char.ofNat n).toNat = n := by
  rw [Char.ofNat, dif_pos h]
  rfl

/-- A unit that is no surrogate is a character. -/
theorem isWellFormed_singleton {u : CodeUnit} (hh : isHigh u = false) (hl : isLow u = false) :
    IsWellFormed [u] := by
  have hu := u.isLt
  simp only [isHigh, isLow, decide_eq_false_iff_not] at hh hl
  have hvalid : u.val.isValidChar := by
    rcases Nat.lt_or_ge u.val 0xD800 with h | h
    · exact .inl h
    · exact .inr ⟨by omega, by omega⟩
  refine ⟨[Char.ofNat u.val], ?_⟩
  rw [ofChars, List.flatMap_singleton, ofChar, toNat_ofNat_of_isValid hvalid, if_pos hu]
  exact congrArg (· :: []) (Fin.ext (Nat.mod_eq_of_lt hu).symm)

theorem isWellFormed_pair {u v : CodeUnit} (hu : isHigh u = true) (hv : isLow v = true) :
    IsWellFormed [u, v] := by
  simp only [isHigh, isLow, decide_eq_true_eq] at hu hv
  have hvalid : (0x10000 + (u.val - 0xD800) * 0x400 + (v.val - 0xDC00)).isValidChar :=
    .inr ⟨by omega, by omega⟩
  refine ⟨[pair u v], ?_⟩
  rw [ofChars, List.flatMap_singleton, ofChar, pair, toNat_ofNat_of_isValid hvalid,
    if_neg (by omega)]
  simp only [List.cons.injEq, and_true, Fin.ext_iff, Fin.val_ofNat]
  omega

theorem toChars_cons {u : CodeUnit} (h : isHigh u = false) (t : Text) :
    toChars (u :: t) = single u :: toChars t := by
  rcases t with - | ⟨v, t⟩
  · rfl
  · rw [toChars, h]
    rfl

/-- The characters a text was made of come back. -/
theorem toChars_ofChars (cs : List Char) : toChars (ofChars cs) = cs := by
  induction cs with
  | nil => rfl
  | cons c cs ih =>
    have hc : c.toNat < 0xD800 ∨ 0xE000 ≤ c.toNat ∧ c.toNat < 0x110000 := by
      rcases c.valid with h | h
      · exact .inl h
      · exact .inr ⟨Nat.succ_le_of_lt h.1, h.2⟩
    have hback : Char.ofNat c.toNat = c := Char.ofNat_toNat c
    rw [ofChars, List.flatMap_cons, ofChar]
    split_ifs with hlt
    · have hval : (Fin.ofNat 65536 c.toNat).val = c.toNat := Nat.mod_eq_of_lt hlt
      have hh : isHigh (Fin.ofNat 65536 c.toNat) = false := by
        rw [isHigh, hval, decide_eq_false_iff_not]
        omega
      have hl : isLow (Fin.ofNat 65536 c.toNat) = false := by
        rw [isLow, hval, decide_eq_false_iff_not]
        omega
      rw [List.singleton_append, toChars_cons hh, single, hh, hl, hval, hback]
      exact congrArg (c :: ·) ih
    · have hval : (Fin.ofNat 65536 (0xD800 + (c.toNat - 0x10000) / 0x400)).val =
          0xD800 + (c.toNat - 0x10000) / 0x400 := Nat.mod_eq_of_lt (by omega)
      have hval' : (Fin.ofNat 65536 (0xDC00 + (c.toNat - 0x10000) % 0x400)).val =
          0xDC00 + (c.toNat - 0x10000) % 0x400 := Nat.mod_eq_of_lt (by omega)
      have hh : isHigh (Fin.ofNat 65536 (0xD800 + (c.toNat - 0x10000) / 0x400)) = true := by
        rw [isHigh, hval, decide_eq_true_eq]
        omega
      have hl : isLow (Fin.ofNat 65536 (0xDC00 + (c.toNat - 0x10000) % 0x400)) = true := by
        rw [isLow, hval', decide_eq_true_eq]
        omega
      have hnat : 0x10000 + (0xD800 + (c.toNat - 0x10000) / 0x400 - 0xD800) * 0x400 +
          (0xDC00 + (c.toNat - 0x10000) % 0x400 - 0xDC00) = c.toNat := by omega
      rw [List.cons_append, List.singleton_append, toChars, hh, hl, Bool.and_self, if_pos rfl, pair,
        hval, hval', hnat, hback]
      exact congrArg (c :: ·) ih

/-- **Well-formed texts have bytes of their own.** -/
theorem bytes_injOn {s t : Text} (hs : IsWellFormed s) (ht : IsWellFormed t)
    (h : bytes s = bytes t) : s = t := by
  obtain ⟨cs, rfl⟩ := hs
  obtain ⟨ds, rfl⟩ := ht
  rw [bytes, bytes, toChars_ofChars, toChars_ofChars] at h
  rw [← Utf8.decode_encode cs, h, Utf8.decode_encode]

/-! ## Classes of units -/

def isBetween (lo hi : ℕ) (u : CodeUnit) : Bool := decide (lo ≤ u.val ∧ u.val ≤ hi)

def isUnit (n : ℕ) (u : CodeUnit) : Bool := decide (u.val = n)

/-! ## White space -/

/-- White space and line ends, as `trim` and `\s` know them. -/
def isSpace (u : CodeUnit) : Bool :=
  [0x09, 0x0A, 0x0B, 0x0C, 0x0D, 0x20, 0xA0, 0x1680, 0x2028, 0x2029, 0x202F, 0x205F, 0x3000,
    0xFEFF].contains u.val || decide (0x2000 ≤ u.val ∧ u.val ≤ 0x200A)

def trimEnd (t : Text) : Text := t.rdropWhile isSpace

def trim (t : Text) : Text := trimEnd (t.dropWhile isSpace)

variable {u v : CodeUnit} {t : Text}

theorem rdropWhile_cons {α : Type} {p : α → Bool} {a : α} (h : p a = false) (xs : List α) :
    (a :: xs).rdropWhile p = a :: xs.rdropWhile p := by
  induction xs using List.reverseRecOn with
  | nil => rw [List.rdropWhile_singleton, h, if_neg Bool.false_ne_true, List.rdropWhile_nil]
  | append_singleton xs x ih =>
    rw [← List.cons_append]
    by_cases hx : p x
    · rw [List.rdropWhile_concat_pos _ _ _ hx, List.rdropWhile_concat_pos _ _ _ hx, ih]
    · rw [List.rdropWhile_concat_neg _ _ _ hx, List.rdropWhile_concat_neg _ _ _ hx,
        List.cons_append]

theorem trim_cons_space (h : isSpace u = true) : trim (u :: t) = trim t := by
  rw [trim, List.dropWhile_cons_of_pos h, ← trim]

theorem trim_cons (h : isSpace u = false) : trim (u :: t) = u :: trimEnd t := by
  rw [trim, List.dropWhile_cons_of_neg (by rw [h]; exact Bool.false_ne_true), trimEnd,
    rdropWhile_cons h, ← trimEnd]

/-- A text between two units that are no white space. -/
theorem trim_between (hu : isSpace u = false) (hv : isSpace v = false) :
    trim (u :: (t ++ [v])) = u :: (t ++ [v]) := by
  rw [trim_cons hu, trimEnd, List.rdropWhile_concat_neg _ _ _ (by rw [hv]; exact Bool.false_ne_true)]

/-- An entry of a list is the separator, or in one of the parts. -/
theorem mem_splitOn {α : Type} [DecidableEq α] {a x : α} {xs : List α} (h : x ∈ xs) :
    x = a ∨ ∃ part ∈ xs.splitOn a, x ∈ part := by
  by_contra hnot
  rw [not_or, not_exists] at hnot
  have hparts : ∀ part ∈ xs.splitOn a, x ∉ part := fun part hpart hx ↦ hnot.2 part ⟨hpart, hx⟩
  have hjoin : [a].intercalate (xs.splitOn a) = xs := List.intercalate_splitOn a
  rw [← hjoin] at h
  revert h hparts
  generalize xs.splitOn a = parts
  intro h hparts
  induction parts with
  | nil => exact List.not_mem_nil h
  | cons part parts ih =>
    rw [List.forall_mem_cons] at hparts
    rcases parts with - | ⟨part', parts⟩
    · rw [List.intercalate_singleton] at h
      exact hparts.1 h
    · rw [List.intercalate_cons_cons, List.mem_append, List.mem_append, List.mem_singleton] at h
      rcases h with (h | h) | h
      · exact hparts.1 h
      · exact hnot.1 h
      · exact ih h hparts.2

end Utf16
