import Mathlib.Data.List.DropRight
import Mathlib.Data.List.TakeWhile
import Mathlib.Data.Nat.Digits.Lemmas
import Mathlib.Order.Nat

/-!
# Decimal numbers and how a number is spelled

A finite floating-point number other than zero is spelled by the shortest decimal that reads back as
it: a sign, digits without zeros at either end, and a place for the point. The spelling uses plain
digits, a point, leading zeros or an exponent, by where the point stands.

`reading` takes a spelling apart again, so that no two decimals are spelled alike.
-/

namespace Codec

/-- The decimal `±0.d₁d₂…dₖ · 10ⁿ` with digits `d₁ … dₖ` and the point at `n`. -/
structure Decimal where
  negative : Bool
  digits : List (Fin 10)
  point : ℤ
  ne_nil : digits ≠ []
  head_ne : digits.head? ≠ some 0
  last_ne : digits.getLast? ≠ some 0
deriving DecidableEq, Repr

/-- A finite number. There is one zero, spelled `0`. -/
inductive Number where
  | zero
  | decimal (d : Decimal)
deriving DecidableEq, Repr

def digitChar (d : Fin 10) : Char := Nat.digitChar d.val

theorem digitChar_injective : Function.Injective digitChar := by
  have h : ∀ a b : Fin 10, digitChar a = digitChar b → a = b := by decide
  exact fun a b ↦ h a b

theorem digitChar_ne (d : Fin 10) : digitChar d ≠ 'e' ∧ digitChar d ≠ '.' ∧ digitChar d ≠ '-' := by
  revert d
  decide

namespace Decimal

/-! ## The spelling -/

/-- The digits as they are written. -/
def text (d : Decimal) : List Char := d.digits.map digitChar

/-- The exponent with its sign. -/
def exponent (e : ℤ) : List Char :=
  'e' :: (if e < 0 then '-' else '+') :: Nat.toDigits 10 e.natAbs

/-- Spell a decimal without its sign. -/
def unsigned (d : Decimal) : List Char :=
  let k : ℤ := d.digits.length
  let n := d.point
  if k ≤ n ∧ n ≤ 21 then d.text ++ List.replicate (n - k).toNat '0'
  else if 0 < n ∧ n ≤ 21 then d.text.take n.toNat ++ '.' :: d.text.drop n.toNat
  else if -6 < n ∧ n ≤ 0 then '0' :: '.' :: List.replicate (-n).toNat '0' ++ d.text
  else if k = 1 then d.text ++ exponent (n - 1)
  else d.text.take 1 ++ '.' :: d.text.drop 1 ++ exponent (n - 1)

/-- `Number::toString` of a finite number other than zero. -/
def spell (d : Decimal) : List Char := if d.negative then '-' :: d.unsigned else d.unsigned

/-! ## The reading -/

/-- The exponent at the end of a spelling. -/
def readExponent : List Char → ℤ
  | 'e' :: '-' :: w => -Nat.ofDigitChars 10 w 0
  | 'e' :: _ :: w => Nat.ofDigitChars 10 w 0
  | _ => 0

/-- The digits of a spelling without zeros at the ends, and the place of the point. -/
def reading (w : List Char) : List Char × ℤ :=
  let mantissa := w.takeWhile (· != 'e')
  let whole := mantissa.takeWhile (· != '.')
  let all := whole ++ (mantissa.dropWhile (· != '.')).tail
  ((all.dropWhile (· == '0')).rdropWhile (· == '0'),
    whole.length - (all.takeWhile (· == '0')).length + readExponent (w.dropWhile (· != 'e')))

theorem readExponent_exponent (e : ℤ) : readExponent (exponent e) = e := by
  unfold exponent
  split_ifs with h
  · rw [readExponent, Nat.ofDigitChars_ten_toDigits]
    omega
  · change ((Nat.ofDigitChars 10 (Nat.toDigits 10 e.natAbs) 0 : ℕ) : ℤ) = e
    rw [Nat.ofDigitChars_ten_toDigits]
    omega

/-! ### Taking a spelling apart -/

section Parts

variable {W F X : List Char}

theorem takeWhile_mantissa (hW : ∀ c ∈ W, c ≠ 'e') (hX : ∀ c ∈ X.head?, c = 'e') :
    (W ++ X).takeWhile (· != 'e') = W ∧ (W ++ X).dropWhile (· != 'e') = X := by
  have hW' : ∀ c ∈ W, (c != 'e') = true := fun c hc ↦ bne_iff_ne.mpr (hW c hc)
  rw [List.takeWhile_append_of_pos hW', List.dropWhile_append_of_pos hW']
  rcases X with - | ⟨c, X⟩
  · simp
  · simp [hX c rfl]

/-- A spelling without a point. -/
theorem reading_whole (hW : ∀ c ∈ W, c ≠ 'e' ∧ c ≠ '.') (hX : ∀ c ∈ X.head?, c = 'e') :
    reading (W ++ X) = ((W.dropWhile (· == '0')).rdropWhile (· == '0'),
      W.length - (W.takeWhile (· == '0')).length + readExponent X) := by
  obtain ⟨htake, hdrop⟩ := takeWhile_mantissa (fun c hc ↦ (hW c hc).1) hX
  have hdot : ∀ c ∈ W, (c != '.') = true := fun c hc ↦ bne_iff_ne.mpr (hW c hc).2
  have hnil : W.dropWhile (· != '.') = [] := List.dropWhile_eq_nil_iff.mpr hdot
  rw [reading, htake, hdrop, List.takeWhile_eq_self_iff.mpr hdot, hnil, List.tail_nil,
    List.append_nil]

/-- A spelling with a point. -/
theorem reading_point (hW : ∀ c ∈ W, c ≠ 'e' ∧ c ≠ '.') (hF : ∀ c ∈ F, c ≠ 'e')
    (hX : ∀ c ∈ X.head?, c = 'e') :
    reading (W ++ '.' :: F ++ X) = (((W ++ F).dropWhile (· == '0')).rdropWhile (· == '0'),
      W.length - ((W ++ F).takeWhile (· == '0')).length + readExponent X) := by
  have hM : ∀ c ∈ W ++ '.' :: F, c ≠ 'e' := by
    intro c hc
    rcases List.mem_append.mp hc with hc | hc
    · exact (hW c hc).1
    · rcases List.mem_cons.mp hc with rfl | hc
      · decide
      · exact hF c hc
  obtain ⟨htake, hdrop⟩ := takeWhile_mantissa hM hX
  have hdot : ∀ c ∈ W, (c != '.') = true := fun c hc ↦ bne_iff_ne.mpr (hW c hc).2
  rw [reading, htake, hdrop, List.takeWhile_append_of_pos hdot, List.dropWhile_append_of_pos hdot]
  simp

end Parts

/-! ### The digits -/

theorem text_ne {d : Decimal} {c : Char} (h : c ∈ d.text) : c ≠ 'e' ∧ c ≠ '.' ∧ c ≠ '-' := by
  obtain ⟨x, -, rfl⟩ := List.mem_map.mp h
  exact digitChar_ne x

theorem length_text (d : Decimal) : d.text.length = d.digits.length := List.length_map _

/-- The digits start and end with something else than a zero. -/
theorem exists_text (d : Decimal) : ∃ c w, d.text = c :: w ∧ c ≠ '0' := by
  obtain ⟨x, xs, hx⟩ := List.exists_cons_of_ne_nil d.ne_nil
  refine ⟨digitChar x, xs.map digitChar, by rw [text, hx, List.map_cons], fun h ↦ d.head_ne ?_⟩
  rw [hx, List.head?_cons, @digitChar_injective x 0 h]

theorem rdropWhile_text (d : Decimal) : d.text.rdropWhile (· == '0') = d.text := by
  rw [List.rdropWhile_eq_self_iff]
  intro hne hlast
  have hne' : d.digits ≠ [] := d.ne_nil
  have h0 : digitChar (d.digits.getLast hne') = '0' := by
    have := beq_iff_eq.mp hlast
    simpa only [text, List.getLast_map] using this
  refine d.last_ne ?_
  rw [List.getLast?_eq_getLast_of_ne_nil hne']
  exact congrArg some (digitChar_injective h0)

/-- Zeros around the digits fall off. -/
theorem strip_text (d : Decimal) (z t : ℕ) :
    ((List.replicate z '0' ++ (d.text ++ List.replicate t '0')).dropWhile
      (· == '0')).rdropWhile (· == '0') = d.text ∧
    ((List.replicate z '0' ++ (d.text ++ List.replicate t '0')).takeWhile
      (· == '0')).length = z := by
  have hz : ∀ c ∈ List.replicate z '0', (c == '0') = true := by
    intro c hc
    rw [List.eq_of_mem_replicate hc]
    rfl
  obtain ⟨c, w, hcw, hc⟩ := d.exists_text
  have hc' : (c == '0') = false := beq_eq_false_iff_ne.mpr hc
  rw [List.dropWhile_append_of_pos hz, List.takeWhile_append_of_pos hz]
  constructor
  · have hdrop : (d.text ++ List.replicate t '0').dropWhile (· == '0') =
        d.text ++ List.replicate t '0' := by
      rw [hcw, List.cons_append, List.dropWhile_cons,
        if_neg (by rw [hc']; exact Bool.false_ne_true)]
    rw [hdrop]
    induction t with
    | zero => rw [List.replicate_zero, List.append_nil, rdropWhile_text]
    | succ t ih =>
      rw [List.replicate_succ', ← List.append_assoc, List.rdropWhile_concat_pos _ _ _ rfl]
      refine ih ?_
      rw [hcw, List.cons_append, List.dropWhile_cons,
        if_neg (by rw [hc']; exact Bool.false_ne_true)]
  · rw [hcw, List.cons_append, List.takeWhile_cons,
      if_neg (by rw [hc']; exact Bool.false_ne_true), List.append_nil, List.length_replicate]

theorem readExponent_nil : readExponent [] = 0 := rfl

theorem strip_text_self (d : Decimal) :
    (d.text.dropWhile (· == '0')).rdropWhile (· == '0') = d.text ∧
      (d.text.takeWhile (· == '0')).length = 0 := by
  simpa using d.strip_text 0 0

/-- **A spelling reads back.** Without its sign a spelling tells the digits and the point. -/
theorem reading_unsigned (d : Decimal) : reading d.unsigned = (d.text, d.point) := by
  have hlen := d.length_text
  have htext : ∀ c ∈ d.text, c ≠ 'e' ∧ c ≠ '.' := fun c hc ↦ ⟨(text_ne hc).1, (text_ne hc).2.1⟩
  have hzero {z : ℕ} {c : Char} (hc : c ∈ List.replicate z '0') : c ≠ 'e' ∧ c ≠ '.' := by
    rw [List.eq_of_mem_replicate hc]
    decide
  have hexp (e : ℤ) : ∀ c ∈ (exponent e).head?, c = 'e' := by
    rintro c ⟨⟩
    rfl
  have hnil : ∀ c ∈ ([] : List Char).head?, c = 'e' := by rintro c ⟨⟩
  have hpos : 0 < d.digits.length := List.length_pos_iff.mpr d.ne_nil
  unfold unsigned
  dsimp only
  split_ifs with h₁ h₂ h₃ h₄
  · -- digits and zeros
    obtain ⟨hstrip, hlead⟩ := d.strip_text 0 (d.point - d.digits.length).toNat
    rw [List.replicate_zero, List.nil_append] at hstrip hlead
    have hW : ∀ c ∈ d.text ++ List.replicate (d.point - d.digits.length).toNat '0',
        c ≠ 'e' ∧ c ≠ '.' := fun c hc ↦
      (List.mem_append.mp hc).elim (htext c) hzero
    rw [← List.append_nil (d.text ++ _), reading_whole hW hnil, hstrip, hlead, readExponent_nil,
      List.length_append, hlen, List.length_replicate, Prod.mk.injEq]
    exact ⟨rfl, by omega⟩
  · -- the point among the digits
    have hW : ∀ c ∈ d.text.take d.point.toNat, c ≠ 'e' ∧ c ≠ '.' :=
      fun c hc ↦ htext c (List.mem_of_mem_take hc)
    have hF : ∀ c ∈ d.text.drop d.point.toNat, c ≠ 'e' :=
      fun c hc ↦ (htext c (List.mem_of_mem_drop hc)).1
    rw [← List.append_nil (d.text.take _ ++ _), reading_point hW hF hnil, List.take_append_drop,
      d.strip_text_self.1, d.strip_text_self.2, readExponent_nil, List.length_take, hlen,
      Prod.mk.injEq]
    exact ⟨rfl, by omega⟩
  · -- zeros between the point and the digits
    obtain ⟨hstrip, hlead⟩ := d.strip_text ((-d.point).toNat + 1) 0
    rw [List.replicate_zero, List.append_nil, List.replicate_succ, List.cons_append] at hstrip hlead
    have hW : ∀ c ∈ ['0'], c ≠ 'e' ∧ c ≠ '.' :=
      List.forall_mem_singleton.mpr (by decide)
    have hF : ∀ c ∈ List.replicate (-d.point).toNat '0' ++ d.text, c ≠ 'e' := fun c hc ↦
      (List.mem_append.mp hc).elim (fun h ↦ (hzero h).1) (fun h ↦ (htext c h).1)
    have hparts : '0' :: '.' :: List.replicate (-d.point).toNat '0' ++ d.text =
        ['0'] ++ '.' :: (List.replicate (-d.point).toNat '0' ++ d.text) ++ [] := by simp
    rw [hparts, reading_point hW hF hnil, List.singleton_append, hstrip, hlead, readExponent_nil,
      Prod.mk.injEq, List.length_singleton]
    exact ⟨rfl, by omega⟩
  · -- one digit and an exponent
    rw [reading_whole htext (hexp _), d.strip_text_self.1, d.strip_text_self.2,
      readExponent_exponent, hlen, Prod.mk.injEq]
    exact ⟨rfl, by omega⟩
  · -- a point after the first digit and an exponent
    have hW : ∀ c ∈ d.text.take 1, c ≠ 'e' ∧ c ≠ '.' :=
      fun c hc ↦ htext c (List.mem_of_mem_take hc)
    have hF : ∀ c ∈ d.text.drop 1, c ≠ 'e' := fun c hc ↦ (htext c (List.mem_of_mem_drop hc)).1
    rw [reading_point hW hF (hexp _), List.take_append_drop, d.strip_text_self.1,
      d.strip_text_self.2, readExponent_exponent, List.length_take, hlen, Prod.mk.injEq]
    exact ⟨rfl, by omega⟩

/-! ## Spellings -/

/-- The characters of a spelling. -/
def isNumberChar (c : Char) : Bool := c.isDigit || c == '-' || c == '+' || c == '.' || c == 'e'

theorem isNumberChar_digitChar : ∀ x : Fin 10, isNumberChar (digitChar x) = true := by decide

theorem isNumberChar_text {d : Decimal} {c : Char} (h : c ∈ d.text) : isNumberChar c = true := by
  obtain ⟨x, -, rfl⟩ := List.mem_map.mp h
  exact isNumberChar_digitChar x

theorem isNumberChar_exponent {e : ℤ} {c : Char} (h : c ∈ exponent e) : isNumberChar c = true := by
  simp only [exponent, List.mem_cons] at h
  rcases h with rfl | h | h
  · rfl
  · split_ifs at h <;> rw [h] <;> rfl
  · rw [isNumberChar, Nat.isDigit_of_mem_toDigits (by decide) (by decide) h]
    rfl

theorem isNumberChar_unsigned {d : Decimal} {c : Char} (h : c ∈ d.unsigned) :
    isNumberChar c = true := by
  have hzero {z : ℕ} (h : c ∈ List.replicate z '0') : isNumberChar c = true := by
    rw [List.eq_of_mem_replicate h]
    rfl
  have hdot (h : c = '.') : isNumberChar c = true := h ▸ rfl
  unfold unsigned at h
  dsimp only at h
  split_ifs at h <;> simp only [List.mem_append, List.mem_cons] at h
  · exact h.elim isNumberChar_text hzero
  · rcases h with h | h | h
    · exact isNumberChar_text (List.mem_of_mem_take h)
    · exact hdot h
    · exact isNumberChar_text (List.mem_of_mem_drop h)
  · rcases h with (h | h | h) | h
    · rw [h]
      rfl
    · exact hdot h
    · exact hzero h
    · exact isNumberChar_text h
  · exact h.elim isNumberChar_text isNumberChar_exponent
  · rcases h with (h | h | h) | h
    · exact isNumberChar_text (List.mem_of_mem_take h)
    · exact hdot h
    · exact isNumberChar_text (List.mem_of_mem_drop h)
    · exact isNumberChar_exponent h

/-- A spelling without a sign starts with a digit. -/
theorem head?_unsigned (d : Decimal) : ∃ c w, d.unsigned = c :: w ∧ c ≠ '-' := by
  obtain ⟨c, w, hcw, -⟩ := d.exists_text
  have hc : c ≠ '-' := (text_ne (hcw ▸ List.mem_cons_self : c ∈ d.text)).2.2
  unfold unsigned
  dsimp only
  split_ifs with h₁ h₂ h₃ h₄
  · exact ⟨c, _, by rw [hcw]; rfl, hc⟩
  · obtain ⟨n, hn⟩ : ∃ n, d.point.toNat = n + 1 := ⟨d.point.toNat - 1, by omega⟩
    exact ⟨c, _, by rw [hcw, hn]; rfl, hc⟩
  · exact ⟨'0', _, rfl, by decide⟩
  · exact ⟨c, _, by rw [hcw]; rfl, hc⟩
  · exact ⟨c, _, by rw [hcw]; rfl, hc⟩

theorem unsigned_injective {d d' : Decimal} (h : d.unsigned = d'.unsigned) :
    d.digits = d'.digits ∧ d.point = d'.point := by
  have hread := (reading_unsigned d).symm.trans ((congrArg reading h).trans (reading_unsigned d'))
  obtain ⟨htext, hpoint⟩ := Prod.mk.inj hread
  exact ⟨digitChar_injective.list_map htext, hpoint⟩

theorem spell_injective : Function.Injective spell := by
  intro d d' h
  obtain ⟨c, w, hcw, hc⟩ := d.head?_unsigned
  obtain ⟨c', w', hcw', hc'⟩ := d'.head?_unsigned
  have hparts : d.negative = d'.negative ∧ d.unsigned = d'.unsigned := by
    unfold spell at h
    split_ifs at h with hn hn' hn'
    · exact ⟨hn.trans hn'.symm, (List.cons.inj h).2⟩
    · rw [hcw'] at h
      exact absurd (List.cons.inj h).1.symm hc'
    · rw [hcw] at h
      exact absurd (List.cons.inj h).1 hc
    · exact ⟨(eq_false_of_ne_true hn).trans (eq_false_of_ne_true hn').symm, h⟩
  obtain ⟨hdigits, hpoint⟩ := unsigned_injective hparts.2
  rcases d with ⟨negative, digits, point, _, _, _⟩
  rcases d' with ⟨negative', digits', point', _, _, _⟩
  obtain ⟨rfl, rfl, rfl⟩ : negative = negative' ∧ digits = digits' ∧ point = point' :=
    ⟨hparts.1, hdigits, hpoint⟩
  rfl

end Decimal

namespace Number

/-- `Number::toString` of a finite number. -/
def spell : Number → List Char
  | zero => ['0']
  | decimal d => d.spell

theorem isNumberChar_spell {n : Number} {c : Char} (h : c ∈ n.spell) :
    Decimal.isNumberChar c = true := by
  cases n with
  | zero => rw [List.mem_singleton.mp h]; rfl
  | decimal d =>
    rw [spell, Decimal.spell] at h
    split_ifs at h
    · rcases List.mem_cons.mp h with rfl | h
      · rfl
      · exact Decimal.isNumberChar_unsigned h
    · exact Decimal.isNumberChar_unsigned h

theorem spell_ne_nil (n : Number) : n.spell ≠ [] := by
  cases n with
  | zero => exact List.cons_ne_nil _ _
  | decimal d =>
    obtain ⟨c, w, hcw, -⟩ := d.head?_unsigned
    rw [spell, Decimal.spell, hcw]
    split_ifs <;> exact List.cons_ne_nil _ _

/-- No decimal is spelled `0`: its digits are not zeros. -/
theorem spell_decimal_ne (d : Decimal) : d.spell ≠ ['0'] := by
  intro h
  obtain ⟨c, w, hcw, -⟩ := d.head?_unsigned
  have hun : d.unsigned = ['0'] := by
    unfold Decimal.spell at h
    split_ifs at h
    · exact absurd (List.cons.inj h).1 (by decide)
    · exact h
  have hread := (Decimal.reading_unsigned d).symm.trans (congrArg Decimal.reading hun)
  have htext : d.text = [] := (Prod.mk.inj hread).1
  exact d.ne_nil (List.map_eq_nil_iff.mp htext)

/-- **Numbers are spelled apart.** -/
theorem spell_injective : Function.Injective spell := by
  intro n m h
  cases n with
  | zero =>
    cases m with
    | zero => rfl
    | decimal d => exact absurd h.symm (spell_decimal_ne d)
  | decimal d =>
    cases m with
    | zero => exact absurd h (spell_decimal_ne d)
    | decimal d' => rw [Decimal.spell_injective h]

/-! ## Natural numbers -/

/-- The digits of a natural number without the zeros at its end, lowest first. -/
def lowDigits (n : ℕ) : List ℕ := (Nat.digits 10 n).dropWhile (· == 0)

theorem digits_eq (n : ℕ) : Nat.digits 10 n =
    List.replicate ((Nat.digits 10 n).length - (lowDigits n).length) 0 ++ lowDigits n := by
  have hsplit := List.takeWhile_append_dropWhile (p := (· == 0)) (l := Nat.digits 10 n)
  have hzeros : (Nat.digits 10 n).takeWhile (· == 0) =
      List.replicate ((Nat.digits 10 n).takeWhile (· == 0)).length 0 :=
    List.eq_replicate_of_mem fun d hd ↦
      beq_iff_eq.mp (List.mem_takeWhile_imp (p := (· == 0)) hd)
  have hlen : (Nat.digits 10 n).length - (lowDigits n).length =
      ((Nat.digits 10 n).takeWhile (· == 0)).length := by
    have := congrArg List.length hsplit
    rw [List.length_append] at this
    rw [lowDigits]
    omega
  rw [hlen, ← hzeros]
  exact hsplit.symm

theorem lowDigits_lt {n d : ℕ} (h : d ∈ lowDigits n) : d < 10 :=
  Nat.digits_lt_base (by decide) ((List.dropWhile_suffix _).subset h)

theorem lowDigits_ne_nil {n : ℕ} (h : n ≠ 0) : lowDigits n ≠ [] := by
  intro hnil
  have hne : Nat.digits 10 n ≠ [] := Nat.digits_ne_nil_iff_ne_zero.mpr h
  have hall := List.dropWhile_eq_nil_iff.mp hnil _ (List.getLast_mem hne)
  exact Nat.getLast_digit_ne_zero 10 h (beq_iff_eq.mp hall)

theorem head?_lowDigits (n : ℕ) : (lowDigits n).head? ≠ some 0 := by
  intro h
  have := List.head?_dropWhile_not (· == 0) (Nat.digits 10 n)
  rw [← lowDigits, h] at this
  cases this

theorem getLast?_lowDigits {n : ℕ} (h : n ≠ 0) : (lowDigits n).getLast? ≠ some 0 := by
  intro hlast
  have hne : Nat.digits 10 n ≠ [] := Nat.digits_ne_nil_iff_ne_zero.mpr h
  have hsame : (Nat.digits 10 n).getLast? = some 0 := by
    rw [digits_eq n, List.getLast?_append_of_ne_nil _ (lowDigits_ne_nil h), hlast]
  rw [List.getLast?_eq_getLast_of_ne_nil hne] at hsame
  exact Nat.getLast_digit_ne_zero 10 h (Option.some.inj hsame)

theorem ofNat_eq_zero {d : ℕ} (h : d < 10) (h0 : Fin.ofNat 10 d = 0) : d = 0 := by
  have hval := congrArg Fin.val h0
  rwa [Fin.val_ofNat, Nat.mod_eq_of_lt h] at hval

/-- The decimal of a natural number other than zero. -/
def ofPos (n : ℕ) (h : n ≠ 0) : Decimal where
  negative := false
  digits := (lowDigits n).reverse.map (Fin.ofNat 10)
  point := (Nat.digits 10 n).length
  ne_nil := by simpa using lowDigits_ne_nil h
  head_ne := by
    rw [List.head?_map, List.head?_reverse]
    intro h0
    obtain ⟨d, hd, h0⟩ := Option.map_eq_some_iff.mp h0
    rw [ofNat_eq_zero (lowDigits_lt (List.mem_of_getLast? hd)) h0] at hd
    exact getLast?_lowDigits h hd
  last_ne := by
    rw [List.getLast?_map, List.getLast?_reverse]
    intro h0
    obtain ⟨d, hd, h0⟩ := Option.map_eq_some_iff.mp h0
    rw [ofNat_eq_zero (lowDigits_lt (List.mem_of_mem_head? hd)) h0] at hd
    exact head?_lowDigits n hd

def ofNat (n : ℕ) : Number := if h : n = 0 then zero else decimal (ofPos n h)

theorem ofNat_injective : Function.Injective ofNat := by
  intro n m h
  unfold ofNat at h
  split_ifs at h with hn hm hm
  · rw [hn, hm]
  · obtain ⟨hdigits, hpoint⟩ : (ofPos n hn).digits = (ofPos m hm).digits ∧
        (ofPos n hn).point = (ofPos m hm).point := by
      rw [Number.decimal.inj h]
      exact ⟨rfl, rfl⟩
    have hlow : lowDigits n = lowDigits m := by
      have hval := congrArg (List.map Fin.val) hdigits
      simp only [ofPos, List.map_map, List.map_reverse] at hval
      have hself {k : ℕ} : (lowDigits k).map (Fin.val ∘ Fin.ofNat 10) = lowDigits k :=
        (List.map_congr_left fun d hd ↦ Nat.mod_eq_of_lt (lowDigits_lt hd)).trans (List.map_id _)
      rwa [hself, hself, List.reverse_inj] at hval
    have hlen : (Nat.digits 10 n).length = (Nat.digits 10 m).length := Int.ofNat.inj hpoint
    apply Nat.digits.injective 10
    rw [digits_eq n, digits_eq m, hlow, hlen]

end Number

end Codec
