import QwenHarness.Codec.Utf16

/-!
# JSON strings

The spelling of a text as a JSON string. Surrogate pairs stay as they are; a half of a pair that
stands alone is escaped, so that what comes out is always well formed.

`unquote` reads a spelling back up to its closing quote and hands on the rest.
-/

namespace Utf16

def quotationMark : CodeUnit := 0x22

def reverseSolidus : CodeUnit := 0x5C

/-- The `u` of an escape. -/
def escapeMark : CodeUnit := 0x75

/-! ## The spelling -/

/-- A lower-case hexadecimal digit. -/
def hexDigit (n : ℕ) : CodeUnit := Fin.ofNat _ (if n < 10 then 0x30 + n else 0x57 + n)

/-- Four digits after a mark. -/
def escape (u : CodeUnit) : Text :=
  [reverseSolidus, escapeMark, hexDigit (u.val / 4096), hexDigit (u.val / 256 % 16),
    hexDigit (u.val / 16 % 16), hexDigit (u.val % 16)]

/-- The units with an escape of their own, and its letter. -/
def shortEscapes : List (CodeUnit × CodeUnit) :=
  [(quotationMark, quotationMark), (reverseSolidus, reverseSolidus), (0x08, 0x62), (0x0C, 0x66),
    (0x0A, 0x6E), (0x0D, 0x72), (0x09, 0x74)]

/-- How a unit is spelled that is not one of a pair. -/
def quoteUnit (u : CodeUnit) : Text :=
  match shortEscapes.lookup u with
  | some c => [reverseSolidus, c]
  | none => if decide (u.val < 0x20) || isHigh u || isLow u then escape u else [u]

def quoteUnits : Text → Text
  | [] => []
  | [u] => quoteUnit u
  | u :: v :: t =>
    if isHigh u && isLow v then u :: v :: quoteUnits t else quoteUnit u ++ quoteUnits (v :: t)

/-- `JSON.stringify` of a string. -/
def quote (t : Text) : Text := quotationMark :: quoteUnits t ++ [quotationMark]

/-! ## Reading it back -/

def hexValue (u : CodeUnit) : ℕ := if u.val < 0x3A then u.val - 0x30 else u.val - 0x57

/-- The unit an escape with a letter stands for. -/
def ofShortEscape (c : CodeUnit) : CodeUnit :=
  ((shortEscapes.find? fun e ↦ e.2 = c).map Prod.fst).getD c

def unquote : Text → Option (Text × Text)
  | [] => none
  | u :: t =>
    if u = quotationMark then some ([], t)
    else if u = reverseSolidus then
      match t with
      | [] => none
      | c :: t =>
        if c = escapeMark then
          match t with
          | x₁ :: x₂ :: x₃ :: x₄ :: t =>
            (unquote t).map fun (s, r) ↦
              (Fin.ofNat _ (((hexValue x₁ * 16 + hexValue x₂) * 16 + hexValue x₃) * 16 +
                hexValue x₄) :: s, r)
          | _ => none
        else (unquote t).map fun (s, r) ↦ (ofShortEscape c :: s, r)
    else (unquote t).map fun (s, r) ↦ (u :: s, r)

theorem unquote_unit (u : CodeUnit) (t : Text) : unquote (u :: t) =
    if u = quotationMark then some ([], t)
    else if u = reverseSolidus then
      match t with
      | [] => none
      | c :: t =>
        if c = escapeMark then
          match t with
          | x₁ :: x₂ :: x₃ :: x₄ :: t =>
            (unquote t).map fun (s, r) ↦
              (Fin.ofNat _ (((hexValue x₁ * 16 + hexValue x₂) * 16 + hexValue x₃) * 16 +
                hexValue x₄) :: s, r)
          | _ => none
        else (unquote t).map fun (s, r) ↦ (ofShortEscape c :: s, r)
    else (unquote t).map fun (s, r) ↦ (u :: s, r) := by
  rw [unquote.eq_def]
  rfl

theorem hexValue_hexDigit {n : ℕ} (h : n < 16) : hexValue (hexDigit n) = n := by
  have hall : ∀ n : Fin 16, hexValue (hexDigit n) = n := by decide
  exact hall ⟨n, h⟩

theorem unquote_mark (t : Text) : unquote (quotationMark :: t) = some ([], t) := by
  rw [unquote_unit]
  rfl

theorem unquote_cons {u : CodeUnit} (h : u ≠ quotationMark) (h' : u ≠ reverseSolidus) (t : Text) :
    unquote (u :: t) = (unquote t).map fun (s, r) ↦ (u :: s, r) := by
  rw [unquote_unit]
  exact (if_neg h).trans (if_neg h')

theorem unquote_escape (u : CodeUnit) (t : Text) :
    unquote (escape u ++ t) = (unquote t).map fun (s, r) ↦ (u :: s, r) := by
  have hu := u.isLt
  have hval : ((u.val / 4096 * 16 + u.val / 256 % 16) * 16 + u.val / 16 % 16) * 16 + u.val % 16 =
      u.val := by omega
  have hback : Fin.ofNat 65536 u.val = u := Fin.ext (Nat.mod_eq_of_lt hu)
  rw [escape]
  simp only [List.cons_append, List.nil_append]
  rw [unquote_unit, if_neg (by decide), if_pos rfl]
  dsimp only
  rw [if_pos rfl, hexValue_hexDigit (by omega), hexValue_hexDigit (by omega),
    hexValue_hexDigit (by omega), hexValue_hexDigit (by omega), hval, hback]

/-- The units with an escape of their own read back from it. -/
theorem of_mem_shortEscapes : ∀ e ∈ shortEscapes, e.2 ≠ escapeMark ∧ ofShortEscape e.2 = e.1 := by
  have h : (shortEscapes.all fun e ↦ e.2 ≠ escapeMark ∧ ofShortEscape e.2 = e.1) = true := by decide
  exact fun e he ↦ of_decide_eq_true (List.all_eq_true.mp h e he)

theorem unquote_quoteUnit (u : CodeUnit) (t : Text) :
    unquote (quoteUnit u ++ t) = (unquote t).map fun (s, r) ↦ (u :: s, r) := by
  unfold quoteUnit
  cases hlook : shortEscapes.lookup u with
  | some c =>
    have hmem : (u, c) ∈ shortEscapes := by
      obtain ⟨l, r, hsplit, -⟩ := List.lookup_eq_some_iff.mp hlook
      rw [hsplit]
      exact List.mem_append_right _ List.mem_cons_self
    obtain ⟨hc, hu⟩ := of_mem_shortEscapes _ hmem
    simp only [List.cons_append, List.nil_append]
    rw [unquote_unit, if_neg (by decide), if_pos rfl]
    dsimp only
    rw [if_neg hc, hu]
  | none =>
    have hu : u ≠ quotationMark := by
      rintro rfl
      cases hlook
    have hu' : u ≠ reverseSolidus := by
      rintro rfl
      cases hlook
    dsimp only
    split_ifs
    · exact unquote_escape u t
    · exact unquote_cons hu hu' t

/-- **What is quoted reads back**, and the rest is left. -/
theorem unquote_quoteUnits (t r : Text) :
    unquote (quoteUnits t ++ quotationMark :: r) = some (t, r) := by
  fun_induction quoteUnits t with
  | case1 => exact unquote_mark r
  | case2 u => rw [unquote_quoteUnit, unquote_mark]; rfl
  | case3 u v t h ih =>
    obtain ⟨hu, hv⟩ := (Bool.and_eq_true _ _).mp h
    have hu₁ : u ≠ quotationMark := by rintro rfl; exact absurd hu (by decide)
    have hu₂ : u ≠ reverseSolidus := by rintro rfl; exact absurd hu (by decide)
    have hv₁ : v ≠ quotationMark := by rintro rfl; exact absurd hv (by decide)
    have hv₂ : v ≠ reverseSolidus := by rintro rfl; exact absurd hv (by decide)
    rw [List.cons_append, List.cons_append, unquote_cons hu₁ hu₂, unquote_cons hv₁ hv₂, ih]
    rfl
  | case4 u v t h ih => rw [List.append_assoc, unquote_quoteUnit, ih]; rfl

/-- Quoted texts end at their closing quotes. -/
theorem quote_append_inj {s t r r' : Text} (h : quote s ++ r = quote t ++ r') : s = t ∧ r = r' := by
  simp only [quote, List.append_assoc, List.cons_append, List.nil_append, List.cons.injEq,
    true_and] at h
  have hread := (unquote_quoteUnits s r).symm.trans
    ((congrArg unquote h).trans (unquote_quoteUnits t r'))
  simpa using hread

/-! ## What is quoted is well formed -/

theorem IsWellFormed.cons {u : CodeUnit} {t : Text} (hh : isHigh u = false) (hl : isLow u = false)
    (ht : IsWellFormed t) : IsWellFormed (u :: t) :=
  (isWellFormed_singleton hh hl).append ht

theorem isWellFormed_escape (u : CodeUnit) : IsWellFormed (escape u) := by
  have hhex : ∀ n : Fin 16, isHigh (hexDigit n) = false ∧ isLow (hexDigit n) = false := by decide
  have hdigit {n : ℕ} (hn : n < 16) {t : Text} (ht : IsWellFormed t) :
      IsWellFormed (hexDigit n :: t) := .cons (hhex ⟨n, hn⟩).1 (hhex ⟨n, hn⟩).2 ht
  have hu := u.isLt
  exact .cons rfl rfl (.cons rfl rfl (hdigit (by omega) (hdigit (by omega) (hdigit (by omega)
    (hdigit (by omega) isWellFormed_nil)))))

theorem isWellFormed_quoteUnit (u : CodeUnit) : IsWellFormed (quoteUnit u) := by
  unfold quoteUnit
  cases hlook : shortEscapes.lookup u with
  | some c =>
    have hcheck : (shortEscapes.all fun e ↦ isHigh e.2 = false ∧ isLow e.2 = false) = true := by
      decide
    have hall : ∀ e ∈ shortEscapes, isHigh e.2 = false ∧ isLow e.2 = false :=
      fun e he ↦ of_decide_eq_true (List.all_eq_true.mp hcheck e he)
    obtain ⟨l, r, hsplit, -⟩ := List.lookup_eq_some_iff.mp hlook
    have hmem : (u, c) ∈ shortEscapes := by
      rw [hsplit]
      exact List.mem_append_right _ List.mem_cons_self
    exact .cons rfl rfl (isWellFormed_singleton (hall _ hmem).1 (hall _ hmem).2)
  | none =>
    dsimp only
    split_ifs with h
    · exact isWellFormed_escape u
    · simp only [Bool.or_eq_true, not_or, Bool.not_eq_true] at h
      exact isWellFormed_singleton h.1.2 h.2

theorem isWellFormed_quote (t : Text) : IsWellFormed (quote t) := by
  have hunits : IsWellFormed (quoteUnits t) := by
    fun_induction quoteUnits t with
    | case1 => exact isWellFormed_nil
    | case2 u => exact isWellFormed_quoteUnit u
    | case3 u v t h ih =>
      obtain ⟨hu, hv⟩ := (Bool.and_eq_true _ _).mp h
      exact (isWellFormed_pair hu hv).append ih
    | case4 u v t h ih => exact (isWellFormed_quoteUnit u).append ih
  exact .cons rfl rfl (hunits.append (isWellFormed_singleton rfl rfl))

end Utf16
