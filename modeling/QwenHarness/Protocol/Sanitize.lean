import QwenHarness.Codec.Utf16
import QwenHarness.Pattern.Regex

/-!
# Untrusted text

A text that comes from a model, a tool or the web may hold control sequences that repaint a
terminal, and invisible letters that lie about what it says. `sanitize` lets no control character
through but the two that are content. What it takes away it replaces by a visible mark, and what it
cuts off it announces.
-/

namespace QwenHarness

open Pattern Utf16

/-! ## Classes of letters -/

def placeholder : CodeUnit := 0xFFFD

/-- `CONTROL_CHARS`: without the tab and the newline. -/
def controlChars (u : CodeUnit) : Bool :=
  isBetween 0x00 0x08 u || isBetween 0x0B 0x1F u || isBetween 0x7F 0x9F u

/-- `DECEPTIVE_UNICODE`: bidirectional overrides, invisible letters, other line separators. -/
def deceptiveUnicode (u : CodeUnit) : Bool :=
  isBetween 0x200B 0x200F u || isBetween 0x202A 0x202E u || isBetween 0x2060 0x2064 u ||
    isBetween 0x2066 0x2069 u || isUnit 0xAD u || isUnit 0x2028 u || isUnit 0x2029 u ||
    isUnit 0xFEFF u

/-- `ANSI_SEQUENCE`: a whole sequence with its payload. -/
def ansiSequence : Regex CodeUnit :=
  let esc : Regex CodeUnit := .one (isUnit 0x1B)
  -- `ESC [ … final`
  .alt (.seq esc <| .seq (.one (isUnit 0x5B)) <| .seq (.many true 0 none (isBetween 0x30 0x3F)) <|
      .seq (.many true 0 none (isBetween 0x20 0x2F)) <| .one (isBetween 0x40 0x7E)) <|
    -- `ESC ] … BEL`, or up to `ESC \` or the end
    .alt (.seq esc <| .seq (.one (isUnit 0x5D)) <| .seq (.many false 0 none fun _ ↦ true) <|
      .alt (.one (isUnit 0x07)) <| .alt (.seq esc (.one (isUnit 0x5C))) .finish) <|
    -- `ESC P`, `ESC X`, `ESC ^` and `ESC _`, up to `ESC \` or the end
    .alt (.seq esc <| .seq (.one fun u ↦ isUnit 0x50 u || isUnit 0x5E u || isUnit 0x5F u ||
        isUnit 0x58 u) <| .seq (.many false 0 none fun _ ↦ true) <|
      .alt (.seq esc (.one (isUnit 0x5C))) .finish) <|
    .seq esc (.one fun u ↦ isBetween 0x40 0x5A u || isBetween 0x5C 0x5F u)

/-! ## The passes -/

/-- A text, and how often something was stripped from it. -/
structure Stripped where
  text : Text
  count : ℕ
deriving DecidableEq, Repr

/-- Replace what an expression matches. -/
def Stripped.replaceAll (r : Regex CodeUnit) (s : Stripped) : Stripped :=
  let found := scan r.find 0 none s.text
  ⟨render (fun _ ↦ [placeholder]) found, s.count + hits found⟩

/-- Replace the letters of a class. -/
def Stripped.replaceClass (cls : CodeUnit → Bool) (s : Stripped) : Stripped :=
  ⟨s.text.map fun u ↦ if cls u then placeholder else u, s.count + s.text.countP cls⟩

/-- Every carriage return that stands before a newline goes. -/
def foldCrlf : Text → Text
  | [] => []
  | u :: t => if isUnit 0x0D u && t.head?.any (isUnit 0x0A) then foldCrlf t else u :: foldCrlf t

/-- Everything that strips. -/
def strip (input : Text) : Stripped :=
  let whole := Stripped.replaceAll ansiSequence ⟨input, 0⟩
  -- A carriage return alone rewinds the cursor, one before a newline does not.
  let folded : Stripped := ⟨foldCrlf whole.text, whole.count⟩
  ((folded.replaceClass (isUnit 0x0D)).replaceClass controlChars).replaceClass deceptiveUnicode

/-! ## Sanitizing -/

/-- Where a text came from. It is recorded and relaxes nothing. -/
inductive TextOrigin where
  | model
  | repository
  | tool
  | hook
  | mcp
  | web
  | provider
  | user
  | markdownLink
deriving DecidableEq, Repr

structure SanitizeOptions where
  origin : TextOrigin
  maxLength : Option ℤ
  multiline : Option Bool
deriving DecidableEq, Repr

structure SanitizeResult where
  text : Text
  modified : Bool
  strippedControlSequences : ℕ
  truncated : Bool
  origin : TextOrigin
deriving DecidableEq, Repr

/-- A single line has spaces for newlines. -/
def joinLines (multiline : Option Bool) (out : Text) : Text :=
  if multiline = some false then out.map fun u ↦ if isUnit 0x0A u then 0x20 else u else out

/-- `text.slice(0, limit)`. A limit below zero counts from the end. -/
def sliceTo (limit : ℤ) (t : Text) : Text :=
  t.take (if 0 ≤ limit then limit else t.length + limit).toNat

def truncationMark (missing : ℕ) : Text :=
  ofString "… [truncated " ++ ofChars (Nat.toDigits 10 missing) ++ ofString " chars]"

/-- Cut off what is over the limit. -/
def truncate (maxLength : Option ℤ) (out : Text) : Text × Bool :=
  match maxLength with
  | some max =>
    if max < out.length then (sliceTo max out ++ truncationMark (out.length - max).toNat, true)
    else (out, false)
  | none => (out, false)

def sanitize (input : Text) (options : SanitizeOptions) : SanitizeResult :=
  let stripped := strip input
  let out := joinLines options.multiline stripped.text
  let (text, truncated) := truncate options.maxLength out
  { text, modified := decide (0 < stripped.count) || truncated
    strippedControlSequences := stripped.count, truncated, origin := options.origin }

/-! ## What is left -/

/-- `\u0000` to `\u001f`, and `\u007f` to `\u009f`. -/
def isControl (u : CodeUnit) : Bool := isBetween 0x00 0x1F u || isBetween 0x7F 0x9F u

/-- A letter that may be shown: no control character but a tab or a newline, no newline in a single
line, and nothing deceptive. -/
structure Harmless (multiline : Option Bool) (u : CodeUnit) : Prop where
  control : isControl u = true → u.val = 0x09 ∨ u.val = 0x0A
  line : multiline = some false → u.val ≠ 0x0A
  deceptive : deceptiveUnicode u = false

section Passes

variable {cls : CodeUnit → Bool} {s : Stripped} {t : Text} {u : CodeUnit}

theorem foldCrlf_eq_self (h : ∀ u ∈ t, isUnit 0x0D u = false) : foldCrlf t = t := by
  induction t with
  | nil => rfl
  | cons u t ih =>
    obtain ⟨hu, ht⟩ := List.forall_mem_cons.mp h
    rw [foldCrlf, hu, Bool.false_and, if_neg Bool.false_ne_true, ih ht]

theorem Stripped.replaceClass_eq_self (h : ∀ u ∈ s.text, cls u = false) :
    s.replaceClass cls = s := by
  have hmap : s.text.map (fun u ↦ if cls u then placeholder else u) = s.text := by
    refine (List.map_congr_left fun u hu ↦ ?_).trans (List.map_id _)
    rw [h u hu, if_neg Bool.false_ne_true, id]
  have hcount : s.text.countP cls = 0 := by
    refine List.countP_eq_zero.mpr fun u hu ↦ ?_
    rw [h u hu]
    exact Bool.false_ne_true
  rw [replaceClass, hmap, hcount, Nat.add_zero]

/-- A pass leaves letters of the text, outside its class, and marks. -/
theorem Stripped.mem_replaceClass (h : u ∈ (s.replaceClass cls).text) :
    u = placeholder ∨ u ∈ s.text ∧ cls u = false := by
  obtain ⟨v, hv, rfl⟩ := List.mem_map.mp h
  cases hc : cls v with
  | true => exact .inl (if_pos rfl)
  | false => exact .inr ⟨by rwa [if_neg Bool.false_ne_true], by rwa [if_neg Bool.false_ne_true]⟩

end Passes

theorem startsWith_ansiSequence : ansiSequence.StartsWith (isUnit 0x1B) :=
  ⟨fun _ h ↦ h, fun _ h ↦ h, fun _ h ↦ h, fun _ h ↦ h⟩

theorem placeholder_classes : isUnit 0x0D placeholder = false ∧ controlChars placeholder = false ∧
    deceptiveUnicode placeholder = false := by
  decide

/-- What the passes leave is in none of the classes. -/
theorem classes_of_mem_strip {input : Text} {u : CodeUnit} (h : u ∈ (strip input).text) :
    isUnit 0x0D u = false ∧ controlChars u = false ∧ deceptiveUnicode u = false := by
  rcases Stripped.mem_replaceClass h with rfl | ⟨h, hdeceptive⟩
  · exact placeholder_classes
  rcases Stripped.mem_replaceClass h with rfl | ⟨h, hcontrol⟩
  · exact placeholder_classes
  rcases Stripped.mem_replaceClass h with rfl | ⟨-, hreturn⟩
  · exact placeholder_classes
  exact ⟨hreturn, hcontrol, hdeceptive⟩

theorem controlChars_or_of_isControl {u : CodeUnit} (h : isControl u = true) :
    controlChars u = true ∨ u.val = 0x09 ∨ u.val = 0x0A := by
  simp only [isControl, controlChars, isBetween, Bool.or_eq_true, decide_eq_true_eq] at h ⊢
  omega

theorem Harmless.of_classes {multiline : Option Bool} {u : CodeUnit}
    (hcontrol : controlChars u = false) (hdeceptive : deceptiveUnicode u = false)
    (hline : multiline = some false → u.val ≠ 0x0A) : Harmless multiline u where
  control h := (controlChars_or_of_isControl h).resolve_left (hcontrol ▸ Bool.false_ne_true)
  line := hline
  deceptive := hdeceptive

/-- A harmless letter is in none of the classes. -/
theorem Harmless.classes {multiline : Option Bool} {u : CodeUnit} (h : Harmless multiline u) :
    isUnit 0x1B u = false ∧ isUnit 0x0D u = false ∧ controlChars u = false ∧
      deceptiveUnicode u = false := by
  have hcontrol := h.control
  simp only [isControl, isBetween, Bool.or_eq_true, decide_eq_true_eq] at hcontrol
  refine ⟨?_, ?_, ?_, h.deceptive⟩
  · exact decide_eq_false fun hu ↦ by omega
  · exact decide_eq_false fun hu ↦ by omega
  · simp only [controlChars, isBetween, Bool.or_eq_false_iff, decide_eq_false_iff_not]
    omega

/-- Of a harmless text nothing is stripped. -/
theorem strip_eq_self {multiline : Option Bool} {input : Text}
    (h : ∀ u ∈ input, Harmless multiline u) : strip input = ⟨input, 0⟩ := by
  have hscan : scan ansiSequence.find 0 none input = input.map Sum.inl :=
    Regex.scan_find_eq_map startsWith_ansiSequence fun u hu ↦ (h u hu).classes.1
  have hwhole : Stripped.replaceAll ansiSequence ⟨input, 0⟩ = ⟨input, 0⟩ := by
    rw [Stripped.replaceAll, hscan, render_map_inl, hits_map_inl]
  rw [strip, hwhole, foldCrlf_eq_self fun u hu ↦ (h u hu).classes.2.1]
  have hreturn : Stripped.replaceClass (isUnit 0x0D) ⟨input, 0⟩ = ⟨input, 0⟩ :=
    Stripped.replaceClass_eq_self fun u hu ↦ (h u hu).classes.2.1
  have hcontrol : Stripped.replaceClass controlChars ⟨input, 0⟩ = ⟨input, 0⟩ :=
    Stripped.replaceClass_eq_self fun u hu ↦ (h u hu).classes.2.2.1
  rw [hreturn, hcontrol]
  exact Stripped.replaceClass_eq_self fun u hu ↦ (h u hu).classes.2.2.2

/-! ### The cut -/

/-- The text is within the limit. -/
def Fits (maxLength : Option ℤ) (t : Text) : Prop := ∀ max ∈ maxLength, t.length ≤ max

theorem truncate_of_fits {maxLength : Option ℤ} {t : Text} (h : Fits maxLength t) :
    truncate maxLength t = (t, false) := by
  cases maxLength with
  | none => rfl
  | some max => exact if_neg (Int.not_lt.mpr (h max rfl))

theorem fits_of_truncate {maxLength : Option ℤ} {t : Text}
    (h : (truncate maxLength t).2 = false) : Fits maxLength t := by
  rintro max hmax
  rw [Option.mem_def.mp hmax, truncate] at h
  by_contra hlt
  rw [if_pos (Int.not_le.mp hlt)] at h
  cases h

/-- A letter the mark of a cut is written with. -/
def isPrinted (u : CodeUnit) : Bool := isBetween 0x20 0x7E u || isUnit 0x2026 u

theorem Harmless.of_isPrinted {multiline : Option Bool} {u : CodeUnit} (h : isPrinted u = true) :
    Harmless multiline u := by
  simp only [isPrinted, isBetween, isUnit, Bool.or_eq_true, decide_eq_true_eq] at h
  refine .of_classes ?_ ?_ fun _ ↦ by omega
  · simp only [controlChars, isBetween, Bool.or_eq_false_iff, decide_eq_false_iff_not]
    omega
  · simp only [deceptiveUnicode, isBetween, isUnit, Bool.or_eq_false_iff, decide_eq_false_iff_not]
    omega

theorem isPrinted_digits {n : ℕ} : ∀ u ∈ ofChars (Nat.toDigits 10 n), isPrinted u = true := by
  intro u hu
  obtain ⟨c, hc, hu⟩ := List.mem_flatMap.mp hu
  have hdigit := Nat.isDigit_of_mem_toDigits (by decide) (by decide) hc
  simp only [Char.isDigit, Bool.and_eq_true, decide_eq_true_eq] at hdigit
  have hle : 48 ≤ c.toNat ∧ c.toNat ≤ 57 := ⟨hdigit.1, hdigit.2⟩
  rw [ofChar, if_pos (by omega)] at hu
  simp only [isPrinted, isBetween, Bool.or_eq_true, decide_eq_true_eq]
  rw [List.mem_singleton.mp hu, Fin.val_ofNat]
  omega

theorem harmless_truncationMark {multiline : Option Bool} {missing : ℕ} :
    ∀ u ∈ truncationMark missing, Harmless multiline u := by
  have hopen : (ofString "… [truncated ").all isPrinted = true := by decide
  have hclose : (ofString " chars]").all isPrinted = true := by decide
  rw [truncationMark, List.forall_mem_append, List.forall_mem_append]
  exact ⟨⟨fun u hu ↦ .of_isPrinted (List.all_eq_true.mp hopen u hu), fun u hu ↦
    .of_isPrinted (isPrinted_digits u hu)⟩, fun u hu ↦
    .of_isPrinted (List.all_eq_true.mp hclose u hu)⟩

theorem harmless_truncate {multiline : Option Bool} {maxLength : Option ℤ} {t : Text}
    (h : ∀ u ∈ t, Harmless multiline u) :
    ∀ u ∈ (truncate maxLength t).1, Harmless multiline u := by
  cases maxLength with
  | none => exact h
  | some max =>
    rw [truncate]
    split
    · exact List.forall_mem_append.mpr ⟨fun u hu ↦ h u (List.mem_of_mem_take hu),
        harmless_truncationMark⟩
    · exact h

/-! ## What sanitizing does -/

theorem harmless_joinLines {multiline : Option Bool} {input : Text} :
    ∀ u ∈ joinLines multiline (strip input).text, Harmless multiline u := by
  intro u hu
  rw [joinLines] at hu
  split at hu
  · obtain ⟨v, hv, rfl⟩ := List.mem_map.mp hu
    obtain ⟨-, hcontrol, hdeceptive⟩ := classes_of_mem_strip hv
    split
    · exact .of_classes (by decide) (by decide) fun _ ↦ by decide
    · rename_i hne
      exact .of_classes hcontrol hdeceptive fun _ heq ↦ hne (decide_eq_true heq)
  · rename_i hmultiline
    obtain ⟨-, hcontrol, hdeceptive⟩ := classes_of_mem_strip hu
    exact .of_classes hcontrol hdeceptive fun h ↦ absurd h hmultiline

theorem joinLines_eq_self {multiline : Option Bool} {t : Text}
    (h : ∀ u ∈ t, Harmless multiline u) : joinLines multiline t = t := by
  rw [joinLines]
  split
  · rename_i hmultiline
    refine (List.map_congr_left fun u hu ↦ ?_).trans (List.map_id _)
    rw [isUnit, decide_eq_false ((h u hu).line hmultiline), if_neg Bool.false_ne_true, id]
  · rfl

/-- The text as it was, with nothing to tell about it. -/
def untouched (input : Text) (origin : TextOrigin) : SanitizeResult where
  text := input
  modified := false
  strippedControlSequences := 0
  truncated := false
  origin := origin

/-- What sanitizing promises of a text. -/
structure Sanitizes (input : Text) (options : SanitizeOptions) : Prop where
  harmless : ∀ u ∈ (sanitize input options).text, Harmless options.multiline u
  again : (sanitize input options).truncated = false →
    sanitize (sanitize input options).text options =
      untouched (sanitize input options).text options.origin
  verbatim : (∀ u ∈ input, Harmless options.multiline u) → Fits options.maxLength input →
    sanitize input options = untouched input options.origin

theorem sanitize_eq_untouched {input : Text} {options : SanitizeOptions}
    (h : ∀ u ∈ input, Harmless options.multiline u) (hfits : Fits options.maxLength input) :
    sanitize input options = untouched input options.origin := by
  rw [sanitize, strip_eq_self h]
  simp only [joinLines_eq_self h, truncate_of_fits hfits]
  rfl

/-- **Sanitizing.** Whatever comes in, what goes out is harmless. Unless it was cut it stays as it
is when it is sanitized again, and a harmless text that fits is left alone. -/
theorem sanitize_sanitizes (input : Text) (options : SanitizeOptions) :
    Sanitizes input options := by
  have hharmless : ∀ u ∈ (sanitize input options).text, Harmless options.multiline u :=
    harmless_truncate harmless_joinLines
  refine ⟨hharmless, fun hcut ↦ ?_, sanitize_eq_untouched⟩
  have hfits := fits_of_truncate (t := joinLines options.multiline (strip input).text) hcut
  refine sanitize_eq_untouched hharmless ?_
  change Fits options.maxLength (truncate options.maxLength _).1
  rwa [truncate_of_fits hfits]

end QwenHarness
