import QwenHarness.Pattern.Regex
import QwenHarness.Protocol.Sanitize

/-!
# Arguments of a skill

The body of a skill has places for arguments, which come from a user or a model. What is put there
is neutralized first: line ends become spaces, letters that could forge structure go, and the rest
is cut and trimmed. The body is read once, from left to right, and what is put is not read again.

The class of letters that go was written down by ranges. The Arabic letter mark, which changes the
direction of what follows, is in none of them.
-/

namespace QwenHarness.Skills

open Pattern Utf16

/-! ## Neutralizing -/

/-- `ARGUMENT_STRUCTURE_RE`. -/
def argumentStructure (u : CodeUnit) : Bool :=
  isBetween 0x00 0x1F u || isBetween 0x7F 0x9F u || isUnit 0x2028 u || isUnit 0x2029 u ||
    isBetween 0x200B 0x200F u || isBetween 0x202A 0x202E u || isBetween 0x2060 0x2064 u ||
    isBetween 0x2066 0x206F u || isUnit 0xFEFF u

def maxArgumentChars : ℕ := 4096

/-- `value.replace(/\r\n?|\n/g, ' ')`. -/
def collapseLines : Text → Text
  | [] => []
  | [u] => [if isUnit 0x0D u || isUnit 0x0A u then 0x20 else u]
  | u :: v :: t =>
    if isUnit 0x0D u && isUnit 0x0A v then 0x20 :: collapseLines t
    else (if isUnit 0x0D u || isUnit 0x0A u then 0x20 else u) :: collapseLines (v :: t)

/-- The letters of an argument that stay, before it is cut. -/
def collapsed (value : Text) : Text := (collapseLines value).filter fun u ↦ !argumentStructure u

def neutralizeArgument (value : Text) : Text :=
  let collapsed := collapsed value
  let bounded :=
    if maxArgumentChars < collapsed.length then collapsed.take maxArgumentChars else collapsed
  trim bounded

/-! ## Substituting -/

/-- `$ARGUMENTS`, and `$1` to `$9`. -/
inductive Placeholder where
  | arguments
  | positional (index : Fin 9)
deriving DecidableEq, Repr

def Placeholder.word : Placeholder → Text
  | .arguments => ofString "$ARGUMENTS"
  | .positional index => [0x24, Fin.ofNat _ (0x31 + index.val)]

/-- `PLACEHOLDER_RE`, with the number of units that it takes. -/
def placeholderRe (c : Cursor CodeUnit) : Option (ℕ × Placeholder) :=
  if Placeholder.arguments.word <+: c.rest then some (10, .arguments)
  else
    ((List.finRange 9).find? fun index ↦ (Placeholder.positional index).word <+: c.rest).map
      fun index ↦ (2, .positional index)

/-- What is put in a place, if there is an argument for it. -/
def Placeholder.value (safe : List Text) : Placeholder → Option Text
  | .arguments => if safe = [] then none else some ([0x20].intercalate safe)
  | .positional index => safe[index.val]?

structure ArgumentSubstitution where
  text : Text
  /-- Placeholders that were filled. -/
  substituted : List Text
  /-- Placeholders without an argument. -/
  missing : List Text
  neutralized : Bool
deriving DecidableEq, Repr

def substituteArguments (body : Text) (args : List Text) : ArgumentSubstitution :=
  let safe := args.map neutralizeArgument
  let found := scan placeholderRe 0 none body
  let places := found.filterMap Sum.getRight?
  { text := render (fun place ↦ (place.value safe).getD []) found
    substituted := (places.filter fun place ↦ (place.value safe).isSome).map Placeholder.word
    missing := (places.filter fun place ↦ (place.value safe).isNone).map Placeholder.word
    neutralized := decide (safe ≠ args) }

/-! ## What an argument must not bring -/

/-- Everything that ends a line. -/
def isLineBreak (u : CodeUnit) : Bool :=
  isBetween 0x0A 0x0D u || isUnit 0x85 u || isUnit 0x2028 u || isUnit 0x2029 u

/-- The property `Bidi_Control`. -/
def isBidiControl (u : CodeUnit) : Bool :=
  isUnit 0x061C u || isUnit 0x200E u || isUnit 0x200F u || isBetween 0x202A 0x202E u ||
    isBetween 0x2066 0x2069 u

def isForbidden (u : CodeUnit) : Bool := isLineBreak u || isControl u || isBidiControl u

/-- The Arabic letter mark. -/
def arabicLetterMark : CodeUnit := 0x061C

/-- What is put in a place: the arguments as they are neutralized, or nothing. -/
def Placeholder.fill (args : List Text) : Placeholder → Text
  | .arguments => [0x20].intercalate (args.map neutralizeArgument)
  | .positional index => (args[index.val]?.map neutralizeArgument).getD []

/-- The text is the body with its places filled, no argument brings anything forbidden, and the
lines are those of the body. -/
def Substitutes (body : Text) (args : List Text) (text : Text) : Prop :=
  ∃ found, Scans Placeholder.word body found ∧
    text = render (Placeholder.fill args) found ∧
    (∀ place, .inr place ∈ found → ∀ u ∈ place.fill args, isForbidden u = false) ∧
    body.splitOnP isLineBreak =
      (found.splitOnP (copied isLineBreak)).map (render Placeholder.word) ∧
    text.splitOnP isLineBreak =
      (found.splitOnP (copied isLineBreak)).map (render (Placeholder.fill args))

/-- The arguments that a place takes. -/
def Placeholder.args (args : List Text) : Placeholder → List Text
  | .arguments => args
  | .positional index => args[index.val]?.toList

/-- Before every Arabic letter mark stands as much as an argument may have. -/
def KeepsNoMark (arg : Text) : Prop :=
  ∀ before after, arg = before ++ arabicLetterMark :: after →
    maxArgumentChars ≤ (collapsed before).length

/-! ## Reading the body -/

section Read

variable {args : List Text} {place place' : Placeholder} {body : Text}

theorem Placeholder.word_ne_nil (place : Placeholder) : place.word ≠ [] := by
  cases place with
  | arguments => decide
  | positional index => exact List.cons_ne_nil _ _

/-- No placeholder begins another. -/
theorem Placeholder.eq_of_prefix (h : place.word <+: place'.word) : place = place' := by
  have hall : ∀ i j : Fin 9, (positional i).word <+: (positional j).word → i = j := by decide
  have hnot : ∀ i : Fin 9, ¬ (positional i).word <+: arguments.word ∧
      ¬ arguments.word <+: (positional i).word := by decide
  cases place with
  | arguments =>
    cases place' with
    | arguments => rfl
    | positional j => exact absurd h (hnot j).2
  | positional i =>
    cases place' with
    | arguments => exact absurd h (hnot i).1
    | positional j => rw [hall i j h]

theorem finds_placeholderRe : Finds Placeholder.word placeholderRe where
  ne_nil := Placeholder.word_ne_nil
  taken c n place h := by
    rw [placeholderRe] at h
    split_ifs at h with harguments
    · obtain ⟨rfl, rfl⟩ := Prod.mk.inj (Option.some.inj h)
      exact ⟨harguments, rfl⟩
    · obtain ⟨index, hfind, heq⟩ := Option.map_eq_some_iff.mp h
      obtain ⟨rfl, rfl⟩ := Prod.mk.inj heq
      have hword : (Placeholder.positional index).word <+: c.rest := by
        simpa using List.find?_some hfind
      exact ⟨hword, rfl⟩
  absent c h place := by
    rw [placeholderRe] at h
    split_ifs at h with harguments
    cases place with
    | arguments => exact harguments
    | positional index =>
      have hnone := List.find?_eq_none.mp (Option.map_eq_none_iff.mp h) index
        (List.mem_finRange index)
      simpa using hnone

theorem scans_placeholderRe (body : Text) :
    Scans Placeholder.word body (scan placeholderRe 0 none body) :=
  finds_placeholderRe.scans 0 none body

theorem value_getD : (place.value (args.map neutralizeArgument)).getD [] = place.fill args := by
  cases place with
  | arguments =>
    rw [Placeholder.value, Placeholder.fill]
    split_ifs with h
    · rw [h]
      rfl
    · rfl
  | positional index =>
    rw [Placeholder.value, Placeholder.fill, List.getElem?_map]

theorem substituteArguments_text : (substituteArguments body args).text =
    render (Placeholder.fill args) (scan placeholderRe 0 none body) :=
  congrArg (fun put ↦ render put (scan placeholderRe 0 none body)) (funext fun _ ↦ value_getD)

/-- A placeholder is no line break. -/
theorem Placeholder.isLineBreak_word (place : Placeholder) :
    ∀ u ∈ place.word, isLineBreak u = false := by
  have hall : ∀ i : Fin 9, (positional i).word.all (fun u ↦ !isLineBreak u) = true := by
    decide +kernel
  have harguments : arguments.word.all (fun u ↦ !isLineBreak u) = true := by decide +kernel
  intro u hu
  cases place with
  | arguments => simpa using List.all_eq_true.mp harguments u hu
  | positional index => simpa using List.all_eq_true.mp (hall index) u hu

end Read

/-! ## What an argument brings -/

section Bring

variable {args : List Text} {place : Placeholder} {body value t : Text} {u : CodeUnit} {n : ℕ}

theorem mem_of_mem_trim (h : u ∈ trim t) : u ∈ t :=
  (List.dropWhile_sublist _).subset ((List.rdropWhile_prefix _ _).subset h)

/-- Trimming takes spaces only. -/
theorem mem_trim_of_not_isSpace (hspace : isSpace u = false) (h : u ∈ t) : u ∈ trim t := by
  have hne : ¬ isSpace u = true := by rw [hspace]; exact Bool.false_ne_true
  have hleft : u ∈ t.dropWhile isSpace := by
    rw [← List.takeWhile_append_dropWhile (p := isSpace) (l := t)] at h
    exact (List.mem_append.mp h).resolve_left fun h ↦ hne (List.mem_takeWhile_imp h)
  rw [← List.rdropWhile_append_rtakeWhile (p := isSpace) (l := t.dropWhile isSpace)] at hleft
  exact (List.mem_append.mp hleft).resolve_right fun h ↦ hne (List.mem_rtakeWhile_imp h)

theorem neutralizeArgument_eq : neutralizeArgument value =
    trim ((collapsed value).take maxArgumentChars) := by
  rw [neutralizeArgument]
  split_ifs with h
  · rfl
  · rw [List.take_of_length_le (not_lt.mp h)]

/-- Everything that stays and is forbidden is the mark. -/
theorem eq_arabicLetterMark (hforbidden : isForbidden u = true)
    (hstays : argumentStructure u = false) : u = arabicLetterMark := by
  simp [isForbidden, isLineBreak, isControl, isBidiControl, argumentStructure, isBetween, isUnit]
    at hforbidden hstays
  rw [Fin.ext_iff]
  change u.val = 0x061C
  omega

theorem eq_of_mem_neutralizeArgument (h : u ∈ neutralizeArgument value)
    (hforbidden : isForbidden u = true) : u = arabicLetterMark := by
  rw [neutralizeArgument_eq] at h
  have hstays := (List.mem_filter.mp (List.mem_of_mem_take (mem_of_mem_trim h))).2
  exact eq_arabicLetterMark hforbidden (by simpa using hstays)

theorem collapseLines_append_mark (before after : Text) :
    collapseLines (before ++ arabicLetterMark :: after) =
      collapseLines before ++ arabicLetterMark :: collapseLines after := by
  have hmark : collapseLines (arabicLetterMark :: after) =
      arabicLetterMark :: collapseLines after := by
    cases after with
    | nil => rfl
    | cons v after => rfl
  induction before using collapseLines.induct with
  | case1 => exact hmark
  | case2 u =>
    have hpair : collapseLines (u :: arabicLetterMark :: after) =
        (if isUnit 0x0D u || isUnit 0x0A u then 0x20 else u) ::
          collapseLines (arabicLetterMark :: after) := by
      rw [collapseLines, if_neg]
      rw [Bool.and_eq_true]
      exact fun h ↦ absurd h.2 (by decide)
    rw [List.singleton_append, hpair, hmark]
    rfl
  | case3 u v t h ih =>
    rw [List.cons_append, List.cons_append, collapseLines, if_pos h, ih, collapseLines, if_pos h,
      List.cons_append]
  | case4 u v t h ih =>
    rw [List.cons_append, List.cons_append, collapseLines, if_neg h, ← List.cons_append, ih,
      collapseLines, if_neg h, List.cons_append]

theorem collapsed_append_mark (before after : Text) :
    collapsed (before ++ arabicLetterMark :: after) =
      collapsed before ++ arabicLetterMark :: collapsed after := by
  rw [collapsed, collapseLines_append_mark, List.filter_append,
    List.filter_cons_of_pos (by decide)]
  rfl

/-- A mark that is left was there. -/
theorem mem_of_mem_collapseLines (h : arabicLetterMark ∈ collapseLines value) :
    arabicLetterMark ∈ value := by
  have hkept : ∀ {u : CodeUnit},
      arabicLetterMark = (if isUnit 0x0D u || isUnit 0x0A u then 0x20 else u) →
        arabicLetterMark = u := by
    intro u hu
    split_ifs at hu
    · exact absurd hu (by decide)
    · exact hu
  induction value using collapseLines.induct with
  | case1 => exact h
  | case2 u => exact List.mem_singleton.mpr (hkept (List.mem_singleton.mp h))
  | case3 u v t hcrlf ih =>
    rw [collapseLines, if_pos hcrlf] at h
    exact List.mem_cons_of_mem _ (List.mem_cons_of_mem _
      (ih ((List.mem_cons.mp h).resolve_left (by decide))))
  | case4 u v t hcrlf ih =>
    rw [collapseLines, if_neg hcrlf] at h
    rcases List.mem_cons.mp h with h | h
    · rw [← hkept h]
      exact List.mem_cons_self
    · exact List.mem_cons_of_mem _ (ih h)

/-- A mark stays just if not enough stands before it. -/
theorem mark_not_mem_neutralizeArgument_iff :
    arabicLetterMark ∉ neutralizeArgument value ↔ KeepsNoMark value := by
  have hmem : arabicLetterMark ∈ neutralizeArgument value ↔
      arabicLetterMark ∈ (collapsed value).take maxArgumentChars := by
    rw [neutralizeArgument_eq]
    exact ⟨mem_of_mem_trim, mem_trim_of_not_isSpace (by decide)⟩
  rw [hmem]
  constructor
  · intro h before after heq
    by_contra hlt
    refine h ?_
    rw [heq, collapsed_append_mark, List.take_append]
    refine List.mem_append_right _ ?_
    obtain ⟨k, hk⟩ : ∃ k, maxArgumentChars - (collapsed before).length = k + 1 :=
      Nat.exists_eq_succ_of_ne_zero (by omega)
    rw [hk, List.take_succ_cons]
    exact List.mem_cons_self
  · intro h hmark
    have hin : arabicLetterMark ∈ value :=
      mem_of_mem_collapseLines (List.mem_filter.mp (List.mem_of_mem_take hmark)).1
    -- The first mark of the argument is the first that is left.
    obtain ⟨before, after, rfl, hfirst⟩ := List.eq_append_cons_of_mem hin
    have hlong := h before after rfl
    rw [collapsed_append_mark, List.take_append_of_le_length hlong] at hmark
    exact hfirst (mem_of_mem_collapseLines (List.mem_filter.mp (List.mem_of_mem_take hmark)).1)

theorem mem_intercalate_space {parts : List Text} (h : u ∈ ([0x20] : Text).intercalate parts) :
    u = 0x20 ∨ ∃ part ∈ parts, u ∈ part := by
  induction parts with
  | nil => cases h
  | cons part parts ih =>
    rcases eq_or_ne parts [] with rfl | hne
    · rw [List.intercalate_singleton] at h
      exact .inr ⟨part, List.mem_cons_self, h⟩
    · rw [List.intercalate_cons_of_ne_nil hne, List.mem_append, List.mem_append,
        List.mem_singleton] at h
      rcases h with (h | h) | h
      · exact .inr ⟨part, List.mem_cons_self, h⟩
      · exact .inl h
      · exact (ih h).imp_right fun ⟨p, hp, hu⟩ ↦ ⟨p, List.mem_cons_of_mem _ hp, hu⟩

theorem mem_intercalate_of_mem {parts : List Text} {part : Text} (hpart : part ∈ parts)
    (h : u ∈ part) : u ∈ ([0x20] : Text).intercalate parts := by
  induction parts with
  | nil => cases hpart
  | cons first parts ih =>
    rcases eq_or_ne parts [] with rfl | hne
    · rwa [List.intercalate_singleton, ← List.mem_singleton.mp hpart]
    · rw [List.intercalate_cons_of_ne_nil hne, List.mem_append, List.mem_append]
      rcases List.mem_cons.mp hpart with rfl | hpart
      · exact .inl (.inl h)
      · exact .inr (ih hpart)

theorem mem_fill (h : u ∈ place.fill args) :
    u = 0x20 ∨ ∃ arg ∈ place.args args, u ∈ neutralizeArgument arg := by
  cases place with
  | arguments =>
    obtain rfl | ⟨part, hpart, hu⟩ := mem_intercalate_space h
    · exact .inl rfl
    · obtain ⟨arg, harg, rfl⟩ := List.mem_map.mp hpart
      exact .inr ⟨arg, harg, hu⟩
  | positional index =>
    rw [Placeholder.fill] at h
    cases harg : args[index.val]? with
    | none =>
      rw [harg] at h
      cases h
    | some arg =>
      rw [harg] at h
      refine .inr ⟨arg, ?_, h⟩
      rw [Placeholder.args, harg]
      exact List.mem_singleton_self _

theorem mem_fill_of_mem {arg : Text} (harg : arg ∈ place.args args)
    (h : u ∈ neutralizeArgument arg) : u ∈ place.fill args := by
  cases place with
  | arguments => exact mem_intercalate_of_mem (List.mem_map_of_mem harg) h
  | positional index =>
    rw [Placeholder.args] at harg
    rw [Placeholder.fill, Option.mem_toList.mp harg]
    exact h

/-- What a place brings is not forbidden just if none of its arguments keeps a mark. -/
theorem fill_iff : (∀ u ∈ place.fill args, isForbidden u = false) ↔
    ∀ arg ∈ place.args args, KeepsNoMark arg := by
  constructor
  · intro h arg harg
    rw [← mark_not_mem_neutralizeArgument_iff]
    exact fun hmark ↦ absurd (h _ (mem_fill_of_mem harg hmark)) (by decide)
  · intro h u hu
    rcases mem_fill hu with rfl | ⟨arg, harg, hu⟩
    · decide
    · rw [Bool.eq_false_iff]
      intro hforbidden
      obtain rfl := eq_of_mem_neutralizeArgument hu hforbidden
      exact mark_not_mem_neutralizeArgument_iff.mpr (h arg harg) hu

theorem isLineBreak_of_isForbidden (h : isForbidden u = false) : isLineBreak u = false := by
  rw [isForbidden, Bool.or_eq_false_iff, Bool.or_eq_false_iff] at h
  exact h.1.1

/-- **What is substituted.** The text is the body with its places filled, and the arguments bring
nothing that could forge structure, just if in no argument that the body uses an Arabic letter mark
stands before the place where the argument is cut. -/
theorem substitutes_iff (body : Text) (args : List Text) :
    Substitutes body args (substituteArguments body args).text ↔
      ∀ found, Scans Placeholder.word body found → ∀ place, .inr place ∈ found →
        ∀ arg ∈ place.args args, KeepsNoMark arg := by
  constructor
  · rintro ⟨found, hscans, -, hfill, -⟩ found' hscans' place hplace
    rw [← fill_iff]
    rw [hscans'.unique Placeholder.word_ne_nil (fun _ _ ↦ Placeholder.eq_of_prefix) hscans]
      at hplace
    exact hfill place hplace
  · intro h
    have hfill : ∀ place, .inr place ∈ scan placeholderRe 0 none body →
        ∀ u ∈ place.fill args, isForbidden u = false := fun place hplace ↦
      fill_iff.mpr (h _ (scans_placeholderRe body) place hplace)
    refine ⟨_, scans_placeholderRe body, substituteArguments_text, hfill, ?_, ?_⟩
    · rw [← splitOnP_render fun place _ ↦ place.isLineBreak_word,
        (scans_placeholderRe body).render_word]
    · rw [substituteArguments_text]
      exact splitOnP_render fun place hplace u hu ↦
        isLineBreak_of_isForbidden (hfill place hplace u hu)

/-- A mark is put where it was not before. -/
theorem not_substitutes_mark : ¬ Substitutes [0x24, 0x31] [[arabicLetterMark]]
    (substituteArguments [0x24, 0x31] [[arabicLetterMark]]).text := by
  rw [substitutes_iff]
  intro h
  have hfound : Scans Placeholder.word [0x24, 0x31] [.inr (.positional 0)] :=
    .hit (Placeholder.positional 0) .nil
  have hkeeps := h _ hfound (.positional 0) List.mem_cons_self [arabicLetterMark]
    (List.mem_singleton_self _) [] [] rfl
  exact absurd hkeeps (by decide)

end Bring

end QwenHarness.Skills
