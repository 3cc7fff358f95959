import Mathlib.Data.List.Lex
import Mathlib.Data.Prod.Lex
import Mathlib.Data.Rat.Floor
import QwenHarness.Codec.Delimited
import QwenHarness.Codec.Utf16
import QwenHarness.Table.Ranked

/-!
# The catalog of skills

The catalog is what the model sees before it selects a skill. Rows come in the order of their
sources' precedence and then of their names, and are admitted while they fit a budget of tokens;
every skill that is left out is named.

A row is paid when it is admitted, each rounded up on its own, but the line breaks between the rows
are not. The text is within the budget if and only if what rounding leaves over, together with what
of the budget is not spent, has room for them.
-/

/-!
## Token accounting

Budgets are spent in estimated tokens: four code units a token, rounded up. A body that costs more
than its budget is cut at a line and ends with a marker. The marker is added even where the budget
does not pay for it, so a cut body is within its budget if and only if the marker alone is.
-/

namespace QwenHarness.Skills

open Utf16

def CHARS_PER_TOKEN : ℕ := 4

/-- Deterministic token estimate. -/
def estimateTokens (text : Text) : ℕ :=
  if text.length = 0 then 0 else (text.length + CHARS_PER_TOKEN - 1) / CHARS_PER_TOKEN

/-- `Math.max(0, Math.floor(tokens))`. -/
def wholeTokens (tokens : ℚ) : ℕ := (max 0 ⌊tokens⌋).toNat

/-- The character budget that corresponds to a token budget. -/
def tokensToChars (tokens : ℚ) : ℕ := wholeTokens tokens * CHARS_PER_TOKEN

/-- The marker appended to any truncated body. -/
def TRUNCATION_MARKER : Text :=
  ofString "\n\n[skill body truncated: loaded-content token budget reached]"

/-- Where a unit stands last. -/
def lastIndexOf (u : CodeUnit) : Text → Option ℕ
  | [] => none
  | v :: t =>
    match lastIndexOf u t with
    | some i => some (i + 1)
    | none => if v == u then some 0 else none

structure TruncatedText where
  text : Text
  tokens : ℕ
  truncated : Bool
  originalTokens : ℕ
deriving DecidableEq, Repr

/-- The head up to its last line break, unless nothing stands before that. -/
def cutAtLine (head : Text) : Text :=
  match lastIndexOf 0x0A head with
  | none => head
  | some lastNewline => if 0 < lastNewline then head.take lastNewline else head

/-- Truncate text to a token budget. -/
def truncateToTokens (text : Text) (budgetTokens : ℚ) : TruncatedText :=
  let originalTokens := estimateTokens text
  if (originalTokens : ℚ) ≤ budgetTokens then ⟨text, originalTokens, false, originalTokens⟩
  else
    let maxChars := tokensToChars budgetTokens - TRUNCATION_MARKER.length
    let out := cutAtLine (text.take maxChars) ++ TRUNCATION_MARKER
    ⟨out, estimateTokens out, true, originalTokens⟩

/-! ## What a text costs -/

variable {text : Text} {n : ℕ} {budget : ℚ}

theorem estimateTokens_le_iff : estimateTokens text ≤ n ↔ text.length ≤ n * CHARS_PER_TOKEN := by
  rw [estimateTokens, CHARS_PER_TOKEN]
  split_ifs with hempty
  · omega
  · omega

/-- A whole number of tokens is within a budget if and only if it is within its whole part. -/
theorem cast_le_iff (h : 0 < n ∨ 0 ≤ budget) : (n : ℚ) ≤ budget ↔ n ≤ wholeTokens budget := by
  have hfloor : (n : ℤ) ≤ ⌊budget⌋ ↔ (n : ℚ) ≤ budget := by rw [Int.le_floor, Int.cast_natCast]
  have hsign : 0 < n ∨ 0 ≤ ⌊budget⌋ := h.imp_right Int.floor_nonneg.mpr
  rw [← hfloor, wholeTokens]
  omega

theorem estimateTokens_le_budget_iff (h : text ≠ [] ∨ 0 ≤ budget) :
    (estimateTokens text : ℚ) ≤ budget ↔ text.length ≤ tokensToChars budget := by
  have hpos : 0 < estimateTokens text ∨ 0 ≤ budget := by
    refine h.imp_left fun hne ↦ Nat.pos_of_ne_zero fun hzero ↦ hne ?_
    have hlength := estimateTokens_le_iff.mp (Nat.le_of_eq hzero)
    rw [Nat.zero_mul] at hlength
    exact List.eq_nil_of_length_eq_zero (Nat.le_zero.mp hlength)
  rw [cast_le_iff hpos, estimateTokens_le_iff, tokensToChars]

/-! ## Truncation -/

theorem length_cutAtLine_le (head : Text) : (cutAtLine head).length ≤ head.length := by
  rw [cutAtLine]
  split
  · exact Nat.le_refl _
  · split_ifs
    · exact List.length_take_le' _ _
    · exact Nat.le_refl _

/-- **Truncation.** What is cut is within the budget if and only if the marker is. -/
theorem truncateToTokens_within_iff (text : Text) (budget : ℚ) :
    (estimateTokens (truncateToTokens text budget).text : ℚ) ≤ budget ↔
      (estimateTokens text : ℚ) ≤ budget ∨ (estimateTokens TRUNCATION_MARKER : ℚ) ≤ budget := by
  have hmarker : TRUNCATION_MARKER ≠ [] := by decide
  rw [truncateToTokens]
  split_ifs with hfits
  · exact iff_of_true hfits (.inl hfits)
  · have hout := List.append_ne_nil_of_right_ne_nil
      (cutAtLine (text.take (tokensToChars budget - TRUNCATION_MARKER.length))) hmarker
    rw [or_iff_right hfits, estimateTokens_le_budget_iff (.inl hout),
      estimateTokens_le_budget_iff (.inl hmarker), List.length_append]
    have hcut := length_cutAtLine_le
      (text.take (tokensToChars budget - TRUNCATION_MARKER.length))
    rw [List.length_take] at hcut
    omega

end QwenHarness.Skills

namespace QwenHarness.Skills

open Utf16

/-! ## Skills -/

inductive SkillSource
  | managed | user | project | additionalDirectory | legacyCommand | bundled | plugin | mcp
  | dynamic | conditional
deriving DecidableEq, Repr

def SkillSource.text : SkillSource → Text
  | .managed => ofString "managed"
  | .user => ofString "user"
  | .project => ofString "project"
  | .additionalDirectory => ofString "additional-directory"
  | .legacyCommand => ofString "legacy-command"
  | .bundled => ofString "bundled"
  | .plugin => ofString "plugin"
  | .mcp => ofString "mcp"
  | .dynamic => ofString "dynamic"
  | .conditional => ofString "conditional"

/-- The precedence table. Higher wins. -/
def SOURCE_PRECEDENCE : SkillSource → ℤ
  | .managed => 1000
  | .dynamic => 900
  | .project => 800
  | .additionalDirectory => 700
  | .user => 600
  | .conditional => 500
  | .plugin => 400
  | .mcp => 300
  | .legacyCommand => 200
  | .bundled => 100

inductive SkillContextMode
  | inline | forked
deriving DecidableEq, Repr

def SkillContextMode.text : SkillContextMode → Text
  | .inline => ofString "inline"
  | .forked => ofString "forked"

structure SkillUserInvocation where
  command : Option Text
  argumentHint : Option Text
deriving DecidableEq, Repr

/-- What the catalog reads of the frontmatter. -/
structure SkillFrontmatter where
  description : Text
  condition : Option Text
  contextMode : SkillContextMode
  userInvocation : SkillUserInvocation
deriving DecidableEq, Repr

structure SkillDescriptor where
  name : Text
  source : SkillSource
  frontmatter : SkillFrontmatter
deriving DecidableEq, Repr

/-! ## Rows -/

/-- One catalog row. -/
structure CatalogEntry where
  name : Text
  description : Text
  condition : Option Text
  source : SkillSource
  contextMode : SkillContextMode
  command : Option Text
  argumentHint : Option Text
  tokens : ℕ
deriving DecidableEq, Repr

/-- `parts.join('\n')`. -/
def joinLines (parts : List Text) : Text := ([0x0A] : Text).intercalate parts

def renderCatalogEntry (entry : CatalogEntry) : Text :=
  joinLines
    ([ofString "- " ++ entry.name ++ ofString " [" ++ entry.source.text ++ ofString ", " ++
        entry.contextMode.text ++ ofString "]: " ++ entry.description] ++
      (match entry.condition with
        | none => []
        | some condition => [ofString "  use when: " ++ condition]) ++
      (match entry.command with
        | none => []
        | some command =>
          [ofString "  user command: /" ++ command ++
            (match entry.argumentHint with
              | none => []
              | some hint => ofString " " ++ hint)]))

def entryOf (descriptor : SkillDescriptor) : CatalogEntry :=
  let fm := descriptor.frontmatter
  let partialEntry : CatalogEntry :=
    { name := descriptor.name
      description := fm.description
      condition := fm.condition
      source := descriptor.source
      contextMode := fm.contextMode
      command := fm.userInvocation.command
      argumentHint := fm.userInvocation.argumentHint
      tokens := 0 }
  { partialEntry with tokens := estimateTokens (renderCatalogEntry partialEntry) }

/-! ## The catalog -/

inductive OmissionReason
  | catalogTokenBudget | conditionNotMet
deriving DecidableEq, Repr

structure CatalogOmission where
  name : Text
  source : SkillSource
  reason : OmissionReason
deriving DecidableEq, Repr

/-- The signal emitted when the budget binds. -/
structure SkillCatalogTruncated where
  «at» : ℕ
  budgetTokens : ℚ
  usedTokens : ℕ
  includedCount : ℕ
  omitted : List CatalogOmission
deriving DecidableEq, Repr

structure SkillCatalog where
  entries : List CatalogEntry
  text : Text
  tokens : ℕ
  truncated : Bool
  omitted : List CatalogOmission
  signal : Option SkillCatalogTruncated
deriving DecidableEq, Repr

def DEFAULT_CATALOG_TOKEN_BUDGET : ℚ := 4000

def CATALOG_HEADER : Text :=
  ofString "Available skills (invoke by NAME; the body loads only when you select one):"

/-- How two descriptors are compared: at most zero where the first may come first. -/
def compareDescriptors (a b : SkillDescriptor) : ℤ :=
  let rank := SOURCE_PRECEDENCE b.source - SOURCE_PRECEDENCE a.source
  if rank ≠ 0 then rank else if a.name < b.name then -1 else if b.name < a.name then 1 else 0

abbrev Precedes (a b : SkillDescriptor) : Prop := compareDescriptors a b ≤ 0

/-- `[...descriptors].sort(…)`, which is stable. -/
def ordered (descriptors : List SkillDescriptor) : List SkillDescriptor :=
  descriptors.insertionSort Precedes

/-- The rows admitted and left out so far. -/
structure Admission where
  entries : List CatalogEntry
  omitted : List CatalogOmission
  used : ℕ
  budgetBound : Bool
deriving DecidableEq, Repr

def omissionOf (descriptor : SkillDescriptor) : CatalogOmission :=
  ⟨descriptor.name, descriptor.source, .catalogTokenBudget⟩

/-- The loop of `buildCatalog` for one descriptor. -/
def admitRow (budgetTokens : ℚ) (s : Admission) (descriptor : SkillDescriptor) : Admission :=
  let entry := entryOf descriptor
  if s.budgetBound || decide (budgetTokens < (s.used + entry.tokens : ℕ)) then
    { s with omitted := s.omitted ++ [omissionOf descriptor], budgetBound := true }
  else { s with entries := s.entries ++ [entry], used := s.used + entry.tokens }

/-- Build the catalog. `now` is what the clock says. -/
def buildCatalog (descriptors : List SkillDescriptor) (budgetTokens : Option ℚ) (now : ℕ) :
    SkillCatalog :=
  let budgetTokens := budgetTokens.getD DEFAULT_CATALOG_TOKEN_BUDGET
  let s := (ordered descriptors).foldl (admitRow budgetTokens)
    ⟨[], [], estimateTokens CATALOG_HEADER, false⟩
  let text := joinLines (CATALOG_HEADER :: s.entries.map renderCatalogEntry)
  let tokens := estimateTokens text
  { entries := s.entries
    text
    tokens
    truncated := s.budgetBound
    omitted := s.omitted
    signal :=
      if s.budgetBound then some ⟨now, budgetTokens, tokens, s.entries.length, s.omitted⟩
      else none }

/-! ## The order -/

section Order

variable {a b : SkillDescriptor} {descriptors : List SkillDescriptor}

/-- What the descriptors are sorted by. -/
def sortKey (d : SkillDescriptor) : ℤᵒᵈ ×ₗ Text :=
  toLex (OrderDual.toDual (SOURCE_PRECEDENCE d.source), d.name)

theorem precedes_iff : Precedes a b ↔ sortKey a ≤ sortKey b := by
  rw [Precedes, compareDescriptors, sortKey, sortKey, Prod.Lex.toLex_le_toLex,
    OrderDual.toDual_lt_toDual, OrderDual.toDual_inj]
  rcases lt_trichotomy (SOURCE_PRECEDENCE a.source) (SOURCE_PRECEDENCE b.source) with h | h | h
  · rw [if_pos (sub_ne_zero.mpr h.ne')]
    exact iff_of_false (by omega) (not_or.mpr ⟨h.not_gt, fun hand ↦ h.ne hand.1⟩)
  · rw [if_neg (not_not.mpr (sub_eq_zero.mpr h.symm)), or_iff_right h.symm.not_lt,
      and_iff_right h]
    rcases lt_trichotomy a.name b.name with hname | hname | hname
    · rw [if_pos hname]
      exact iff_of_true (by decide) hname.le
    · rw [if_neg hname.not_lt, if_neg hname.symm.not_lt]
      exact iff_of_true le_rfl hname.le
    · rw [if_neg hname.not_gt, if_pos hname]
      exact iff_of_false (by decide) hname.not_ge
  · rw [if_pos (sub_ne_zero.mpr h.ne)]
    exact iff_of_true (by omega) (.inl h)

instance : IsTrans SkillDescriptor Precedes where
  trans a b c hab hbc := by
    rw [precedes_iff] at hab hbc ⊢
    exact hab.trans hbc

instance : Std.Total Precedes where
  total a b := by
    rw [precedes_iff, precedes_iff]
    exact le_total _ _

end Order

/-! ## What is admitted -/

section Admitted

variable {budget : ℚ} {l : List SkillDescriptor} {s : Admission}

/-- What a row costs. -/
def rowTokens (d : SkillDescriptor) : ℕ := (entryOf d).tokens

theorem rowTokens_eq (d : SkillDescriptor) :
    rowTokens d = estimateTokens (renderCatalogEntry (entryOf d)) := rfl

def isWithin (budget : ℚ) (tokens : ℕ) : Bool := decide ((tokens : ℚ) ≤ budget)

theorem isWithin_of_le {m n : ℕ} (hmn : m ≤ n) (h : isWithin budget n = true) :
    isWithin budget m = true := by
  rw [isWithin, decide_eq_true_iff] at h ⊢
  exact (Nat.cast_le.mpr hmn).trans h

/-- How many rows are admitted. -/
abbrev admitted (budget : ℚ) (used : ℕ) (l : List SkillDescriptor) : ℕ :=
  Ranked.taken rowTokens (isWithin budget) used l

/-- Nothing is admitted once the budget binds. -/
theorem foldl_admit_of_bound (h : s.budgetBound = true) :
    l.foldl (admitRow budget) s = { s with omitted := s.omitted ++ l.map omissionOf } := by
  induction l generalizing s with
  | nil => rw [List.foldl_nil, List.map_nil, List.append_nil]
  | cons d l ih =>
    have hstep : admitRow budget s d = { s with omitted := s.omitted ++ [omissionOf d] } := by
      rw [admitRow, h, Bool.true_or, if_pos rfl]
    have hrest := ih (s := { s with omitted := s.omitted ++ [omissionOf d] }) h
    rw [List.foldl_cons, hstep, hrest, List.map_cons, List.append_assoc, List.singleton_append]

/-- **The loop.** Rows are admitted while they fit, and all others are left out. -/
theorem foldl_admit (h : s.budgetBound = false) : l.foldl (admitRow budget) s =
    { entries := s.entries ++ (l.take (admitted budget s.used l)).map entryOf
      omitted := s.omitted ++ (l.drop (admitted budget s.used l)).map omissionOf
      used := Ranked.spent rowTokens s.used (l.take (admitted budget s.used l))
      budgetBound := decide (admitted budget s.used l < l.length) } := by
  induction l generalizing s with
  | nil =>
    obtain ⟨entries, omitted, used, budgetBound⟩ := s
    cases h
    rw [List.foldl_nil, List.take_nil, List.drop_nil, List.map_nil, List.map_nil,
      List.append_nil, List.append_nil]
    rfl
  | cons d l ih =>
    rw [List.foldl_cons, admitRow, h, Bool.false_or, admitted, Ranked.taken]
    by_cases hfits : isWithin budget (s.used + rowTokens d) = true
    · have hlt : decide (budget < (s.used + (entryOf d).tokens : ℕ)) = false :=
        decide_eq_false (not_lt.mpr (of_decide_eq_true hfits))
      have hcount : decide (admitted budget (s.used + rowTokens d) l + 1 < (d :: l).length) =
          decide (admitted budget (s.used + rowTokens d) l < l.length) :=
        decide_eq_decide.mpr Nat.add_lt_add_iff_right
      have hrest := ih (s := { s with
        entries := s.entries ++ [entryOf d]
        used := s.used + (entryOf d).tokens
        budgetBound := false }) rfl
      rw [if_neg (Bool.eq_false_iff.mp hlt), if_pos hfits, hrest, List.take_succ_cons,
        List.drop_succ_cons, List.map_cons, List.append_assoc, List.singleton_append,
        Ranked.spent_cons, hcount]
      rfl
    · have hlt : decide (budget < (s.used + (entryOf d).tokens : ℕ)) = true :=
        decide_eq_true (not_le.mp fun hle ↦ hfits (decide_eq_true hle))
      rw [if_pos hlt, if_neg hfits, foldl_admit_of_bound rfl, List.take_zero, List.drop_zero,
        List.map_cons, List.append_assoc, List.singleton_append, List.map_nil, List.append_nil]
      rfl

end Admitted

/-! ## What the catalog is -/

section Catalog

variable {descriptors : List SkillDescriptor} {budget : ℚ} {now n : ℕ}

def headerTokens : ℕ := estimateTokens CATALOG_HEADER

/-- The rows of the catalog, as many as are admitted. -/
abbrev includedCount (descriptors : List SkillDescriptor) (budget : ℚ) : ℕ :=
  admitted budget headerTokens (ordered descriptors)

/-- The text of the header and some rows. -/
def catalogText (l : List SkillDescriptor) : Text :=
  joinLines (CATALOG_HEADER :: l.map fun d ↦ renderCatalogEntry (entryOf d))

/-- The units behind the header: those of the rows, each with its line break. -/
def rowUnits (l : List SkillDescriptor) : Text :=
  l.flatMap fun d ↦ 0x0A :: renderCatalogEntry (entryOf d)

theorem catalogText_eq (l : List SkillDescriptor) :
    catalogText l = CATALOG_HEADER ++ rowUnits l := by
  rw [catalogText, joinLines, Codec.intercalate_cons, List.flatMap_map]
  rfl

/-- More rows make a longer text. -/
theorem length_catalogText_le {l l' : List SkillDescriptor} (h : l <+: l') :
    (catalogText l).length ≤ (catalogText l').length := by
  obtain ⟨rest, rfl⟩ := h
  rw [catalogText_eq, catalogText_eq, rowUnits, rowUnits, List.flatMap_append,
    List.length_append, List.length_append, List.length_append]
  exact Nat.add_le_add_left (Nat.le_add_right _ _) _

theorem buildCatalog_eq (descriptors : List SkillDescriptor) (budget : ℚ) (now : ℕ) :
    (buildCatalog descriptors (some budget) now).entries =
        ((ordered descriptors).take (includedCount descriptors budget)).map entryOf ∧
      (buildCatalog descriptors (some budget) now).omitted =
        ((ordered descriptors).drop (includedCount descriptors budget)).map omissionOf ∧
      (buildCatalog descriptors (some budget) now).text =
        catalogText ((ordered descriptors).take (includedCount descriptors budget)) := by
  rw [buildCatalog, Option.getD_some, foldl_admit rfl]
  refine ⟨rfl, rfl, ?_⟩
  rw [catalogText, List.nil_append, List.map_map]
  rfl

/-! ## What rounding leaves over -/

/-- What the rounding of a text's cost leaves over. -/
def rounding (text : Text) : ℕ := estimateTokens text * CHARS_PER_TOKEN - text.length

theorem length_add_rounding (text : Text) :
    text.length + rounding text = estimateTokens text * CHARS_PER_TOKEN :=
  Nat.add_sub_cancel' (estimateTokens_le_iff.mp (Nat.le_refl _))

/-- What rounding leaves over in the costs of the header and of some rows. -/
def roundings (l : List SkillDescriptor) : ℕ :=
  rounding CATALOG_HEADER + (l.map fun d ↦ rounding (renderCatalogEntry (entryOf d))).sum

theorem length_rowUnits (l : List SkillDescriptor) :
    (rowUnits l).length + (l.map fun d ↦ rounding (renderCatalogEntry (entryOf d))).sum =
      (l.map rowTokens).sum * CHARS_PER_TOKEN + l.length := by
  induction l with
  | nil => rfl
  | cons d l ih =>
    have hrow := length_add_rounding (renderCatalogEntry (entryOf d))
    rw [← rowTokens_eq] at hrow
    rw [rowUnits] at ih
    rw [rowUnits, List.flatMap_cons, List.map_cons, List.map_cons, List.sum_cons, List.sum_cons,
      List.length_append, List.length_cons, List.length_cons, Nat.add_mul]
    omega

/-- The text and what rounding leaves over are what is paid, together with the line breaks. -/
theorem length_catalogText (l : List SkillDescriptor) :
    (catalogText l).length + roundings l =
      Ranked.spent rowTokens headerTokens l * CHARS_PER_TOKEN + l.length := by
  have hheader := length_add_rounding CATALOG_HEADER
  have hrows := length_rowUnits l
  rw [catalogText_eq, List.length_append, roundings, Ranked.spent, Nat.add_mul, headerTokens]
  omega

/-- The line breaks before the first rows have room in what rounding leaves over and what of the
budget is not spent, for as many rows as can be paid. -/
def LineBreaksFit (descriptors : List SkillDescriptor) (budget : ℚ) : Prop :=
  ∀ n ≤ descriptors.length,
    (Ranked.spent rowTokens headerTokens ((ordered descriptors).take n) : ℚ) ≤ budget →
      n ≤ roundings ((ordered descriptors).take n) +
        (wholeTokens budget - Ranked.spent rowTokens headerTokens
          ((ordered descriptors).take n)) * CHARS_PER_TOKEN

theorem length_ordered (descriptors : List SkillDescriptor) :
    (ordered descriptors).length = descriptors.length := List.length_insertionSort _ _

/-- **The text and the budget.** -/
theorem text_within_iff (h : (headerTokens : ℚ) ≤ budget) :
    (estimateTokens (buildCatalog descriptors (some budget) now).text : ℚ) ≤ budget ↔
      LineBreaksFit descriptors budget := by
  have hsign : 0 ≤ budget := (Nat.cast_nonneg _).trans h
  have hheader : isWithin budget headerTokens = true := decide_eq_true h
  have hcount : includedCount descriptors budget ≤ (ordered descriptors).length :=
    Ranked.taken_le_length headerTokens (ordered descriptors)
  have hpaid : isWithin budget (Ranked.spent rowTokens headerTokens
      ((ordered descriptors).take (includedCount descriptors budget))) = true :=
    Ranked.fits_spent_taken (fun m n ↦ isWithin_of_le) hheader
  -- the text of some rows that are paid is within the budget if their line breaks are
  have hrows (n : ℕ) (hn : n ≤ (ordered descriptors).length)
      (hspent : (Ranked.spent rowTokens headerTokens ((ordered descriptors).take n) : ℚ) ≤ budget) :
      (catalogText ((ordered descriptors).take n)).length ≤ tokensToChars budget ↔
        n ≤ roundings ((ordered descriptors).take n) +
          (wholeTokens budget - Ranked.spent rowTokens headerTokens
            ((ordered descriptors).take n)) * CHARS_PER_TOKEN := by
    have hlength := length_catalogText ((ordered descriptors).take n)
    rw [cast_le_iff (.inr hsign)] at hspent
    rw [List.length_take, Nat.min_eq_left hn] at hlength
    rw [tokensToChars, CHARS_PER_TOKEN] at *
    omega
  rw [(buildCatalog_eq descriptors budget now).2.2, estimateTokens_le_budget_iff (.inr hsign)]
  constructor
  · intro htext n hn hspent
    rw [← length_ordered] at hn
    have hle : n ≤ includedCount descriptors budget :=
      (Ranked.le_taken_iff (fun m n ↦ isWithin_of_le) hheader hn).mpr (decide_eq_true hspent)
    refine (hrows n hn hspent).mp (le_trans (length_catalogText_le ?_) htext)
    exact List.take_prefix_take_left hle
  · intro hbreaks
    refine (hrows _ hcount (of_decide_eq_true hpaid)).mpr (hbreaks _ ?_ (of_decide_eq_true hpaid))
    exact length_ordered descriptors ▸ hcount

/-! ## Every skill once, and none pushed out from below -/

/-- The rows and then the omissions are the skills, sorted, and equals stay in their order. -/
def IsSplit (descriptors : List SkillDescriptor) (catalog : SkillCatalog) : Prop :=
  ∃ included omitted : List SkillDescriptor,
    catalog.entries = included.map entryOf ∧ catalog.omitted = omitted.map omissionOf ∧
      (included ++ omitted).Perm descriptors ∧ (included ++ omitted).Pairwise Precedes ∧
      ∀ c : List SkillDescriptor, c.Pairwise Precedes → c.Sublist descriptors →
        c.Sublist (included ++ omitted)

theorem isSplit_buildCatalog (descriptors : List SkillDescriptor) (budget : ℚ) (now : ℕ) :
    IsSplit descriptors (buildCatalog descriptors (some budget) now) := by
  obtain ⟨hentries, homitted, -⟩ := buildCatalog_eq descriptors budget now
  refine ⟨_, _, hentries, homitted, ?_⟩
  rw [List.take_append_drop]
  exact ⟨List.perm_insertionSort _ _, List.pairwise_insertionSort _ _,
    fun c hc hsub ↦ List.sublist_insertionSort hc hsub⟩

/-- A skill that is added, wherever in the list, leaves the rows of those that precede it. -/
def KeepsEarlier (descriptors : List SkillDescriptor) (budget : ℚ) (now : ℕ) : Prop :=
  ∀ l₁ d l₂, descriptors = l₁ ++ l₂ → ∃ earlier later : List SkillDescriptor,
    ordered (l₁ ++ d :: l₂) = earlier ++ d :: later ∧ ordered descriptors = earlier ++ later ∧
      (buildCatalog (l₁ ++ d :: l₂) (some budget) now).entries.take earlier.length =
        (buildCatalog descriptors (some budget) now).entries.take earlier.length

/-- The rows among the first skills depend on these skills alone. -/
theorem take_entries {earlier later : List SkillDescriptor}
    (h : ordered descriptors = earlier ++ later) :
    (buildCatalog descriptors (some budget) now).entries.take earlier.length =
      (earlier.take (admitted budget headerTokens earlier)).map entryOf := by
  have hcount : admitted budget headerTokens earlier ≤ earlier.length :=
    Ranked.taken_le_length headerTokens earlier
  rw [(buildCatalog_eq descriptors budget now).1, ← List.map_take, List.take_take, includedCount,
    admitted, h, Nat.min_comm, Ranked.min_taken_append, List.take_append_of_le_length hcount]

theorem keepsEarlier_buildCatalog (descriptors : List SkillDescriptor) (budget : ℚ) (now : ℕ) :
    KeepsEarlier descriptors budget now := by
  rintro l₁ d l₂ rfl
  obtain ⟨earlier, later, hwith, hwithout⟩ :=
    Ranked.exists_insertionSort_insert (r := Precedes) d l₁ l₂
  refine ⟨earlier, later, hwith, hwithout, ?_⟩
  rw [take_entries hwith, take_entries hwithout]

/-- **The catalog's budget.** Every skill is a row or an omission, in the stable order, and a skill
that is added pushes out none that precedes it. The text is within the budget if and only if its
line breaks fit, and a truncated text if and only if the marker does. -/
theorem catalog_within_iff (descriptors : List SkillDescriptor) (budget : ℚ) (now : ℕ)
    (text : Text) (textBudget : ℚ) (h : (headerTokens : ℚ) ≤ budget) :
    IsSplit descriptors (buildCatalog descriptors (some budget) now) ∧
      KeepsEarlier descriptors budget now ∧
      ((estimateTokens (buildCatalog descriptors (some budget) now).text : ℚ) ≤ budget ↔
        LineBreaksFit descriptors budget) ∧
      ((estimateTokens (truncateToTokens text textBudget).text : ℚ) ≤ textBudget ↔
        (estimateTokens text : ℚ) ≤ textBudget ∨
          (estimateTokens TRUNCATION_MARKER : ℚ) ≤ textBudget) :=
  ⟨isSplit_buildCatalog descriptors budget now, keepsEarlier_buildCatalog descriptors budget now,
    text_within_iff h, truncateToTokens_within_iff text textBudget⟩

/-- A row of 24 units. -/
def shortSkill (name : String) : SkillDescriptor :=
  ⟨ofString name, .user, ⟨ofString "Lint", none, .inline, ⟨none, none⟩⟩⟩

theorem headerTokens_le : (headerTokens : ℚ) ≤ 31 := by decide +kernel

theorem catalog_within_iff_short :
    (estimateTokens (buildCatalog [shortSkill "a", shortSkill "b"] (some 31) 0).text : ℚ) ≤ 31 ↔
      LineBreaksFit [shortSkill "a", shortSkill "b"] 31 :=
  (catalog_within_iff [shortSkill "a", shortSkill "b"] 31 0 [] 0 headerTokens_le).2.2.1

/-- Two rows of 24 units use the budget up, and there is none left for the second line break; a
text of a hundred units is replaced by a marker that costs more than the budget. -/
theorem text_not_within : (headerTokens : ℚ) ≤ 31 ∧
    ¬ (estimateTokens (buildCatalog [shortSkill "a", shortSkill "b"] (some 31) 0).text : ℚ) ≤ 31 ∧
    ¬ (estimateTokens (truncateToTokens (List.replicate 100 0x61) 15).text : ℚ) ≤ 15 := by
  refine ⟨headerTokens_le, ?_, ?_⟩
  · decide +kernel
  · decide +kernel

end Catalog

end QwenHarness.Skills
