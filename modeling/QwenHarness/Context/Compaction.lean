import Mathlib.Data.List.Infix
import QwenHarness.Context.Reduction

/-!
# Compaction

When reduction is not enough, a span of the conversation is replaced by a summary. What the span was
is recorded first; then the summarizer is asked, its draft is checked, and the fields it has to
preserve are rendered into the text. A summary that frees too little is not used.

The summarizer that needs no model takes the goal from the conversation itself: the text of the
first message of the user. So the summary contains that text (`contains_goalOf`,
`contains_renderSummary`), and the summary of a summary still contains it.
-/

namespace QwenHarness.Context

/-! ## The budget -/

structure BudgetInput where
  contextWindow : ℚ
  items : List ModelInputItem
  reserveFraction : Option ℚ
  estimate : Option TokenEstimator
  fixedOverheadTokens : Option ℚ

structure BudgetBreakdown where
  contextWindow : ℚ
  reserveFraction : ℚ
  reservedTokens : ℚ
  usableInputBudget : ℚ
  fixedOverheadTokens : ℚ
  usedTokens : ℚ
  availableTokens : ℚ
  /-- Nothing where it is infinite. -/
  utilization : Option ℚ
  proactiveThreshold : ℚ
  proactiveLimitTokens : ℚ
  overThreshold : Bool
  overCapacity : Bool
deriving DecidableEq, Repr

/-- `Math.round`. -/
def round (x : ℚ) : ℚ := ⌊x + 1 / 2⌋

/-- The budget of a window. Products and quotients are those of doubles: `nearest` is the double
nearest to a number. -/
def computeBudget (nearest : ℚ → ℚ) (input : BudgetInput) : BudgetBreakdown :=
  let reserveFraction := input.reserveFraction.getD (nearest defaultReserveFraction)
  let fixedOverheadTokens := input.fixedOverheadTokens.getD 0
  let reservedTokens := round (nearest (input.contextWindow * reserveFraction))
  let usableInputBudget := max 0 (input.contextWindow - reservedTokens)
  let usedTokens :=
    estimateItems input.items (input.estimate.getD defaultTokenEstimator) + fixedOverheadTokens
  let proactiveThreshold := nearest proactiveThresholdFraction
  let proactiveLimitTokens : ℚ := ⌊nearest (usableInputBudget * proactiveThreshold)⌋
  { contextWindow := input.contextWindow
    reserveFraction
    reservedTokens
    usableInputBudget
    fixedOverheadTokens
    usedTokens
    availableTokens := max 0 (usableInputBudget - usedTokens)
    utilization :=
      if usableInputBudget = 0 then none else some (nearest (usedTokens / usableInputBudget))
    proactiveThreshold
    proactiveLimitTokens
    overThreshold := decide (proactiveLimitTokens ≤ usedTokens)
    overCapacity := decide (usableInputBudget < usedTokens) }

/-! ## Summaries -/

/-- What a summary has to carry on. -/
structure PreservedContext where
  goal : String
  constraints : List String
  plan : List String
  tasks : List String
  activeFiles : List String
  decisions : List String
  errors : List String
  obligations : List String
deriving DecidableEq, Repr

structure SummaryDraft where
  prose : String
  preserved : PreservedContext
deriving DecidableEq, Repr

structure SummarizerInput where
  items : List ModelInputItem
  boundaryRef : String
  focus : Option String
deriving DecidableEq, Repr

/-- What `trim` takes off: white space and line ends. -/
def isBlank (c : Char) : Bool := (Utf16.ofChar c).all Utf16.isSpace

def trim (s : String) : String :=
  String.ofList ((s.toList.dropWhile isBlank).rdropWhile isBlank)

/-- `blocks.join(separator)`. -/
def join (separator : String) : List String → String
  | [] => ""
  | [block] => block
  | block :: blocks => block ++ separator ++ join separator blocks

def listBlock (label : String) (values : List String) : String :=
  if values.isEmpty then "" else s!"## {label}\n" ++ join "\n" (values.map fun v ↦ "- " ++ v)

def renderSummary (preserved : PreservedContext) (prose : String) : String :=
  join "\n\n" ([
    "# Compaction summary",
    "## Goal\n" ++ preserved.goal,
    listBlock "Constraints" preserved.constraints,
    listBlock "Plan" preserved.plan,
    listBlock "Tasks" preserved.tasks,
    listBlock "Active files" preserved.activeFiles,
    listBlock "Decisions" preserved.decisions,
    listBlock "Errors" preserved.errors,
    listBlock "Unfinished obligations" preserved.obligations,
    if trim prose = "" then "" else "## Notes\n" ++ trim prose].filter fun block ↦ block ≠ "")

structure CompactionResult where
  boundaryRef : String
  summary : String
  preserved : PreservedContext
  tokensBefore : ℚ
  tokensAfter : ℚ
  freedTokens : ℚ
  compactedItemCount : ℕ
  trigger : CompactionTrigger
deriving DecidableEq, Repr

/-- A draft that came back: nothing where it has not the shape of one. A goal is required. -/
def parseDraft (raw : Option SummaryDraft) : Option SummaryDraft :=
  raw.filter fun draft ↦ draft.preserved.goal ≠ ""

/-- The result of a compaction whose draft was valid. -/
def compactionResult (estimate : TokenEstimator) (items : List ModelInputItem)
    (trigger : CompactionTrigger) (boundaryRef : String) (draft : SummaryDraft) :
    CompactionResult :=
  let summary := renderSummary draft.preserved draft.prose
  let tokensBefore := estimateItems items estimate
  { boundaryRef
    summary
    preserved := draft.preserved
    tokensBefore
    tokensAfter := estimate summary
    freedTokens := tokensBefore - estimate summary
    compactedItemCount := items.length
    trigger }

def defaultMinFreedFraction : ℚ := 1 / 10

inductive CompactionOutcome
  | compacted (result : CompactionResult)
  | noFurtherReduction (tokensBefore tokensAfter freedTokens : ℚ)
deriving DecidableEq, Repr

/-- Whether a compaction freed enough to be used. -/
def evaluateCompaction (nearest : ℚ → ℚ) (result : CompactionResult)
    (minFreedFraction : Option ℚ) : CompactionOutcome :=
  let freedFraction :=
    if 0 < result.tokensBefore then nearest (result.freedTokens / result.tokensBefore) else 0
  if result.freedTokens ≤ 0 ∨
      freedFraction < minFreedFraction.getD (nearest defaultMinFreedFraction) then
    .noFurtherReduction result.tokensBefore result.tokensAfter result.freedTokens
  else .compacted result

/-! ## The summarizer that needs no model -/

/-- The text of the first message of the user. -/
def firstUserText : List ModelInputItem → Option String
  | [] => none
  | .message .user text :: _ => some text
  | _ :: items => firstUserText items

/-- The texts of the assistant's messages. -/
def assistantTexts (items : List ModelInputItem) : List String :=
  items.filterMap fun
    | .message .assistant text => some text
    | _ => none

def goalOf (items : List ModelInputItem) : String :=
  let goal := ((firstUserText items).map trim).getD ""
  if goal = "" then "continue the prior work" else goal

/-- The draft from the conversation alone, with the tasks that are given and the paths that are
found in it. -/
def deterministicDraft (tasks : List String) (activeFiles : List ModelInputItem → List String)
    (items : List ModelInputItem) : SummaryDraft where
  prose :=
    slice (join "\n" ((((assistantTexts items).rtake 2).map trim).filter fun t ↦ t ≠ "")) 0 1000
  preserved :=
    { goal := goalOf items
      constraints := []
      plan := []
      tasks
      activeFiles := activeFiles items
      decisions := []
      errors := []
      obligations := [] }

/-! ## What a summary still contains -/

/-- The part stands somewhere in the text. -/
def Contains (text part : String) : Prop := part.toList <:+: text.toList

section Contains

variable {s t u : String}

theorem Contains.refl (s : String) : Contains s s := List.infix_rfl

theorem Contains.trans (h : Contains s t) (h' : Contains t u) : Contains s u :=
  List.IsInfix.trans h' h

theorem Contains.append_left (h : Contains s t) (u : String) : Contains (u ++ s) t := by
  rw [Contains, String.toList_append]
  exact List.infix_append_of_infix_right h

theorem Contains.append_right (h : Contains s t) (u : String) : Contains (s ++ u) t := by
  rw [Contains, String.toList_append]
  exact List.infix_append_of_infix_left h

theorem contains_join {separator block : String} {blocks : List String} (h : block ∈ blocks) :
    Contains (join separator blocks) block := by
  induction blocks with
  | nil => exact absurd h List.not_mem_nil
  | cons b blocks ih =>
    cases blocks with
    | nil =>
      rw [List.mem_singleton.mp h]
      exact .refl b
    | cons b' blocks =>
      rw [join]
      · rcases List.mem_cons.mp h with rfl | h
        · exact ((Contains.refl block).append_right _).append_right _
        · exact (ih h).append_left _
      · exact List.cons_ne_nil _ _

/-- The goal is rendered into the summary. -/
theorem contains_renderSummary (preserved : PreservedContext) (prose : String) :
    Contains (renderSummary preserved prose) preserved.goal := by
  have hblock : Contains ("## Goal\n" ++ preserved.goal) preserved.goal :=
    (Contains.refl preserved.goal).append_left _
  refine Contains.trans (contains_join (List.mem_filter.mpr ⟨?_, ?_⟩)) hblock
  · exact List.mem_cons_of_mem _ List.mem_cons_self
  · refine decide_eq_true fun hnil ↦ ?_
    have hlist : ("## Goal\n" ++ preserved.goal).toList = [] := by rw [hnil]; rfl
    rw [String.toList_append, List.append_eq_nil_iff] at hlist
    exact absurd hlist.1 (by decide)

/-- What does not start with a blank is still there when blanks are dropped in front. -/
theorem infix_dropWhile {α : Type} {p : α → Bool} {part xs : List α} (h : part <:+: xs)
    (hhead : ∀ x, part.head? = some x → p x = false) : part <:+: xs.dropWhile p := by
  obtain ⟨front, back, rfl⟩ := h
  cases part with
  | nil => exact List.nil_infix
  | cons x part =>
    have hx : p x = false := hhead x rfl
    rw [List.append_assoc, List.dropWhile_append]
    split
    · rw [List.cons_append, List.dropWhile_cons_of_neg (by rw [hx]; exact Bool.false_ne_true),
        ← List.cons_append]
      exact List.infix_append_left
    · rw [← List.append_assoc]
      exact List.infix_append _ _ _

/-- Nothing that `trim` takes off stands at either end. -/
structure IsTrimmed (t : String) : Prop where
  head : ∀ c, t.toList.head? = some c → isBlank c = false
  last : ∀ c, t.toList.getLast? = some c → isBlank c = false

theorem head?_dropWhile {α : Type} {p : α → Bool} {xs : List α} {x : α}
    (h : (xs.dropWhile p).head? = some x) : p x = false := by
  have hnot := List.head?_dropWhile_not p xs
  rw [h] at hnot
  exact hnot

theorem isTrimmed_trim (s : String) : IsTrimmed (trim s) where
  head c h := by
    rw [trim, String.toList_ofList] at h
    obtain ⟨rest, hrest⟩ := List.rdropWhile_prefix isBlank (l := s.toList.dropWhile isBlank)
    have hhead : (s.toList.dropWhile isBlank).head? = some c := by
      rw [← hrest, List.head?_append, h, Option.some_or]
    exact head?_dropWhile hhead
  last c h := by
    rw [trim, String.toList_ofList, List.rdropWhile, List.getLast?_reverse] at h
    exact head?_dropWhile h

theorem contains_trim (s : String) : Contains s (trim s) := by
  rw [Contains, Context.trim, String.toList_ofList]
  exact (List.rdropWhile_prefix _ (l := s.toList.dropWhile isBlank)).isInfix.trans
    (List.dropWhile_suffix _).isInfix

/-- Trimming a text leaves what is trimmed itself. -/
theorem Contains.trim (h : Contains s t) (ht : IsTrimmed t) : Contains (trim s) t := by
  rw [Contains, Context.trim, String.toList_ofList, List.rdropWhile,
    ← List.reverse_reverse t.toList, List.reverse_infix]
  refine infix_dropWhile (List.reverse_infix.mpr (infix_dropWhile h ht.head)) fun c hc ↦ ?_
  rw [List.head?_reverse] at hc
  exact ht.last c hc

end Contains

/-- **The goal of a compaction** contains what the first message of the user contains, if that is
trimmed. -/
theorem contains_goalOf {items : List ModelInputItem} {text t : String} (ht : IsTrimmed t)
    (hfirst : firstUserText items = some text) (h : Contains text t) :
    Contains (goalOf items) t := by
  have htrim : Contains (trim text) t := h.trim ht
  rw [goalOf, hfirst, Option.map_some, Option.getD_some]
  split
  · next hnil =>
    rw [hnil] at htrim
    have hempty : t.toList = [] := List.infix_nil.mp htrim
    rw [Contains, hempty]
    exact List.nil_infix
  · exact htrim

end QwenHarness.Context
