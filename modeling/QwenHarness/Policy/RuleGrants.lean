import Mathlib.Data.List.TakeWhile
import QwenHarness.Policy.Invariants

/-!
# Rule grants and the paths they reach

A rule grant is the only grant that is not bound to a digest, so it is looked at when it is made. Of
each of its globs only the literal text before the first wildcard is known, and that text has to lie
in the workspace.
-/

namespace QwenHarness.Policy

/-! ## Making a rule grant -/

inductive RuleGrantProblem where
  | notARuleGrant
  | emptyMatcher
  | missingKinds
  | pathOutsideWorkspace
  | pathIsProtected
  | unboundedPathGlob
deriving DecidableEq, Repr

structure RuleGrantValidation where
  ok : Bool
  problems : List RuleGrantProblem
deriving DecidableEq, Repr

def isWildcard (c : Char) : Bool := decide (c = '*' ∨ c = '?')

/-- The text of a glob before its first wildcard. -/
def literal (pattern : String) : List Char := pattern.toList.takeWhile fun c ↦ !isWildcard c

/-- The literal text without a slash at its end. -/
def anchor (pattern : String) : List Char :=
  if (literal pattern).getLast? = some '/' then (literal pattern).dropLast else literal pattern

/-- What is wrong with a glob of a rule grant. -/
def globProblem (workspaceRoot homeDir pattern : String) : Option RuleGrantProblem :=
  if ¬ ['/'] <+: pattern.toList then some .unboundedPathGlob
  else
    let path := String.ofList (anchor pattern)
    if path = "" ∨ isWithin workspaceRoot path = false then some .pathOutsideWorkspace
    else if classifyPath path .write workspaceRoot homeDir ≠ [] ∨
        classifyPath path .read workspaceRoot homeDir ≠ [] then some .pathIsProtected
    else none

def validateRuleGrant (grant : Grant) (workspaceRoot homeDir : String) : RuleGrantValidation :=
  match grant.scope, grant.match with
  | .rule, some m =>
    let problems :=
      (if isEmptyMatcher m then [.emptyMatcher] else []) ++
      (if m.kinds.getD [] = [] then [.missingKinds] else []) ++
      (m.paths.getD []).filterMap (globProblem workspaceRoot homeDir)
    ⟨problems.isEmpty, problems⟩
  | _, _ => ⟨false, [.notARuleGrant]⟩

/-! ## Characters and their units -/

/-- A character is no half of a surrogate pair. -/
theorem not_surrogate (c : Char) : c.toNat < 0xD800 ∨ 0xE000 ≤ c.toNat ∧ c.toNat < 0x110000 := by
  rcases c.valid with h | h
  · exact .inl h
  · exact .inr ⟨Nat.succ_le_of_lt h.1, h.2⟩

/-- The units of a character say where it ends. -/
theorem charUnits_append {c d : Char} {a b : List ℕ} (h : charUnits c ++ a = charUnits d ++ b) :
    c = d ∧ a = b := by
  have hc := not_surrogate c
  have hd := not_surrogate d
  have key : c.toNat = d.toNat ∧ a = b := by
    unfold charUnits at h
    split_ifs at h with h₁ h₂ h₂
    · simpa using h
    · have := (List.cons.inj h).1
      omega
    · have := (List.cons.inj h).1
      omega
    · simp only [List.cons_append, List.nil_append, List.cons.injEq] at h
      exact ⟨by omega, h.2.2⟩
  exact ⟨Char.toNat_inj.mp key.1, key.2⟩

/-- A unit below the surrogates is a character of its own. -/
theorem mem_charUnits {c : Char} {u : ℕ} (hu : u < 0xD800) (h : u ∈ charUnits c) :
    c.toNat = u := by
  unfold charUnits at h
  split_ifs at h with hc
  · exact (List.mem_singleton.mp h).symm
  · simp only [List.mem_cons, List.not_mem_nil, or_false] at h
    omega

theorem prefix_of_flatMap_charUnits {s t : List Char}
    (h : s.flatMap charUnits <+: t.flatMap charUnits) : s <+: t := by
  induction s generalizing t with
  | nil => exact List.nil_prefix
  | cons c s ih =>
    obtain ⟨r, hr⟩ := h
    rcases t with - | ⟨d, t⟩
    · have : charUnits c = [] := by simp_all
      unfold charUnits at this
      split_ifs at this
    · rw [List.flatMap_cons, List.flatMap_cons, List.append_assoc] at hr
      obtain ⟨rfl, hr'⟩ := charUnits_append hr
      exact (List.prefix_cons_inj _).mpr (ih ⟨r, hr'⟩)

theorem flatMap_charUnits_injective : Function.Injective (List.flatMap charUnits) := by
  intro s t h
  have hst : s <+: t := prefix_of_flatMap_charUnits (h ▸ List.prefix_rfl)
  have hts : t <+: s := prefix_of_flatMap_charUnits (h ▸ List.prefix_rfl)
  exact hst.eq_of_length (Nat.le_antisymm hst.length_le hts.length_le)

/-! ## What a glob reaches -/

section Glob

open Pattern

variable {l rest w : List ℕ}

theorem globToRegExp_cons {u : ℕ} (hu : u ≠ star) (hu' : u ≠ question)
    (h : ¬(u = slash ∧ rest = [star, star])) :
    globToRegExp .path (u :: rest) = .letter u :: globToRegExp .path rest := by
  rw [globToRegExp.eq_def]
  exact (if_neg fun h' ↦ h ⟨h'.2.1, h'.2.2⟩).trans ((if_neg hu).trans (if_neg hu'))

/-- Literal text stands for itself, except that a `/**` at the end takes its slash back. -/
theorem globToRegExp_append (rest : List ℕ) (hl : ∀ u ∈ l, u ≠ star ∧ u ≠ question) :
    globToRegExp .path (l ++ rest) = l.map Part.letter ++ globToRegExp .path rest ∨
      ∃ l', l = l' ++ [slash] ∧ globToRegExp .path (l ++ rest) =
        l'.map Part.letter ++ [.tail slash notLineEnd] := by
  induction l with
  | nil => exact .inl rfl
  | cons u l ih =>
    rw [List.forall_mem_cons] at hl
    by_cases hslash : u = slash ∧ l ++ rest = [star, star]
    · obtain ⟨rfl, hrest⟩ := hslash
      have hnil : l = [] := by
        rcases l with - | ⟨v, l⟩
        · rfl
        · exact absurd (List.cons.inj hrest).1 (hl.2 v List.mem_cons_self).1
      subst hnil
      refine .inr ⟨[], rfl, ?_⟩
      rw [List.cons_append, hrest]
      rfl
    · rw [List.cons_append, globToRegExp_cons hl.1.1 hl.1.2 hslash]
      rcases ih hl.2 with h | ⟨l', rfl, h⟩
      · exact .inl (by rw [h]; rfl)
      · exact .inr ⟨u :: l', rfl, by rw [h]; rfl⟩

theorem accepts_map_letter {ps : List (Pattern.Part ℕ)} :
    accepts (l.map Part.letter ++ ps) w = true ↔ ∃ r, w = l ++ r ∧ accepts ps r = true := by
  induction l generalizing w with
  | nil => exact ⟨fun h ↦ ⟨w, rfl, h⟩, fun ⟨_, hw, h⟩ ↦ hw ▸ h⟩
  | cons u l ih =>
    rw [List.map_cons, List.cons_append, accepts, Part.take_iff]
    constructor
    · rintro ⟨_, s, rfl, rfl, h⟩
      obtain ⟨r, rfl, hr⟩ := ih.mp h
      exact ⟨r, rfl, hr⟩
    · rintro ⟨r, rfl, hr⟩
      exact ⟨[u], l ++ r, rfl, rfl, ih.mpr ⟨r, rfl, hr⟩⟩

/-- What matches starts with the literal text, or is that text without the slash at its end. -/
theorem prefix_of_accepts (hl : ∀ u ∈ l, u ≠ star ∧ u ≠ question)
    (h : accepts (globToRegExp .path (l ++ rest)) w = true) : l <+: w ∨ l = w ++ [slash] := by
  rcases globToRegExp_append rest hl with hp | ⟨l', rfl, hp⟩
  · rw [hp] at h
    obtain ⟨r, rfl, -⟩ := accepts_map_letter.mp h
    exact .inl (List.prefix_append _ _)
  · rw [hp] at h
    obtain ⟨r, rfl, hr⟩ := accepts_map_letter.mp h
    obtain ⟨v, s, rfl, rfl | ⟨v, rfl, -⟩, hs⟩ := Part.take_iff.mp hr
    · have hnil : s = [] := List.isEmpty_iff.mp hs
      subst hnil
      exact .inr (by simp)
    · exact .inl ⟨v ++ s, by simp⟩

/-- Where a glob begins with a wildcard, an `x` may stand for it. -/
theorem accepts_wildcard (rest : List ℕ) {c : ℕ} (hc : c = star ∨ c = question) :
    accepts (globToRegExp .path (c :: rest)) ('x'.toNat :: rest) = true ∨
      ∃ r, rest = star :: r ∧
        accepts (globToRegExp .path (c :: rest)) ('x'.toNat :: r) = true := by
  have one : (Part.many notSlash).Denotes ['x'.toNat] := by simp [Part.Denotes, notSlash, slash]
  have any : (Part.many notLineEnd).Denotes ['x'.toNat] := by
    simp [Part.Denotes, notLineEnd]
  have hslash : ¬(c = slash) := by rcases hc with rfl | rfl <;> decide
  unfold globToRegExp
  rw [if_neg (fun h ↦ hslash h.2.1)]
  rcases hc with rfl | rfl
  · rw [if_pos rfl]
    rcases rest with - | ⟨d, rest⟩
    · exact .inl (accepts_cons (w := ['x'.toNat]) one (r := []) rfl)
    · by_cases hd : d = star
      · subst hd
        refine .inr ⟨rest, rfl, ?_⟩
        rcases rest with - | ⟨e, rest⟩
        · exact accepts_cons (w := ['x'.toNat]) any (r := []) rfl
        · by_cases he : e = slash
          · subst he
            exact accepts_cons (w := ['x'.toNat, slash]) (.inr ⟨['x'.toNat], rfl⟩)
              (accepts_globToRegExp_self _ _)
          · simp only [if_pos, if_neg he]
            exact accepts_cons (w := ['x'.toNat]) any (accepts_globToRegExp_self _ _)
      · simp only [if_neg hd]
        exact .inl (accepts_cons (w := ['x'.toNat]) one (accepts_globToRegExp_self _ _))
  · rw [if_neg (by decide), if_pos rfl]
    exact .inl (accepts_cons (w := ['x'.toNat]) ⟨_, by decide, rfl⟩
      (accepts_globToRegExp_self _ _))

theorem globToRegExp_literal (hl : ∀ u ∈ l, u ≠ star ∧ u ≠ question) :
    globToRegExp .path l = l.map Part.letter := by
  induction l with
  | nil => rfl
  | cons u l ih =>
    rw [List.forall_mem_cons] at hl
    have hstars : ¬(u = slash ∧ l = [star, star]) := by
      rintro ⟨-, rfl⟩
      exact (hl.2 star List.mem_cons_self).1 rfl
    rw [globToRegExp_cons hl.1.1 hl.1.2 hstars, ih hl.2, List.map_cons]

/-- Text without wildcards matches itself alone. -/
theorem eq_of_accepts (hl : ∀ u ∈ l, u ≠ star ∧ u ≠ question)
    (h : accepts (globToRegExp .path l) w = true) : w = l := by
  rw [globToRegExp_literal hl, ← List.append_nil (l.map Part.letter), accepts_map_letter] at h
  obtain ⟨r, rfl, hr⟩ := h
  have hnil : r = [] := List.isEmpty_iff.mp hr
  rw [hnil, List.append_nil]

end Glob

/-! ## Globs and the workspace -/

/-- What a path beneath the root starts with. -/
def rootPrefix (workspaceRoot : String) : List Char :=
  if workspaceRoot.toList.getLast? = some '/' then workspaceRoot.toList
  else workspaceRoot.toList ++ ['/']

theorem isWithin_iff {workspaceRoot path : String} : isWithin workspaceRoot path = true ↔
    path = workspaceRoot ∨ rootPrefix workspaceRoot <+: path.toList := by
  rw [isWithin, Bool.or_eq_true, decide_eq_true_iff, decide_eq_true_iff, rootPrefix]

theorem prefix_rootPrefix_of (workspaceRoot : String) :
    rootPrefix workspaceRoot <+: workspaceRoot.toList ++ ['/'] := by
  unfold rootPrefix
  split_ifs
  · exact List.prefix_append _ _
  · exact List.prefix_rfl

/-- A wildcard stands right after the workspace root. -/
def steers (workspaceRoot pattern : String) : Bool :=
  decide (literal pattern = workspaceRoot.toList ∧ pattern ≠ workspaceRoot)

section Within

variable {workspaceRoot homeDir pattern path : String}

theorem literal_append (pattern : String) :
    literal pattern ++ pattern.toList.dropWhile (fun c ↦ !isWildcard c) = pattern.toList :=
  List.takeWhile_append_dropWhile

/-- The literal text has no wildcard, and neither have its units. -/
theorem units_literal {u : ℕ} (hu : u ∈ (literal pattern).flatMap charUnits) :
    u ≠ star ∧ u ≠ question := by
  obtain ⟨c, hc, hu⟩ := List.mem_flatMap.mp hu
  have hwild : isWildcard c = false := by simpa using List.mem_takeWhile_imp hc
  rw [isWildcard, decide_eq_false_iff_not, not_or] at hwild
  constructor
  · rintro rfl
    exact hwild.1 (Char.toNat_inj.mp (mem_charUnits (by decide) hu))
  · rintro rfl
    exact hwild.2 (Char.toNat_inj.mp (mem_charUnits (by decide) hu))

theorem of_globProblem (hg : globProblem workspaceRoot homeDir pattern = none) :
    ['/'] <+: pattern.toList ∧ isWithin workspaceRoot (String.ofList (anchor pattern)) = true := by
  rw [globProblem] at hg
  by_cases habs : ['/'] <+: pattern.toList
  · rw [if_neg (not_not_intro habs)] at hg
    by_cases hin : isWithin workspaceRoot (String.ofList (anchor pattern)) = true
    · exact ⟨habs, hin⟩
    · simp [hin] at hg
  · simp [habs] at hg

/-- What matches a glob starts with its literal text, or is its anchor. -/
theorem prefix_of_matchGlob (h : matchGlob pattern path = true) :
    literal pattern <+: path.toList ∨ literal pattern = path.toList ++ ['/'] := by
  rw [matchGlob, codeUnits_eq, ← literal_append, List.flatMap_append] at h
  rcases prefix_of_accepts (fun _ ↦ units_literal) h with h | h
  · exact .inl (prefix_of_flatMap_charUnits h)
  · refine .inr (flatMap_charUnits_injective ?_)
    rw [h, List.flatMap_append]
    rfl

theorem eq_of_matchGlob (hp : literal pattern = pattern.toList)
    (h : matchGlob pattern path = true) : path = pattern := by
  refine String.toList_inj.mp (flatMap_charUnits_injective ?_)
  refine eq_of_accepts (fun u hu ↦ ?_) h
  rw [← hp] at hu
  exact units_literal hu

/-- A glob that passed and does not start its wildcards at the root stays inside. -/
theorem isWithin_of_matchGlob (hg : globProblem workspaceRoot homeDir pattern = none)
    (hs : steers workspaceRoot pattern = false) (h : matchGlob pattern path = true) :
    isWithin workspaceRoot path = true := by
  have hanchor := (of_globProblem hg).2
  rw [isWithin_iff, String.toList_ofList] at hanchor
  by_cases hlast : (literal pattern).getLast? = some '/'
  · obtain ⟨a, ha⟩ := List.getLast?_eq_some_iff.mp hlast
    have hpa : anchor pattern = a := by rw [anchor, if_pos hlast, ha, List.dropLast_concat]
    rw [hpa] at hanchor
    rcases prefix_of_matchGlob h with hpre | heq
    · -- the root and the slash are literal
      refine isWithin_iff.mpr (.inr (List.IsPrefix.trans ?_ hpre))
      rw [ha]
      rcases hanchor with rfl | hanchor
      · simpa using prefix_rootPrefix_of (String.ofList a)
      · exact hanchor.trans (List.prefix_append _ _)
    · -- the slash was taken back
      obtain ⟨rfl, -⟩ := List.append_inj' (ha.symm.trans heq) rfl
      rw [isWithin_iff, ← String.toList_inj]
      exact hanchor.imp_left fun h ↦ by rw [← h, String.toList_ofList]
  · have hpa : anchor pattern = literal pattern := by rw [anchor, if_neg hlast]
    have hpre : literal pattern <+: path.toList := by
      rcases prefix_of_matchGlob h with hpre | heq
      · exact hpre
      · exact absurd (heq ▸ List.getLast?_concat) hlast
    rw [hpa] at hanchor
    rcases hanchor with hroot | hanchor
    · have hlit : literal pattern = workspaceRoot.toList := by
        rw [← hroot, String.toList_ofList]
      have heq : pattern = workspaceRoot := by
        by_contra hne
        exact absurd hs (by rw [steers, decide_eq_true (And.intro hlit hne)]; decide)
      subst heq
      exact isWithin_iff.mpr (.inl (eq_of_matchGlob hlit h))
    · exact isWithin_iff.mpr (.inr (hanchor.trans hpre))

/-- The literal text of a glob that passed is the root only if the root has no slash at its end. -/
theorem getLast?_ne_slash (hg : globProblem workspaceRoot homeDir pattern = none)
    (hlit : literal pattern = workspaceRoot.toList) :
    workspaceRoot.toList.getLast? ≠ some '/' := by
  intro hlast
  have hanchor := (of_globProblem hg).2
  obtain ⟨a, ha⟩ := List.getLast?_eq_some_iff.mp hlast
  rw [isWithin_iff, String.toList_ofList, anchor, hlit, if_pos hlast, rootPrefix, if_pos hlast, ha,
    List.dropLast_concat] at hanchor
  rcases hanchor with h | h
  · have := congrArg (fun s ↦ s.toList.length) h
    simp [ha] at this
  · have := h.length_le
    simp only [List.length_append, List.length_singleton] at this
    omega

/-- A sibling of the root lies outside. -/
theorem isWithin_sibling (hlast : workspaceRoot.toList.getLast? ≠ some '/') (s : List Char) :
    isWithin workspaceRoot (String.ofList (workspaceRoot.toList ++ 'x' :: s)) = false := by
  refine eq_false_of_ne_true fun h ↦ ?_
  rw [isWithin_iff, String.toList_ofList, rootPrefix, if_neg hlast, ← String.toList_inj,
    String.toList_ofList] at h
  rcases h with h | h
  · simp at h
  · rw [List.prefix_append_right_inj, List.cons_prefix_cons] at h
    exact absurd h.1 (by decide)

/-- A wildcard right after the root reaches a sibling of the root. -/
theorem exists_outside_of_steers (hg : globProblem workspaceRoot homeDir pattern = none)
    (hs : steers workspaceRoot pattern = true) :
    ∃ path, matchGlob pattern path = true ∧ isWithin workspaceRoot path = false := by
  obtain ⟨hlit, hne⟩ := of_decide_eq_true hs
  have hlast := getLast?_ne_slash hg hlit
  have happ := literal_append pattern
  rw [hlit] at happ
  rcases hrest : pattern.toList.dropWhile (fun c ↦ !isWildcard c) with - | ⟨c, cs⟩
  · rw [hrest, List.append_nil] at happ
    exact absurd (String.toList_inj.mp happ.symm) hne
  have hc : c = '*' ∨ c = '?' := by
    have h := List.head?_dropWhile_not (fun c ↦ !isWildcard c) pattern.toList
    rw [hrest] at h
    simpa [isWildcard, or_iff_not_imp_left] using h
  have hunits : charUnits c = [c.toNat] := by rcases hc with rfl | rfl <;> rfl
  have hwild : c.toNat = star ∨ c.toNat = question := by
    rcases hc with rfl | rfl
    · exact .inl rfl
    · exact .inr rfl
  -- what follows the `x` of the path
  obtain ⟨s, hacc⟩ : ∃ s : List Char,
      Pattern.accepts (globToRegExp .path (c.toNat :: cs.flatMap charUnits))
        ('x'.toNat :: s.flatMap charUnits) = true := by
    rcases accepts_wildcard (cs.flatMap charUnits) hwild with h | ⟨r, hr, h⟩
    · exact ⟨cs, h⟩
    · rcases cs with - | ⟨d, cs⟩
      · cases hr
      · obtain ⟨rfl, hr'⟩ := charUnits_append (c := d) (d := '*') (b := r) hr
        subst hr'
        exact ⟨cs, h⟩
  refine ⟨String.ofList (workspaceRoot.toList ++ 'x' :: s), ?_, isWithin_sibling hlast s⟩
  have hlit' : ∀ u ∈ workspaceRoot.toList.flatMap charUnits, u ≠ star ∧ u ≠ question :=
    by
    rw [← hlit]
    exact fun _ ↦ units_literal
  rw [matchGlob, codeUnits_eq, codeUnits_ofList, ← happ, hrest, List.flatMap_append,
    List.flatMap_append, List.flatMap_cons, List.flatMap_cons, hunits]
  rcases globToRegExp_append (c.toNat :: cs.flatMap charUnits) hlit' with hp | ⟨l', hl', -⟩
  · rw [List.singleton_append, hp]
    exact accepts_map_letter.mpr ⟨_, rfl, hacc⟩
  · refine absurd ?_ hlast
    rcases List.eq_nil_or_concat' workspaceRoot.toList with hnil | ⟨a, d, ha⟩
    · rw [hnil] at hl'
      simp at hl'
    · have hmem : slash ∈ charUnits d := by
        rw [ha, List.flatMap_append, List.flatMap_singleton] at hl'
        have hd : charUnits d ≠ [] := by
          unfold charUnits
          split_ifs <;> simp
        have h := congrArg List.getLast? hl'
        rw [List.getLast?_append_of_ne_nil _ hd, List.getLast?_concat] at h
        exact List.mem_of_getLast? h
      have hd : d = '/' := Char.toNat_inj.mp (mem_charUnits (by decide) hmem)
      rw [ha, List.getLast?_concat, hd]

end Within

/-! ## What a rule grant reaches -/

/-- The kinds that read or write files. -/
def fileKinds : List ActionKind := [.fileRead, .fileWrite, .fileEdit, .patch]

/-- The file actions the matcher matches touch only paths of the workspace. -/
def StaysInside (sys : Platform) (m : ActionMatcher) (workspaceRoot homeDir : String) : Prop :=
  ∀ action, action.kind ∈ fileKinds →
    matchesAction m action homeDir (actionDigest sys action) = true →
      ∀ path ∈ actionPaths action, isWithin workspaceRoot path = true

/-- The matcher lists no kind that reads or writes files, or asks for something that only a command,
a request or a tool of MCP has. -/
def SparesFiles (m : ActionMatcher) : Prop :=
  (∀ kind ∈ fileKinds, kind ∉ m.kinds.getD []) ∨ m.commands ≠ none ∨ m.commandLines ≠ none ∨
    m.hosts ≠ none ∨ m.mcpServers ≠ none ∨ m.mcpTools ≠ none

/-- The matcher lists globs and no patches, and none of the globs has a wildcard right after the
root. A list without globs matches nothing. -/
def GlobsHold (m : ActionMatcher) (workspaceRoot : String) : Prop :=
  ∃ globs, m.paths = some globs ∧ (globs = [] ∨
    .patch ∉ m.kinds.getD [] ∧ ∀ glob ∈ globs, steers workspaceRoot glob = false)

/-- The matcher names a digest, and a file action of this digest that touches a path outside is of a
kind the matcher does not list, or is under none of its globs. -/
def DigestHolds (sys : Platform) (m : ActionMatcher) (workspaceRoot : String) : Prop :=
  ∃ digest, m.digest = some digest ∧ ∀ action, action.kind ∈ fileKinds →
    actionDigest sys action = digest →
      (∃ path ∈ actionPaths action, isWithin workspaceRoot path = false) →
        action.kind ∉ m.kinds.getD [] ∨
          ∃ globs, m.paths = some globs ∧ anyPathGlob globs (actionPaths action) = false

section Grant

variable {sys : Platform} {grant : Grant} {m : ActionMatcher} {action : NormalizedAction}
variable {workspaceRoot homeDir : String}

/-- A grant that passed names kinds, and every glob of it passed. -/
theorem of_validateRuleGrant (hm : grant.match = some m)
    (h : (validateRuleGrant grant workspaceRoot homeDir).ok = true) :
    (∃ kinds, m.kinds = some kinds ∧ kinds ≠ []) ∧
      ∀ glob ∈ m.paths.getD [], globProblem workspaceRoot homeDir glob = none := by
  unfold validateRuleGrant at h
  rw [hm] at h
  split at h
  · next heq =>
    obtain rfl := Option.some.inj heq
    simp only [List.isEmpty_iff, List.append_eq_nil_iff, List.filterMap_eq_nil_iff] at h
    refine ⟨?_, h.2⟩
    cases hk : m.kinds with
    | none => simp [hk] at h
    | some kinds => exact ⟨kinds, rfl, fun hnil ↦ by simp [hk, hnil] at h⟩
  · exact absurd h Bool.false_ne_true

/-- The home directory does not matter to globs that start at the root of the file system. -/
theorem map_expandHome {globs : List String}
    (h : ∀ glob ∈ globs, globProblem workspaceRoot homeDir glob = none) (home : String) :
    globs.map (fun glob ↦ expandHome glob home) = globs := by
  refine (List.map_congr_left fun glob hglob ↦ ?_).trans (List.map_id globs)
  obtain ⟨r, hr⟩ := (of_globProblem (h glob hglob)).1
  have hne : glob ≠ "~" := by
    rintro rfl
    exact absurd (List.cons.inj hr).1 (by decide)
  have hpre : ¬"~/".toList <+: glob.toList := by
    rw [← hr]
    intro h
    exact absurd (List.cons_prefix_cons.mp h).1 (by decide)
  rw [expandHome, if_neg hne, if_neg hpre, id]

theorem asks_false {β : Type} {field : Option β} :
    asks field (fun _ ↦ false) = true ↔ field = none := by
  cases field <;> simp [asks]

/-- What a matcher asks of a file action. -/
theorem matchesAction_file {home digest : String} (hk : m.kinds ≠ none)
    (ha : action.kind ∈ fileKinds) : matchesAction m action home digest = true ↔
      (m.commands = none ∧ m.commandLines = none ∧ m.hosts = none ∧ m.mcpServers = none ∧
        m.mcpTools = none) ∧
      asks m.digest (fun d ↦ decide (d = digest)) = true ∧ action.kind ∈ m.kinds.getD [] ∧
      asks m.paths (fun paths ↦ decide (actionPaths action ≠ []) &&
        anyPathGlob (paths.map fun p ↦ expandHome p home) (actionPaths action)) = true := by
  have hempty : isEmptyMatcher m = false := by
    rw [isEmptyMatcher, decide_eq_false_iff_not]
    rintro rfl
    exact hk rfl
  have hkinds : asks m.kinds (fun kinds ↦ decide (action.kind ∈ kinds)) = true ↔
      action.kind ∈ m.kinds.getD [] := by
    obtain ⟨kinds, hkinds⟩ := Option.ne_none_iff_exists'.mp hk
    rw [hkinds]
    exact decide_eq_true_iff
  have hrest : matchesAction m action home digest =
      (!isEmptyMatcher m && asks m.digest (fun d ↦ decide (d = digest)) &&
        asks m.kinds (fun kinds ↦ decide (action.kind ∈ kinds)) &&
        asks m.paths (fun paths ↦ decide (actionPaths action ≠ []) &&
          anyPathGlob (paths.map fun p ↦ expandHome p home) (actionPaths action)) &&
        asks m.commands (fun _ ↦ false) && asks m.commandLines (fun _ ↦ false) &&
        asks m.hosts (fun _ ↦ false) && asks m.mcpServers (fun _ ↦ false) &&
        asks m.mcpTools (fun _ ↦ false)) := by
    cases action <;> first | rfl | simp [fileKinds, NormalizedAction.kind] at ha
  rw [hrest, hempty]
  simp only [Bool.not_false, Bool.true_and, Bool.and_eq_true, asks_false, hkinds]
  tauto

/-- A file action of a given kind that touches a given path, and as a patch another one. -/
def touching (path other : String) : ActionKind → NormalizedAction
  | .fileRead => .fileRead path
  | .fileWrite => .fileWrite path false ""
  | .fileEdit => .fileEdit path false ""
  | _ => .patch [path, other] false ""

theorem kind_touching (path other : String) {kind : ActionKind} (h : kind ∈ fileKinds) :
    (touching path other kind).kind = kind := by
  simp only [fileKinds, List.mem_cons, List.not_mem_nil, or_false] at h
  rcases h with rfl | rfl | rfl | rfl <;> rfl

theorem mem_actionPaths_touching (path other : String) (kind : ActionKind) :
    path ∈ actionPaths (touching path other kind) := by
  cases kind <;> simp [touching, actionPaths]

theorem exists_outside (workspaceRoot : String) : ∃ path, isWithin workspaceRoot path = false := by
  by_cases h : workspaceRoot = ""
  · subst h
    exact ⟨"x", by decide⟩
  · refine ⟨"", eq_false_of_ne_true fun hin ↦ ?_⟩
    rcases isWithin_iff.mp hin with h' | h'
    · exact h h'.symm
    · have hnil : rootPrefix workspaceRoot = [] := List.prefix_nil.mp h'
      unfold rootPrefix at hnil
      split_ifs at hnil with hlast
      · rw [hnil] at hlast
        cases hlast
      · simp at hnil

theorem anyPathGlob_of_mem {globs paths : List String} {glob path : String} (hg : glob ∈ globs)
    (hp : path ∈ paths) (h : matchGlob glob path = true) : anyPathGlob globs paths = true :=
  List.any_eq_true.mpr ⟨glob, hg, List.any_eq_true.mpr ⟨path, hp, h⟩⟩

/-- A file action is matched by its kind, its digest and some glob, if nothing else is asked. -/
theorem matchesAction_iff {home digest : String} (hm : grant.match = some m)
    (h : (validateRuleGrant grant workspaceRoot homeDir).ok = true)
    (ha : action.kind ∈ fileKinds) : matchesAction m action home digest = true ↔
      (m.commands = none ∧ m.commandLines = none ∧ m.hosts = none ∧ m.mcpServers = none ∧
        m.mcpTools = none) ∧
      (∀ d, m.digest = some d → d = digest) ∧ action.kind ∈ m.kinds.getD [] ∧
      ∀ globs, m.paths = some globs → anyPathGlob globs (actionPaths action) = true := by
  obtain ⟨⟨kinds, hkinds, -⟩, hglobs⟩ := of_validateRuleGrant hm h
  have hdigest : asks m.digest (fun d ↦ decide (d = digest)) = true ↔
      ∀ d, m.digest = some d → d = digest := by
    cases m.digest <;> simp [asks]
  have hpaths : asks m.paths (fun paths ↦ decide (actionPaths action ≠ []) &&
        anyPathGlob (paths.map fun p ↦ expandHome p home) (actionPaths action)) = true ↔
      ∀ globs, m.paths = some globs → anyPathGlob globs (actionPaths action) = true := by
    cases hpaths : m.paths with
    | none => simp [asks]
    | some globs =>
      rw [hpaths, Option.getD_some] at hglobs
      have hne : anyPathGlob globs (actionPaths action) = true → actionPaths action ≠ [] := by
        intro hany hnil
        simp [anyPathGlob, hnil] at hany
      simpa [asks, map_expandHome hglobs] using hne
  rw [matchesAction_file (by simp [hkinds]) ha, hdigest, hpaths]

/-- Globs that hold keep every file action they match inside. -/
theorem staysInside_of_globsHold (hm : grant.match = some m)
    (h : (validateRuleGrant grant workspaceRoot homeDir).ok = true) {home : String}
    (hhold : GlobsHold m workspaceRoot) : StaysInside sys m workspaceRoot home := by
  intro action hfile hmatch path hpath
  obtain ⟨globs, hglobs, hhold⟩ := hhold
  obtain ⟨-, -, hkind, hany⟩ := (matchesAction_iff hm h hfile).mp hmatch
  obtain ⟨glob, hglob, hany⟩ := List.any_eq_true.mp (hany globs hglobs)
  obtain ⟨path', hpath', hmatch'⟩ := List.any_eq_true.mp hany
  rcases hhold with rfl | ⟨hpatch, hsteer⟩
  · exact absurd hglob List.not_mem_nil
  · -- without patches the path that matches is the only one
    obtain rfl : path' = path := by
      cases action with
      | patch => exact absurd hkind hpatch
      | _ =>
        first
        | exact (List.mem_singleton.mp hpath').trans (List.mem_singleton.mp hpath).symm
        | simp [actionPaths] at hpath
    have hok := (of_validateRuleGrant hm h).2 glob (by rw [hglobs]; exact hglob)
    exact isWithin_of_matchGlob hok (hsteer glob hglob) hmatch'

theorem staysInside_of_digestHolds (hm : grant.match = some m)
    (h : (validateRuleGrant grant workspaceRoot homeDir).ok = true) {home : String}
    (hhold : DigestHolds sys m workspaceRoot) : StaysInside sys m workspaceRoot home := by
  intro action hfile hmatch path hpath
  obtain ⟨digest, hdigest, hhold⟩ := hhold
  obtain ⟨-, hd, hkind, hany⟩ := (matchesAction_iff hm h hfile).mp hmatch
  by_contra hout
  rcases hhold action hfile (hd digest hdigest).symm ⟨path, hpath, eq_false_of_ne_true hout⟩ with
    hk | ⟨globs, hglobs, hno⟩
  · exact hk hkind
  · exact absurd (hany globs hglobs) (by rw [hno]; exact Bool.false_ne_true)

/-- A grant without a digest that matches some file actions goes outside, unless its globs hold. -/
theorem globsHold_of_staysInside (hm : grant.match = some m)
    (h : (validateRuleGrant grant workspaceRoot homeDir).ok = true) {home : String}
    (hspare : ¬SparesFiles m) (hdigest : m.digest = none)
    (hin : StaysInside sys m workspaceRoot home) : GlobsHold m workspaceRoot := by
  simp only [SparesFiles, not_or, not_not, not_forall] at hspare
  obtain ⟨⟨kind, hfile, hkind⟩, hrest⟩ := hspare
  have hno (digest : String) : ∀ d, m.digest = some d → d = digest := by simp [hdigest]
  obtain ⟨outside, hout⟩ := exists_outside workspaceRoot
  -- no action of a listed kind with a path outside is matched
  have hkeep (action : NormalizedAction) (path : String) (hf : action.kind ∈ fileKinds)
      (hk : action.kind ∈ m.kinds.getD []) (hpath : path ∈ actionPaths action)
      (hpout : isWithin workspaceRoot path = false) :
      ∃ globs, m.paths = some globs ∧ anyPathGlob globs (actionPaths action) = false := by
    by_contra hnot
    have hmatch : matchesAction m action home (actionDigest sys action) = true :=
      (matchesAction_iff hm h hf).mpr ⟨hrest, hno _, hk, fun globs hglobs ↦
        eq_true_of_ne_false fun hfalse ↦ hnot ⟨globs, hglobs, hfalse⟩⟩
    exact absurd (hin action hf hmatch path hpath) (by rw [hpout]; exact Bool.false_ne_true)
  have hk := kind_touching outside outside hfile
  obtain ⟨globs, hglobs, -⟩ := hkeep (touching outside outside kind) outside
    (by rw [hk]; exact hfile) (by rw [hk]; exact hkind)
    (mem_actionPaths_touching outside outside kind) hout
  refine ⟨globs, hglobs, ?_⟩
  by_contra hnot
  rw [not_or, not_and_or, not_not] at hnot
  obtain ⟨hne, hpatch | hsteer⟩ := hnot
  · -- one file of a patch under a glob, and another outside
    obtain ⟨glob, hglob⟩ := List.exists_mem_of_ne_nil _ hne
    obtain ⟨globs', hglobs', hfalse⟩ := hkeep (.patch [glob, outside] false "") outside
      (by simp [fileKinds, NormalizedAction.kind]) hpatch (by simp [actionPaths]) hout
    obtain rfl : globs = globs' := Option.some.inj (hglobs.symm.trans hglobs')
    rw [anyPathGlob_of_mem hglob (by simp [actionPaths]) (matchGlob_self glob)] at hfalse
    cases hfalse
  · simp only [not_forall, Bool.not_eq_false] at hsteer
    obtain ⟨glob, hglob, hsteer⟩ := hsteer
    have hok := (of_validateRuleGrant hm h).2 glob (by rw [hglobs]; exact hglob)
    obtain ⟨path, hpath, hpout⟩ := exists_outside_of_steers hok hsteer
    have hk := kind_touching path path hfile
    obtain ⟨globs', hglobs', hfalse⟩ := hkeep (touching path path kind) path
      (by rw [hk]; exact hfile) (by rw [hk]; exact hkind)
      (mem_actionPaths_touching path path kind) hpout
    obtain rfl : globs = globs' := Option.some.inj (hglobs.symm.trans hglobs')
    rw [anyPathGlob_of_mem hglob (mem_actionPaths_touching path path kind) hpath] at hfalse
    cases hfalse

theorem digestHolds_of_staysInside (hm : grant.match = some m)
    (h : (validateRuleGrant grant workspaceRoot homeDir).ok = true) {home digest : String}
    (hspare : ¬SparesFiles m) (hdigest : m.digest = some digest)
    (hin : StaysInside sys m workspaceRoot home) : DigestHolds sys m workspaceRoot := by
  simp only [SparesFiles, not_or, not_not] at hspare
  refine ⟨digest, hdigest, ?_⟩
  rintro action hfile rfl ⟨path, hpath, hout⟩
  by_contra hnot
  rw [not_or, not_not] at hnot
  have hd : ∀ d, m.digest = some d → d = actionDigest sys action :=
    fun d hd ↦ (Option.some.inj (hdigest.symm.trans hd)).symm
  have hmatch : matchesAction m action home (actionDigest sys action) = true :=
    (matchesAction_iff hm h hfile).mpr ⟨hspare.2, hd, hnot.1, fun globs hglobs ↦
      eq_true_of_ne_false fun hfalse ↦ hnot.2 ⟨globs, hglobs, hfalse⟩⟩
  exact absurd (hin action hfile hmatch path hpath) (by rw [hout]; exact Bool.false_ne_true)

end Grant

/-- **What an accepted rule grant reaches.** It stays inside the workspace exactly if it matches no
file action, its globs hold it, or its digest does. -/
theorem staysInside_iff (sys : Platform) (grant : Grant) (m : ActionMatcher)
    (workspaceRoot homeDir home : String) (hm : grant.match = some m)
    (h : (validateRuleGrant grant workspaceRoot homeDir).ok = true) :
    StaysInside sys m workspaceRoot home ↔
      SparesFiles m ∨ GlobsHold m workspaceRoot ∨ DigestHolds sys m workspaceRoot := by
  constructor
  · intro hin
    by_cases hspare : SparesFiles m
    · exact .inl hspare
    · cases hdigest : m.digest with
      | none => exact .inr (.inl (globsHold_of_staysInside hm h hspare hdigest hin))
      | some digest => exact .inr (.inr (digestHolds_of_staysInside hm h hspare hdigest hin))
  · rintro (hspare | hhold | hhold)
    · intro action hfile hmatch
      obtain ⟨⟨h₁, h₂, h₃, h₄, h₅⟩, -, hkind, -⟩ := (matchesAction_iff hm h hfile).mp hmatch
      exact absurd hspare (by
        simpa [SparesFiles, h₁, h₂, h₃, h₄, h₅] using ⟨action.kind, hfile, hkind⟩)
    · exact staysInside_of_globsHold hm h hhold
    · exact staysInside_of_digestHolds hm h hhold

/-! ### A root with siblings -/

/-- A grant to write what a glob matches. -/
def exampleRuleGrant (glob : String) : Grant :=
  ⟨"g", .rule, none,
    some { ActionMatcher.empty with kinds := some [.fileWrite], paths := some [glob] },
    0, none, none, none, "user", "edits"⟩

theorem globProblem_eq_none {workspaceRoot homeDir pattern path : String}
    (hslash : ['/'] <+: pattern.toList) (hpath : String.ofList (anchor pattern) = path)
    (hne : path ≠ "") (hin : isWithin workspaceRoot path = true)
    (hspare : ∀ access, classifyPath path access workspaceRoot homeDir = []) :
    globProblem workspaceRoot homeDir pattern = none := by
  rw [globProblem, if_neg (not_not.mpr hslash)]
  dsimp only
  rw [hpath, if_neg (not_or.mpr ⟨hne, (Bool.not_eq_false _).mpr hin⟩), hspare, hspare,
    if_neg (not_or.mpr ⟨not_not.mpr rfl, not_not.mpr rfl⟩)]

theorem ok_exampleRuleGrant {glob workspaceRoot homeDir : String}
    (h : globProblem workspaceRoot homeDir glob = none) :
    (validateRuleGrant (exampleRuleGrant glob) workspaceRoot homeDir).ok = true := by
  have hproblems : [glob].filterMap (globProblem workspaceRoot homeDir) = [] := by
    rw [List.filterMap_cons_none h, List.filterMap_nil]
  exact congrArg List.isEmpty hproblems

theorem ok_sources : (validateRuleGrant (exampleRuleGrant "/work/app/src/**") "/work/app"
    "/home/user").ok = true := by
  have hchars : "/work/app/src/**".toList = _ := Codec.toList_eq rfl
  have hanchor : String.ofList (anchor "/work/app/src/**") = "/work/app/src" := by
    rw [anchor, literal, hchars]
    rfl
  refine ok_exampleRuleGrant (globProblem_eq_none ?_ hanchor (by decide) (by decide)
    fun access ↦ classifyPath_eq_nil rfl rfl (by decide) access _)
  rw [hchars]
  decide

theorem ok_siblings : (validateRuleGrant (exampleRuleGrant "/work/app*") "/work/app"
    "/home/user").ok = true := by
  have hchars : "/work/app*".toList = _ := Codec.toList_eq rfl
  have hanchor : String.ofList (anchor "/work/app*") = "/work/app" := by
    rw [anchor, literal, hchars]
    rfl
  refine ok_exampleRuleGrant (globProblem_eq_none ?_ hanchor (by decide) (by decide)
    fun access ↦ classifyPath_eq_nil rfl rfl (by decide) access _)
  rw [hchars]
  decide

theorem staysInside_iff_example :
    StaysInside examplePlatform { ActionMatcher.empty with
        kinds := some [.fileWrite], paths := some ["/work/app/src/**"] } "/work/app" "/home/user" :=
  (staysInside_iff examplePlatform (exampleRuleGrant "/work/app/src/**") _ "/work/app" "/home/user"
    "/home/user" rfl ok_sources).mpr
    (.inr (.inl ⟨_, rfl, .inr ⟨by decide, fun glob hglob ↦ by
      rw [List.mem_singleton.mp hglob]
      decide⟩⟩))

/-- A star right after the root covers the siblings of the root. -/
theorem not_staysInside_sibling :
    (validateRuleGrant (exampleRuleGrant "/work/app*") "/work/app" "/home/user").ok = true ∧
      ¬StaysInside examplePlatform { ActionMatcher.empty with
        kinds := some [.fileWrite], paths := some ["/work/app*"] } "/work/app" "/home/user" := by
  refine ⟨ok_siblings, fun hin ↦ ?_⟩
  have hmatch := hin
    (.fileWrite "/work/app-backup" false
      "2c26b46b68ffc68ff99b453c1d30413413422d706483bfa0f98a5e886266e7ae")
    (by decide) (by decide +kernel) "/work/app-backup" (List.mem_singleton_self _)
  exact absurd hmatch (by decide)

end QwenHarness.Policy
