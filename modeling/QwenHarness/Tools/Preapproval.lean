import QwenHarness.Policy.RuleGrants
import QwenHarness.Tools.Unattended

/-!
# The rule for one command

The rule that a scheduled command is given keeps the command and its arguments as one line, and the
line is read as a glob. So it tells where a word of the line ends no more than the line does, and a
`*` or `?` in it stands for more than itself.
-/

namespace QwenHarness.Tools

open Policy Pattern

/-! ## Globs over texts -/

section Text

variable {l rest w : List ℕ} {u v : ℕ}

theorem globToRegExp_text_cons (hu : u ≠ Policy.star) (hu' : u ≠ question) :
    globToRegExp .text (u :: rest) = .letter u :: globToRegExp .text rest := by
  rw [globToRegExp.eq_def]
  refine (if_neg fun h ↦ ?_).trans ((if_neg hu).trans (if_neg hu'))
  cases h.1

theorem globToRegExp_text_append (rest : List ℕ) (hl : ∀ u ∈ l, u ≠ Policy.star ∧ u ≠ question) :
    globToRegExp .text (l ++ rest) = l.map Part.letter ++ globToRegExp .text rest := by
  induction l with
  | nil => rfl
  | cons u l ih =>
    rw [List.forall_mem_cons] at hl
    rw [List.cons_append, globToRegExp_text_cons hl.1.1 hl.1.2, ih hl.2]
    rfl

/-- A text without wildcards matches itself alone. -/
theorem accepts_text_literal (hl : ∀ u ∈ l, u ≠ Policy.star ∧ u ≠ question) :
    accepts (globToRegExp .text l) w = true ↔ w = l := by
  refine ⟨fun h ↦ ?_, fun h ↦ h ▸ accepts_globToRegExp_self _ _⟩
  rw [← List.append_nil l, globToRegExp_text_append [] hl, accepts_map_letter] at h
  obtain ⟨r, rfl, hr⟩ := h
  have hnil : r = [] := List.isEmpty_iff.mp hr
  rw [hnil, List.append_nil]

/-- Where a glob begins with a wildcard, any letter but a line end may stand for it. -/
theorem accepts_text_wildcard (hu : u = Policy.star ∨ u = question) (hv : notLineEnd v = true) :
    accepts (globToRegExp .text (u :: rest)) (v :: rest) = true := by
  have hstar : notLineEnd Policy.star = true := by decide
  have hwild : GlobFlavor.text.wild v = true := hv
  have hslash : notLineEnd slash = true := by decide
  have hpath : ∀ p, ¬(GlobFlavor.text = .path ∧ p) := fun p h ↦ by cases h.1
  rw [globToRegExp.eq_def]
  dsimp only
  rw [if_neg (hpath _)]
  rcases hu with rfl | rfl
  · rw [if_pos rfl]
    cases rest with
    | nil => exact accepts_cons (w := [v]) (by simpa [Part.Denotes] using hwild) (r := []) rfl
    | cons d rest =>
      by_cases hd : d = Policy.star
      · subst hd
        dsimp only
        rw [if_pos rfl]
        cases rest with
        | nil =>
          exact accepts_cons (w := [v, Policy.star]) (by simp [Part.Denotes, hv, hstar])
            (r := []) rfl
        | cons e rest =>
          by_cases he : e = slash
          · subst he
            dsimp only
            rw [if_pos rfl, if_neg (by decide)]
            exact accepts_cons (w := [v, Policy.star, slash])
              (by simp [Part.Denotes, hv, hstar, hslash]) (accepts_globToRegExp_self _ _)
          · dsimp only
            rw [if_neg he]
            exact accepts_cons (w := [v, Policy.star]) (by simp [Part.Denotes, hv, hstar])
              (accepts_globToRegExp_self _ _)
      · dsimp only
        rw [if_neg hd]
        exact accepts_cons (w := [v]) (by simpa [Part.Denotes] using hwild)
          (accepts_globToRegExp_self _ _)
  · rw [if_neg (by decide), if_pos rfl]
    exact accepts_cons (w := [v]) ⟨v, hv, rfl⟩ (accepts_globToRegExp_self _ _)

end Text

/-! ## Which commands are told apart -/

section Glob

variable {pattern value : String}

theorem ne_wildcard {l : List Char} (h : ∀ c ∈ l, isWildcard c = false) :
    ∀ u ∈ l.flatMap charUnits, u ≠ Policy.star ∧ u ≠ question := by
  have hunit : ∀ d : Char, d.toNat < 0xD800 → isWildcard d = true →
      ∀ u ∈ l.flatMap charUnits, u ≠ d.toNat := by
    rintro d hd hwild u hu rfl
    obtain ⟨c, hc, hu⟩ := List.mem_flatMap.mp hu
    have hcd : c = d := Char.toNat_inj.mp (mem_charUnits hd hu)
    exact Bool.false_ne_true ((h c hc).symm.trans (hcd ▸ hwild))
  exact fun u hu ↦ ⟨hunit '*' (by decide) rfl u hu, hunit '?' (by decide) rfl u hu⟩

theorem matchTextGlob_literal (h : ∀ c ∈ pattern.toList, isWildcard c = false) :
    matchTextGlob pattern value = true ↔ value = pattern := by
  rw [matchTextGlob, codeUnits_eq, codeUnits_eq, accepts_text_literal (ne_wildcard h),
    flatMap_charUnits_injective.eq_iff, String.toList_inj]

/-- A glob with a wildcard in it matches more than one text. -/
theorem exists_matchTextGlob (h : ∃ c ∈ pattern.toList, isWildcard c = true) :
    ∃ x y, x ≠ y ∧ matchTextGlob pattern x = true ∧ matchTextGlob pattern y = true := by
  obtain ⟨pre, c, post, hsplit, hc, hpre⟩ : ∃ pre c post, pattern.toList = pre ++ c :: post ∧
      isWildcard c = true ∧ ∀ c ∈ pre, isWildcard c = false := by
    obtain ⟨c, hfind⟩ := Option.isSome_iff_exists.mp (List.find?_isSome.mpr h)
    obtain ⟨hc, pre, post, hsplit, hpre⟩ := List.find?_eq_some_iff_append.mp hfind
    exact ⟨pre, c, post, hsplit, hc, fun d hd ↦ (Bool.not_eq_true' _).mp (hpre d hd)⟩
  have hmatch : ∀ d : Char, charUnits d = [d.toNat] → notLineEnd d.toNat = true →
      matchTextGlob pattern (String.ofList (pre ++ d :: post)) = true := by
    intro d hd hend
    have hunits : ∃ u, charUnits c = [u] ∧ (u = Policy.star ∨ u = question) := by
      rcases of_decide_eq_true hc with rfl | rfl
      · exact ⟨Policy.star, rfl, .inl rfl⟩
      · exact ⟨question, rfl, .inr rfl⟩
    obtain ⟨u, hu, hwild⟩ := hunits
    rw [matchTextGlob, codeUnits_eq, codeUnits_ofList, hsplit, List.flatMap_append,
      List.flatMap_append, List.flatMap_cons, List.flatMap_cons, hu, hd,
      globToRegExp_text_append _ (ne_wildcard hpre), accepts_map_letter]
    exact ⟨_, rfl, accepts_text_wildcard hwild hend⟩
  refine ⟨_, _, fun heq ↦ ?_, hmatch 'x' rfl (by decide), hmatch 'y' rfl (by decide)⟩
  have hcons := List.append_cancel_left (String.ofList_injective heq)
  exact absurd (List.cons.inj hcons).1 (by decide)

end Glob

section Exact

variable {command command' line : String} {argv argv' : List String} {cwd homeDir digest : String}

/-- A command and its arguments as an action of the shell: joined by single spaces. -/
def runAction (command : String) (argv : List String) (cwd : String) : NormalizedAction :=
  .shell (" ".intercalate (command :: argv)) argv cwd

/-- The rule for a command is about this command with these arguments and nothing else. -/
structure Exact (command : String) (argv : List String) : Prop where
  matches_iff : ∀ command' argv' cwd homeDir digest,
    matchesAction (preapprovalRule command argv).match (runAction command' argv' cwd) homeDir
      digest = true ↔ command' = command ∧ argv' = argv
  /-- For another command it changes nothing. -/
  elsewhere : ∀ command' argv' cwd homeDir digest, (command', argv') ≠ (command, argv) →
    ∀ rules, mergeRules (rules ++ [preapprovalRule command argv]) (runAction command' argv' cwd)
      homeDir digest = mergeRules rules (runAction command' argv' cwd) homeDir digest

/-- A word that stands for itself: without arguments, spaces at its ends or within, `*` and `?`. -/
structure Plain (command : String) (argv : List String) : Prop where
  argv : argv = []
  trimmed : trim command = command
  space : ' ' ∉ command.toList
  wildcard : ∀ c ∈ command.toList, isWildcard c = false

theorem matches_shell_iff :
    matchesAction (preapprovalRule command argv).match (.shell line argv' cwd) homeDir digest =
      matchTextGlob (commandLine command argv) line := by
  have hline : anyTextGlob [commandLine command argv] [line] =
      matchTextGlob (commandLine command argv) line := by
    rw [anyTextGlob, List.any_cons, List.any_nil, List.any_cons, List.any_nil, Bool.or_false,
      Bool.or_false]
  simp only [matchesAction, isEmptyMatcher, ActionMatcher.empty, preapprovalRule, asks,
    Option.map_none, Option.getD_none, Option.map_some, Option.getD_some, hline,
    NormalizedAction.kind, ActionMatcher.mk.injEq, reduceCtorEq, false_and, decide_false,
    Bool.not_false, Bool.and_true, Bool.true_and, List.mem_singleton, decide_true]

theorem matches_runAction :
    matchesAction (preapprovalRule command argv).match (runAction command' argv' cwd) homeDir
      digest = matchTextGlob (commandLine command argv) (" ".intercalate (command' :: argv')) :=
  matches_shell_iff

theorem mergeRules_append_of_not_matches {rules : List PolicyRule} {rule : PolicyRule}
    {action : NormalizedAction} (h : matchesAction rule.match action homeDir digest = false) :
    mergeRules (rules ++ [rule]) action homeDir digest =
      mergeRules rules action homeDir digest := by
  have hfilter : (rules ++ [rule]).filter (fun r ↦ matchesAction r.match action homeDir digest) =
      rules.filter fun r ↦ matchesAction r.match action homeDir digest := by
    rw [List.filter_append, List.filter_singleton, h]
    exact List.append_nil _
  rw [mergeRules, hfilter, mergeRules]

/-- The space after a command without arguments is taken off again. -/
theorem commandLine_nil : commandLine command [] = trim command := by
  have hspace : isTrimmed ' ' = true := by decide
  rw [commandLine, trim, trim]
  congr 1
  have hlist : (command ++ " " ++ " ".intercalate []).toList = command.toList ++ [' '] := by
    rw [String.toList_append, String.toList_append]
    exact List.append_nil _
  rw [hlist, List.dropWhile_append]
  cases hnil : (command.toList.dropWhile isTrimmed) with
  | nil =>
    rw [List.isEmpty_nil, if_pos rfl, List.dropWhile_cons_of_pos hspace]
    rfl
  | cons c cs =>
    rw [List.isEmpty_cons, if_neg Bool.false_ne_true]
    exact List.rdropWhile_concat_pos _ _ _ hspace

theorem toList_intercalate_cons (arg : String) : (" ".intercalate (command :: arg :: argv)).toList =
    command.toList ++ ' ' :: (" ".intercalate (arg :: argv)).toList := by
  rw [String.intercalate_cons_cons, String.toList_append, String.toList_append, List.append_assoc]
  rfl

/-- Without a space in it a line is a command without arguments. -/
theorem intercalate_eq_iff (hspace : ' ' ∉ line.toList) :
    " ".intercalate (command :: argv) = line ↔ command = line ∧ argv = [] := by
  cases argv with
  | nil => exact ⟨fun h ↦ ⟨h, rfl⟩, fun h ↦ h.1⟩
  | cons arg argv =>
    refine ⟨fun h ↦ absurd ?_ hspace, fun h ↦ by cases h.2⟩
    rw [← h, toList_intercalate_cons]
    exact List.mem_append_right _ List.mem_cons_self

/-- A command that is told apart is one word without wildcards. -/
theorem Exact.plain (h : Exact command argv) : Plain command argv := by
  have hline : ∀ line, matchTextGlob (commandLine command argv) line = true →
      line = command ∧ [] = argv := by
    intro line hmatch
    refine (h.matches_iff line [] "/" "/" "").mp ?_
    rwa [matches_runAction]
  have hself : matchTextGlob (commandLine command argv) (" ".intercalate (command :: argv)) =
      true := by
    rw [← @matches_runAction command command argv argv "/" "/" ""]
    exact (h.matches_iff command argv "/" "/" "").mpr ⟨rfl, rfl⟩
  obtain rfl := (hline _ hself).2
  have hliteral : ∀ c ∈ (commandLine command []).toList, isWildcard c = false := by
    intro c hc
    rw [Bool.eq_false_iff]
    intro hwild
    obtain ⟨x, y, hne, hx, hy⟩ := exists_matchTextGlob ⟨c, hc, hwild⟩
    exact hne ((hline x hx).1.trans (hline y hy).1.symm)
  have hcommand : command = commandLine command [] := (matchTextGlob_literal hliteral).mp hself
  refine ⟨rfl, commandLine_nil.symm.trans hcommand.symm, fun hspace ↦ ?_, ?_⟩
  · obtain ⟨pre, post, hsplit⟩ := List.append_of_mem hspace
    have hjoin : " ".intercalate [String.ofList pre, String.ofList post] = command := by
      rw [← String.toList_inj, toList_intercalate_cons, hsplit, String.toList_ofList]
      exact congrArg (pre ++ ' ' :: ·) String.toList_ofList
    have hmatch : matchesAction (preapprovalRule command []).match
        (runAction (String.ofList pre) [String.ofList post] "/") "/" "" = true := by
      rw [matches_runAction, hjoin]
      exact hself
    cases ((h.matches_iff _ _ _ _ _).mp hmatch).2
  · rw [hcommand]
    exact hliteral

theorem Plain.exact (h : Plain command argv) : Exact command argv := by
  have hline : commandLine command argv = command := by
    rw [h.argv, commandLine_nil, h.trimmed]
  have hiff : ∀ command' argv' cwd homeDir digest,
      matchesAction (preapprovalRule command argv).match (runAction command' argv' cwd) homeDir
        digest = true ↔ command' = command ∧ argv' = argv := by
    intro command' argv' cwd homeDir digest
    rw [matches_runAction, hline, matchTextGlob_literal h.wildcard, intercalate_eq_iff h.space,
      h.argv]
  refine ⟨hiff, fun command' argv' cwd homeDir digest hne rules ↦ ?_⟩
  refine mergeRules_append_of_not_matches (Bool.eq_false_iff.mpr fun hmatch ↦ hne ?_)
  obtain ⟨rfl, rfl⟩ := (hiff _ _ _ _ _).mp hmatch
  rfl

/-- **Which commands the rule is exact for:** those of one word without arguments, with neither a
wildcard nor a space in it. -/
theorem exact_iff (command : String) (argv : List String) :
    Exact command argv ↔
      argv = [] ∧ trim command = command ∧ ' ' ∉ command.toList ∧
        ∀ c ∈ command.toList, isWildcard c = false :=
  ⟨fun h ↦ ⟨h.plain.argv, h.plain.trimmed, h.plain.space, h.plain.wildcard⟩,
    fun ⟨hargv, htrimmed, hspace, hwild⟩ ↦ Plain.exact ⟨hargv, htrimmed, hspace, hwild⟩⟩

/-- The rule for `rm *` lets `rm a` through. -/
theorem not_exact_rmAll : ¬ Exact "rm" ["*"] := by
  intro h
  have hmatch : matchesAction (preapprovalRule "rm" ["*"]).match (runAction "rm" ["a"] "/w")
      "/home" "" = true := by
    decide +kernel
  exact absurd ((h.matches_iff _ _ _ _ _).mp hmatch).2 (by decide)

end Exact

end QwenHarness.Tools
