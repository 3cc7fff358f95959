import QwenHarness.Tui.Diff

/-!
# What is read of a valid diff

A hunk that was read only grows, until a line ends it for good. So the first line that is taken for
something else shows in the result: its hunk has a line too few or one too many, or a file has the
hunks of the next.
-/

namespace QwenHarness.Tui

open Utf16

/-! ## Headers -/

theorem isDigit_of_mem_digits {n : ℕ} : ∀ u ∈ ofChars (Nat.toDigits 10 n), isDigit u = true := by
  intro u hu
  obtain ⟨c, hc, hu⟩ := List.mem_flatMap.mp hu
  have hdigit := Nat.isDigit_of_mem_toDigits (by decide) (by decide) hc
  simp only [Char.isDigit, Bool.and_eq_true, decide_eq_true_eq] at hdigit
  have hle : 48 ≤ c.toNat ∧ c.toNat ≤ 57 := ⟨hdigit.1, hdigit.2⟩
  rw [ofChar, if_pos (by omega)] at hu
  rw [isDigit, isBetween, decide_eq_true_eq, List.mem_singleton.mp hu, Fin.val_ofNat]
  omega

theorem digits_ne_nil {n : ℕ} : ofChars (Nat.toDigits 10 n) ≠ [] := by
  intro h
  have hchars := congrArg toChars h
  rw [toChars_ofChars] at hchars
  exact Nat.toDigits_ne_nil hchars

/-- A number is read as far as its digits go. -/
theorem takeDigits_append (n : ℕ) {t : Text} (h : ∀ u ∈ t.head?, isDigit u = false) :
    takeDigits (ofChars (Nat.toDigits 10 n) ++ t) = some (n, t) := by
  have hrest : t.takeWhile isDigit = [] ∧ t.dropWhile isDigit = t := by
    cases t with
    | nil => exact ⟨rfl, rfl⟩
    | cons u t =>
      have hu := h u rfl
      exact ⟨List.takeWhile_cons_of_neg (by rw [hu]; decide),
        List.dropWhile_cons_of_neg (by rw [hu]; decide)⟩
  rw [takeDigits, List.takeWhile_append_of_pos isDigit_of_mem_digits, hrest.1, List.append_nil,
    List.dropWhile_append_of_pos isDigit_of_mem_digits, hrest.2]
  rw [if_neg digits_ne_nil, toChars_ofChars, Nat.ofDigitChars_ten_toDigits]

theorem dropPrefix?_append (word : String) (t : Text) :
    (ofString word ++ t).dropPrefix? (ofString word) = some t :=
  List.dropPrefix?_eq_some_iff.mpr ⟨ofString word, rfl, beq_self_eq_true _⟩

theorem takeRange_range (h : Hunk) (start count : ℕ) {word : String} {t : Text}
    (hword : ∃ ws, ofString word = 0x20 :: ws) :
    takeRange (h.range start count ++ (ofString word ++ t)) =
      some ((start, count), ofString word ++ t) := by
  obtain ⟨ws, hws⟩ := hword
  have hend : ∀ u ∈ (ofString word ++ t).head?, isDigit u = false := by
    rw [hws]
    rintro _ ⟨⟩
    rfl
  have hcount : takeCount (ofString word ++ t) = (none, ofString word ++ t) := by
    rw [hws]
    rfl
  rw [Hunk.range, List.append_assoc]
  split_ifs with hshort
  · have hone : count = 1 := of_decide_eq_true (Bool.and_eq_true _ _ ▸ hshort).2
    rw [List.nil_append, takeRange, takeDigits_append _ hend, Option.map_some, hcount, hone]
    rfl
  · have hcomma : takeCount (ofString "," ++ ofChars (Nat.toDigits 10 count) ++
        (ofString word ++ t)) = (some count, ofString word ++ t) := by
      rw [takeCount, List.append_assoc, dropPrefix?_append, Option.bind_some,
        takeDigits_append _ hend]
    rw [takeRange, takeDigits_append _ (by rintro _ ⟨⟩; rfl), Option.map_some, hcomma]
    rfl

/-- A header is read as what it was written from. -/
theorem hunkHeader_header (h : Hunk) :
    hunkHeader h.header = some ((h.oldStart, h.oldLines), h.newStart, h.newLines) := by
  have hat : ∀ t, (ofString " -" ++ t).dropWhile (isUnit 0x40) = ofString " -" ++ t :=
    fun t ↦ List.dropWhile_cons_of_neg (by decide)
  rw [hunkHeader, Hunk.header]
  simp only [dropPrefix?_append, hat, Option.bind_eq_bind, Option.bind_some]
  rw [takeRange_range h _ _ ⟨_, rfl⟩]
  simp only [dropPrefix?_append, Option.bind_some]
  rw [takeRange_range h _ _ ⟨_, rfl⟩]
  simp only [dropPrefix?_append, Option.bind_some]
  rfl

/-! ## What a line does -/

namespace Parser

variable {nearest : ℕ → ℕ} {p q : Parser} {r : List DiffFile}

theorem startsWith_append (word : String) (t : Text) :
    startsWith (ofString word ++ t) word = true :=
  List.isPrefixOf_iff_prefix.mpr (List.prefix_append _ _)

theorem step_header (h : Hunk) : p.step nearest h.header = p.newHunk (h.opened nearest []) := by
  have hdiff : startsWith h.header "diff --git " = false := rfl
  have hold : startsWith h.header "--- " = false := rfl
  have hnew : startsWith h.header "+++ " = false := rfl
  rw [step, startsFile, hdiff, hold, readLine, hold, hnew, hunkHeader_header]
  rfl

theorem step_git (names : Line) : p.step nearest (ofString "diff --git " ++ names.val) =
    p.newFile := by
  have hold : startsWith (ofString "diff --git " ++ names.val) "--- " = false := rfl
  have hnew : startsWith (ofString "diff --git " ++ names.val) "+++ " = false := rfl
  have hhunk : hunkHeader (ofString "diff --git " ++ names.val) = none := rfl
  rw [step, startsFile, startsWith_append, hold, readLine, hold, hnew, hhunk]
  rfl

/-- The parser as it is before a path. -/
def beforePath (p : Parser) : Parser := if p.hunk.isSome then p.newFile else p

theorem step_old (path : Line) : p.step nearest (ofString "--- " ++ path.val) =
    p.beforePath.setOldPath (safe (cleanPath path.val)) := by
  have hdiff : startsWith (ofString "--- " ++ path.val) "diff --git " = false := rfl
  rw [step, startsFile, hdiff, startsWith_append, Bool.false_or, Bool.true_and,
    readLine, startsWith_append, if_pos rfl]
  rfl

theorem step_new (path : Line) : p.step nearest (ofString "+++ " ++ path.val) =
    p.setNewPath (safe (cleanPath path.val)) := by
  have hdiff : startsWith (ofString "+++ " ++ path.val) "diff --git " = false := rfl
  have hold : startsWith (ofString "+++ " ++ path.val) "--- " = false := rfl
  rw [step, startsFile, hdiff, hold, readLine, hold, startsWith_append]
  rfl

theorem step_remark (x : Remark) : p.step nearest x.line.val =
    if p.hunk.isSome then p.pushLine (hunkLine x.line.val) else p := by
  rw [step, startsFile, x.git, x.old, readLine, x.old, x.new, x.hunk]
  rfl

theorem run_remarks (h : p.hunk = none) (xs : List Remark) :
    p.run nearest (xs.map (·.line.val)) = p := by
  induction xs with
  | nil => rfl
  | cons x xs ih =>
    rw [List.map_cons, run, List.foldl_cons, step_remark, h]
    exact ih

theorem step_body {l : BodyLine} (hl : l.imitates = false) (h : p.hunk.isSome = true) :
    p.step nearest l.raw = p.pushLine l.parsed := by
  have hstep : ∀ t : Text, startsWith t "diff --git " = false → startsWith t "--- " = false →
      startsWith t "+++ " = false → hunkHeader t = none →
      p.step nearest t = p.pushLine (hunkLine t) := by
    intro t hdiff hold hnew hhunk
    rw [step, startsFile, hdiff, hold, readLine, hold, hnew, hhunk]
    exact if_pos h
  cases l with
  | context content => exact hstep _ rfl rfl rfl rfl
  | blank => exact hstep _ rfl rfl rfl rfl
  | removed content => exact hstep _ rfl hl rfl rfl
  | added content => exact hstep _ rfl rfl hl rfl
  | remark content => exact hstep _ rfl rfl rfl rfl

/-! ## What a line leaves as it is -/

/-- The hunks of a file, the last of which may still be read, with what has come since. -/
def Grown (hunks : List DiffHunk) : Option DiffHunk → List DiffHunk → Prop
  | none, after => hunks <+: after
  | some h, after => ∃ h' more, after = hunks ++ h' :: more ∧ h.lines <+: h'.lines

/-- Files that begin with those that were read. -/
def Begins (p : Parser) (r : List DiffFile) : Prop :=
  ∀ f, p.file = some f → ∃ f' rest, r = p.files ++ f' :: rest ∧ Grown f.hunks p.hunk f'.hunks

theorem Grown.of_hunks {hunks after : List DiffHunk} {hunk : Option DiffHunk}
    (h : hunks ++ hunk.toList <+: after) : Grown hunks hunk after := by
  cases hunk with
  | none => rwa [Option.toList_none, List.append_nil] at h
  | some x =>
    obtain ⟨more, rfl⟩ := h
    exact ⟨x, more, List.append_assoc _ _ _, List.prefix_rfl⟩

theorem Grown.isPrefix {hunks after : List DiffHunk} {hunk : Option DiffHunk}
    (h : Grown hunks hunk after) : hunks <+: after := by
  cases hunk with
  | none => exact h
  | some x =>
    obtain ⟨h', more, rfl, -⟩ := h
    exact List.prefix_append _ _

theorem hunks_ensureFile {f : DiffFile} (hf : p.file = some f) :
    p.ensureFile.hunks = f.hunks ++ p.hunk.toList := by
  rw [ensureFile, hf]
  rfl

theorem result_of_file {f : DiffFile} (hf : p.file = some f) :
    p.result = p.files ++ [p.ensureFile] := by
  rw [result, hf]

theorem begins_result (p : Parser) : p.Begins p.result := fun _ hf ↦
  ⟨p.ensureFile, [], result_of_file hf,
    .of_hunks ⟨[], (List.append_nil _).trans (hunks_ensureFile hf).symm⟩⟩

/-- Files in which nothing more has come into the hunk that was read. -/
def Shut (p : Parser) (r : List DiffFile) : Prop :=
  ∃ f' rest, r = p.files ++ f' :: rest ∧ p.ensureFile.hunks <+: f'.hunks

theorem Shut.begins (h : p.Shut r) : p.Begins r := by
  intro f hf
  obtain ⟨f', rest, hr, hprefix⟩ := h
  refine ⟨f', rest, hr, .of_hunks ?_⟩
  rwa [hunks_ensureFile hf] at hprefix

theorem Begins.shut {g : DiffFile} (h : q.Begins r) (hfiles : q.files = p.files)
    (hfile : q.file = some g) (hg : g.hunks = p.ensureFile.hunks) : p.Shut r := by
  obtain ⟨f', rest, hr, hgrown⟩ := h g hfile
  exact ⟨f', rest, by rw [hr, hfiles], hg ▸ hgrown.isPrefix⟩

theorem Begins.shut_of_newFile {f : DiffFile} (hf : p.file = some f) (h : p.newFile.Begins r) :
    p.Shut r := by
  obtain ⟨f', rest, hr, -⟩ := h _ rfl
  refine ⟨p.ensureFile, f' :: rest, ?_, List.prefix_rfl⟩
  rw [hr, newFile, result_of_file hf, List.append_assoc]
  rfl

theorem Begins.of_pushLine {line : DiffLine} (h : (p.pushLine line).Begins r) : p.Begins r := by
  intro f hf
  obtain ⟨f', rest, hr, hgrown⟩ := h f hf
  refine ⟨f', rest, hr, ?_⟩
  cases hhunk : p.hunk with
  | none =>
    rw [pushLine, hhunk] at hgrown
    exact hgrown
  | some x =>
    rw [pushLine, hhunk] at hgrown
    obtain ⟨h', more, hafter, hlines⟩ := hgrown
    exact ⟨h', more, hafter, (List.prefix_append _ _).trans hlines⟩

theorem Begins.of_readLine {rawLine : Text} (h : (p.readLine nearest rawLine).Begins r) :
    p.Begins r := by
  rw [readLine] at h
  by_cases hold : startsWith rawLine "--- " = true
  · rw [if_pos hold] at h
    exact (h.shut (p := p) rfl rfl rfl).begins
  · by_cases hnew : startsWith rawLine "+++ " = true
    · rw [if_neg hold, if_pos hnew] at h
      exact (h.shut (p := p) rfl rfl rfl).begins
    · rw [if_neg hold, if_neg hnew] at h
      cases hhunk : hunkHeader rawLine with
      | some x =>
        rw [hhunk] at h
        exact (h.shut (p := p) rfl rfl rfl).begins
      | none =>
        rw [hhunk] at h
        dsimp only at h
        split_ifs at h
        · exact h.of_pushLine
        · exact h

theorem Begins.of_step {rawLine : Text} (h : (p.step nearest rawLine).Begins r) : p.Begins r := by
  have hread := Begins.of_readLine h
  split_ifs at hread
  · exact fun f hf ↦ (hread.shut_of_newFile hf).begins f hf
  · exact hread

theorem begins_run (p : Parser) (ls : List Text) : p.Begins (p.run nearest ls).result := by
  induction ls generalizing p with
  | nil => exact p.begins_result
  | cons l ls ih => exact (ih (p.step nearest l)).of_step

/-! ## Bodies -/

/-- A line that looks like one with a path ends the hunk. -/
theorem shut_of_imitates {l : BodyLine} {f : DiffFile} (hl : l.imitates = true)
    (hf : p.file = some f) (hhunk : p.hunk.isSome = true)
    (h : (p.step nearest l.raw).Begins r) : p.Shut r := by
  cases l with
  | removed content =>
    have hold : startsWith (BodyLine.removed content).raw "--- " = true := hl
    rw [step, startsFile, hold, hhunk, Bool.and_self, Bool.or_true, if_pos rfl, readLine, hold,
      if_pos rfl] at h
    exact (h.shut (p := p.newFile) rfl rfl rfl).begins.shut_of_newFile hf
  | added content =>
    have hdiff : startsWith (BodyLine.added content).raw "diff --git " = false := rfl
    have hold : startsWith (BodyLine.added content).raw "--- " = false := rfl
    have hnew : startsWith (BodyLine.added content).raw "+++ " = true := hl
    rw [step, startsFile, hdiff, hold, readLine, hold, hnew] at h
    exact h.shut rfl rfl rfl
  | _ => cases hl

variable {h : Hunk} {body : List BodyLine}

theorem run_body (hbody : ∀ l ∈ body, l.imitates = false) (done : List DiffLine) :
    (p.newHunk (h.opened nearest done)).run nearest (body.map BodyLine.raw) =
      p.newHunk (h.opened nearest (done ++ body.map BodyLine.parsed)) := by
  induction body generalizing done with
  | nil =>
    rw [List.map_nil, List.map_nil, List.append_nil]
    rfl
  | cons l body ih =>
    rw [List.forall_mem_cons] at hbody
    rw [List.map_cons, run, List.foldl_cons, step_body hbody.1 rfl]
    refine (ih hbody.2 (done ++ [l.parsed])).trans ?_
    rw [List.append_assoc]
    rfl

/-- After such a line, the hunk stays shorter than it is. -/
theorem short_of_imitates (hbody : ¬ ∀ l ∈ body, l.imitates = false) (done : List DiffLine)
    (rest : List Text) : ∃ f' rest' more lines,
      ((p.newHunk (h.opened nearest done)).run nearest (body.map BodyLine.raw ++ rest)).result =
        p.files ++ f' :: rest' ∧
      f'.hunks = p.ensureFile.hunks ++ h.opened nearest lines :: more ∧
      lines.length < done.length + body.length := by
  induction body generalizing done with
  | nil => exact absurd (fun l hl ↦ (by cases hl)) hbody
  | cons l body ih =>
    rw [List.map_cons, List.cons_append, run, List.foldl_cons]
    cases hl : l.imitates with
    | true =>
      obtain ⟨f', rest', hr, more, hmore⟩ :=
        shut_of_imitates hl rfl rfl (begins_run ((p.newHunk (h.opened nearest done)).step nearest
          l.raw) (body.map BodyLine.raw ++ rest))
      refine ⟨f', rest', more, done, hr, ?_, ?_⟩
      · rw [← hmore]
        exact List.append_assoc _ _ _
      · rw [List.length_cons]
        omega
    | false =>
      rw [List.forall_mem_cons, not_and] at hbody
      rw [step_body hl rfl]
      obtain ⟨f', rest', more, lines, hr, hmore, hlt⟩ := ih (hbody hl) (done ++ [l.parsed])
      refine ⟨f', rest', more, lines, hr, hmore, ?_⟩
      rw [List.length_append, List.length_singleton] at hlt
      rw [List.length_cons]
      omega

/-! ## Hunks -/

/-- Files in which the one that is read has these hunks to come. -/
def Awaits (p : Parser) (hunks : List DiffHunk) (r : List DiffFile) : Prop :=
  ∃ f' rest, r = p.files ++ f' :: rest ∧ f'.hunks = p.ensureFile.hunks ++ hunks

/-- The parser when hunks have come. -/
def newHunks (nearest : ℕ → ℕ) (p : Parser) (hs : List Hunk) : Parser :=
  hs.foldl (fun p h ↦ p.newHunk (h.parsed nearest)) p

theorem hunk_iff {hunks : List DiffHunk} {rest : List Text}
    (hr : p.Awaits (h.parsed nearest :: hunks) r) :
    (p.run nearest (h.rawLines ++ rest)).result = r ↔
      h.IsPlain ∧ ((p.newHunk (h.parsed nearest)).run nearest rest).result = r := by
  have hrun : p.run nearest (h.rawLines ++ rest) =
      (p.newHunk (h.opened nearest [])).run nearest (h.body.map BodyLine.raw ++ rest) := by
    rw [run, Hunk.rawLines, List.cons_append, List.foldl_cons, step_header]
    rfl
  rw [hrun]
  by_cases hplain : h.IsPlain
  · rw [run, List.foldl_append]
    have hbody : (h.body.map BodyLine.raw).foldl (step nearest) (p.newHunk (h.opened nearest [])) =
        p.newHunk (h.parsed nearest) := run_body hplain []
    rw [hbody]
    exact (and_iff_right hplain).symm
  · refine ⟨fun hresult ↦ ?_, fun hresult ↦ absurd hresult.1 hplain⟩
    obtain ⟨f', rest', more, lines, hshort, hmore, hlt⟩ := short_of_imitates hplain [] rest
    obtain ⟨f'', rest'', hr, hhunks⟩ := hr
    have hr' := hr.symm.trans (hresult.symm.trans hshort)
    obtain ⟨rfl, -⟩ := List.cons.inj (List.append_cancel_left hr')
    rw [hhunks] at hmore
    have hsame := congrArg DiffHunk.lines (List.cons.inj (List.append_cancel_left hmore)).1
    have hlength := congrArg List.length hsame
    rw [Hunk.parsed, Hunk.opened, Hunk.opened] at hlength
    dsimp only at hlength
    rw [List.length_map] at hlength
    rw [List.length_nil] at hlt
    omega

theorem Awaits.newHunk {hunks : List DiffHunk} {x : DiffHunk} (hr : p.Awaits (x :: hunks) r) :
    (p.newHunk x).Awaits hunks r := by
  obtain ⟨f', rest, hr, hhunks⟩ := hr
  refine ⟨f', rest, hr, hhunks.trans ?_⟩
  exact (List.append_assoc _ [x] hunks).symm

theorem hunks_iff {hs : List Hunk} {rest : List Text}
    (hr : p.Awaits (hs.map (Hunk.parsed nearest)) r) :
    (p.run nearest (hs.flatMap Hunk.rawLines ++ rest)).result = r ↔
      (∀ h ∈ hs, h.IsPlain) ∧ ((p.newHunks nearest hs).run nearest rest).result = r := by
  induction hs generalizing p with
  | nil => exact (and_iff_right fun h hh ↦ (by cases hh)).symm
  | cons h hs ih =>
    rw [List.flatMap_cons, List.append_assoc, hunk_iff hr, ih hr.newHunk, List.forall_mem_cons,
      and_assoc]
    rfl

theorem newHunks_concat (hs : List Hunk) (h : Hunk) :
    p.newHunks nearest (hs ++ [h]) = (p.newHunks nearest hs).newHunk (h.parsed nearest) := by
  rw [newHunks, List.foldl_append]
  rfl

theorem newHunks_files (hs : List Hunk) : (p.newHunks nearest hs).files = p.files := by
  induction hs using List.reverseRecOn with
  | nil => rfl
  | append_singleton hs h ih =>
    rw [newHunks_concat]
    exact ih

theorem newHunks_ensureFile (hs : List Hunk) : (p.newHunks nearest hs).ensureFile =
    { p.ensureFile with hunks := p.ensureFile.hunks ++ hs.map (Hunk.parsed nearest) } := by
  induction hs using List.reverseRecOn with
  | nil =>
    rw [List.map_nil, List.append_nil]
    rfl
  | append_singleton hs h ih =>
    rw [newHunks_concat, ensureFile, newHunk, ih, List.map_append, ← List.append_assoc]
    rfl

/-! ## Files -/

/-- The parser between two parts of a diff. A hunk that is read is one of a file. -/
structure IsBetween (p : Parser) (place : Place) : Prop where
  file : p.file.isSome = true ↔ place ≠ .start
  hunk : p.hunk.isSome = true ↔ place = .afterHunk

theorem IsBetween.newHunks {place : Place} {hs : List Hunk} (h : p.IsBetween place) :
    (p.newHunks nearest hs).IsBetween (place.afterHunks hs) := by
  rcases List.eq_nil_or_concat' hs with rfl | ⟨hs, x, rfl⟩
  · exact h
  · rw [newHunks_concat, Place.afterHunks,
      if_neg (List.append_ne_nil_of_right_ne_nil _ (List.cons_ne_nil x []))]
    exact ⟨⟨fun _ h ↦ (by cases h), fun _ ↦ rfl⟩, ⟨fun _ ↦ rfl, fun _ ↦ rfl⟩⟩

/-- The parser after the paths of a file. -/
def atPaths (files : List DiffFile) (c : Patch) : Parser :=
  ⟨files, some ⟨some (safe (cleanPath c.oldPath.val)), some (safe (cleanPath c.newPath.val)), []⟩,
    none⟩

theorem run_patch {c : Patch} {rest : List Text}
    (hensure : p.beforePath.ensureFile = ⟨none, none, []⟩) :
    p.run nearest (c.rawLines ++ rest) =
      (atPaths p.beforePath.files c).run nearest (c.hunks.flatMap Hunk.rawLines ++ rest) := by
  rw [run, Patch.rawLines, List.cons_append, List.cons_append, List.foldl_cons, List.foldl_cons,
    step_old, step_new, setOldPath, hensure]
  rfl

theorem isBetween_atPaths (files : List DiffFile) (c : Patch) :
    (atPaths files c).IsBetween .afterNames :=
  ⟨⟨fun _ ↦ by decide, fun _ ↦ rfl⟩, ⟨fun h ↦ (by cases h), fun h ↦ (by cases h)⟩⟩

theorem isBetween_patch (files : List DiffFile) (c : Patch) :
    ((atPaths files c).newHunks nearest c.hunks).IsBetween .afterHunk :=
  (isBetween_atPaths files c).newHunks

theorem result_newHunks (files : List DiffFile) (c : Patch) :
    ((atPaths files c).newHunks nearest c.hunks).result = files ++ [c.parsed nearest] := by
  have hbetween : ((atPaths files c).newHunks nearest c.hunks).IsBetween .afterHunk :=
    isBetween_patch files c
  obtain ⟨f, hf⟩ := Option.isSome_iff_exists.mp (hbetween.file.mpr (by decide))
  rw [result_of_file hf, newHunks_files, newHunks_ensureFile]
  rfl

theorem awaits_atPaths (files rest : List DiffFile) (c : Patch) :
    (atPaths files c).Awaits (c.hunks.map (Hunk.parsed nearest))
      (files ++ c.parsed nearest :: rest) :=
  ⟨c.parsed nearest, rest, rfl, rfl⟩

/-- Nothing comes into a hunk that is done. -/
theorem not_begins_pushLine {f : DiffFile} {line : DiffLine} {rest : List DiffFile}
    (hf : p.file = some f) (hhunk : p.hunk.isSome = true) :
    ¬ (p.pushLine line).Begins (p.result ++ rest) := by
  intro h
  obtain ⟨x, hx⟩ := Option.isSome_iff_exists.mp hhunk
  obtain ⟨f', rest', hr, hgrown⟩ := h f hf
  rw [result_of_file hf, List.append_assoc] at hr
  obtain ⟨rfl, -⟩ := List.cons.inj (List.append_cancel_left hr)
  rw [hunks_ensureFile hf, pushLine, hx] at hgrown
  obtain ⟨h', more, hafter, hlines⟩ := hgrown
  obtain ⟨rfl, -⟩ := List.cons.inj (List.append_cancel_left hafter)
  have hle := hlines.length_le
  rw [List.length_append, List.length_singleton] at hle
  omega

/-- No hunk comes to a file that is done. -/
theorem not_begins_newHunk {f g : DiffFile} {x : DiffHunk} {rest : List DiffFile}
    (hf : p.file = some f) (hfiles : q.files = p.files) (hg : q.file = some g)
    (hhunks : g.hunks = p.ensureFile.hunks) (hx : q.hunk = some x) :
    ¬ q.Begins (p.result ++ rest) := by
  intro h
  obtain ⟨f', rest', hr, hgrown⟩ := h g hg
  rw [result_of_file hf, List.append_assoc, hfiles] at hr
  obtain ⟨rfl, -⟩ := List.cons.inj (List.append_cancel_left hr)
  rw [hx, hhunks] at hgrown
  obtain ⟨h', more, hafter, -⟩ := hgrown
  have hlength := congrArg List.length hafter
  rw [List.length_append, List.length_cons] at hlength
  omega

/-- A patch, and what comes after it. -/
theorem patch_iff {c : Patch} {rest : List Text} {fs : List DiffFile}
    (hensure : p.beforePath.ensureFile = ⟨none, none, []⟩) :
    (p.run nearest (c.rawLines ++ rest)).result =
        p.beforePath.files ++ c.parsed nearest :: fs ↔
      (∀ h ∈ c.hunks, h.IsPlain) ∧
        (((atPaths p.beforePath.files c).newHunks nearest c.hunks).run nearest rest).result =
          ((atPaths p.beforePath.files c).newHunks nearest c.hunks).result ++ fs := by
  rw [run_patch hensure, hunks_iff (awaits_atPaths _ _ _), result_newHunks, List.append_assoc]
  rfl

/-- A plain patch right after a file without hunks is taken for that file's. -/
theorem not_patch {c : Patch} {f : DiffFile} {rest : List Text} {fs : List DiffFile}
    (hf : p.file = some f) (hhunk : p.hunk = none) :
    (p.run nearest (c.rawLines ++ rest)).result ≠ p.result ++ fs := by
  intro h
  have hbefore : p.beforePath = p := by
    rw [beforePath, hhunk]
    rfl
  rw [run, Patch.rawLines, Patch.hunks, List.flatMap_cons, Hunk.rawLines, List.cons_append,
    List.cons_append, List.cons_append, List.cons_append, List.foldl_cons, List.foldl_cons,
    List.foldl_cons, step_old, step_new, step_header, hbefore] at h
  have hbegins : (((p.setOldPath (safe (cleanPath c.oldPath.val))).setNewPath
      (safe (cleanPath c.newPath.val))).newHunk (c.first.opened nearest [])).Begins
        (p.result ++ fs) := h ▸ begins_run _ _
  refine not_begins_newHunk (q := ((p.setOldPath _).setNewPath _).newHunk _) hf rfl rfl ?_ rfl
    hbegins
  exact (List.append_nil _).trans (List.append_nil _)

/-- A line that is not of the diff comes into the hunk before it. -/
theorem not_remark {x : Remark} {rest : List Text} {fs : List DiffFile}
    (hp : p.IsBetween .afterHunk) :
    (p.run nearest (x.line.val :: rest)).result ≠ p.result ++ fs := by
  intro h
  have hhunk := hp.hunk.mpr rfl
  obtain ⟨f, hf⟩ := Option.isSome_iff_exists.mp (hp.file.mpr (by decide))
  rw [run, List.foldl_cons, step_remark, if_pos hhunk] at h
  have hbegins : (p.pushLine (hunkLine x.line.val)).Begins (p.result ++ fs) := h ▸ begins_run _ _
  exact not_begins_pushLine hf hhunk hbegins

theorem IsBetween.hunk_eq_none {place : Place} (hp : p.IsBetween place) (h : place ≠ .afterHunk) :
    p.hunk = none :=
  Option.not_isSome_iff_eq_none.mp fun hsome ↦ h (hp.hunk.mp hsome)

theorem result_newFile : p.newFile.result = p.result ++ [⟨none, none, []⟩] := rfl

theorem beforePath_newFile : p.newFile.beforePath = p.newFile := rfl

/-- A patch that is seen, and the files after it. -/
theorem patch_files_iff {c : Patch} {f : FileDiff} {fs : List FileDiff} {trailing : List Remark}
    (hc : f.patch? = some c) (hensure : p.beforePath.ensureFile = ⟨none, none, []⟩)
    (hfiles : p.beforePath.files = q.result)
    (ih : ∀ {p : Parser} {place : Place}, p.IsBetween place →
      ((p.run nearest (fs.flatMap FileDiff.rawLines ++ trailing.map (·.line.val))).result =
        p.result ++ fs.map (FileDiff.parsed nearest) ↔ AreClear trailing place fs)) :
    (p.run nearest (c.rawLines ++ (fs.flatMap FileDiff.rawLines ++
        trailing.map (·.line.val)))).result =
          q.result ++ f.parsed nearest :: fs.map (FileDiff.parsed nearest) ↔
      f.IsPlain ∧ AreClear trailing f.place fs := by
  have hparsed : f.parsed nearest = c.parsed nearest := by
    rw [FileDiff.parsed, hc]
    rfl
  have hplace : f.place = .afterHunk := by
    rw [FileDiff.place, hc]
    rfl
  have hplain : f.IsPlain ↔ ∀ h ∈ c.hunks, h.IsPlain := by
    rw [FileDiff.IsPlain, hc]
    exact ⟨fun h ↦ h c rfl, fun h c' hc' ↦ Option.some.inj hc' ▸ h⟩
  rw [hparsed, hplace, hplain, ← hfiles, patch_iff hensure, ih (isBetween_patch _ c)]

theorem files_iff {place : Place} {fs : List FileDiff} {trailing : List Remark}
    (hp : p.IsBetween place) :
    (p.run nearest (fs.flatMap FileDiff.rawLines ++ trailing.map (·.line.val))).result =
        p.result ++ fs.map (FileDiff.parsed nearest) ↔ AreClear trailing place fs := by
  induction fs generalizing p place with
  | nil =>
    rw [List.flatMap_nil, List.nil_append, List.map_nil, AreClear]
    by_cases hplace : place = .afterHunk
    · subst hplace
      cases trailing with
      | nil => exact ⟨fun _ _ ↦ rfl, fun _ ↦ (List.append_nil _).symm⟩
      | cons x xs =>
        rw [List.map_cons]
        exact ⟨fun h ↦ absurd h (not_remark hp), fun h ↦ (by cases h rfl)⟩
    · rw [run_remarks (hp.hunk_eq_none hplace), List.append_nil]
      exact ⟨fun _ h ↦ absurd h hplace, fun _ ↦ rfl⟩
  | cons f fs ih =>
    rw [List.flatMap_cons, List.append_assoc, List.map_cons, AreClear]
    cases f with
    | git names extended patch =>
      have hrun : ∀ rest, p.run nearest ((FileDiff.git names extended patch).rawLines ++ rest) =
          p.newFile.run nearest ((patch.map Patch.rawLines).getD [] ++ rest) := by
        intro rest
        have hextended : (extended.map (·.line.val)).foldl (step nearest) p.newFile = p.newFile :=
          run_remarks rfl extended
        rw [run, FileDiff.rawLines, List.cons_append, List.foldl_cons, step_git, List.append_assoc,
          List.foldl_append, hextended]
        rfl
      rw [hrun, FileDiff.IsSeen, true_and]
      cases patch with
      | none =>
        have hplain : (FileDiff.git names extended none).IsPlain := fun c hc ↦ (by cases hc)
        have hbetween : p.newFile.IsBetween .afterNames :=
          ⟨⟨fun _ ↦ by decide, fun _ ↦ rfl⟩, ⟨fun h ↦ (by cases h), fun h ↦ (by cases h)⟩⟩
        have hih := ih hbetween
        rw [result_newFile, List.append_assoc] at hih
        rw [and_iff_right hplain]
        exact hih
      | some c => exact patch_files_iff rfl rfl rfl ih
    | plain preamble c =>
      rw [FileDiff.rawLines, List.append_assoc]
      by_cases hplace : place = .afterHunk
      · subst hplace
        cases preamble with
        | nil =>
          have hbefore : p.beforePath = p.newFile := if_pos (hp.hunk.mpr rfl)
          rw [FileDiff.IsSeen, and_iff_right rfl]
          exact patch_files_iff rfl (by rw [hbefore]; rfl) (by rw [hbefore]; rfl) ih
        | cons x xs =>
          exact ⟨fun h ↦ absurd h (not_remark hp), fun h ↦ (by cases h.1)⟩
      · have hhunk := hp.hunk_eq_none hplace
        have hbefore : p.beforePath = p := by
          rw [beforePath, hhunk]
          rfl
        rw [run, List.foldl_append]
        have hpreamble : (preamble.map (·.line.val)).foldl (step nearest) p = p :=
          run_remarks hhunk preamble
        rw [hpreamble]
        cases place with
        | start =>
          have hfile : p.file = none :=
            Option.not_isSome_iff_eq_none.mp fun hsome ↦ hp.file.mp hsome rfl
          rw [FileDiff.IsSeen, and_iff_right trivial]
          refine patch_files_iff rfl ?_ ?_ ih
          · rw [hbefore, ensureFile, hfile, hhunk]
            rfl
          · rw [hbefore, result, hfile]
        | afterNames =>
          obtain ⟨f, hf⟩ := Option.isSome_iff_exists.mp (hp.file.mpr (by decide))
          exact ⟨fun h ↦ absurd h (not_patch hf hhunk), fun h ↦ h.1.elim⟩
        | afterHunk => exact absurd rfl hplace

end Parser

/-! ## Main results -/

theorem isLine_append {s t : Text} (hs : IsLine s) (ht : IsLine t) : IsLine (s ++ t) :=
  fun h ↦ (List.mem_append.mp h).elim hs ht

theorem isLine_digits (n : ℕ) : IsLine (ofChars (Nat.toDigits 10 n)) := fun h ↦
  absurd (isDigit_of_mem_digits _ h) (by decide)

theorem isLine_range (h : Hunk) (start count : ℕ) : IsLine (h.range start count) := by
  rw [Hunk.range]
  refine isLine_append (isLine_digits start) ?_
  split_ifs
  · exact List.not_mem_nil
  · exact isLine_append (by decide +kernel) (isLine_digits count)

theorem BodyLine.isLine_raw (l : BodyLine) : IsLine l.raw := by
  have hcons : ∀ (u : CodeUnit) (content : Line), u ≠ 0x0A → IsLine (u :: content.val) :=
    fun u content hu h ↦ (List.mem_cons.mp h).elim (fun h ↦ hu h.symm) content.property
  cases l with
  | context content => exact hcons _ _ (by decide)
  | blank => exact List.not_mem_nil
  | removed content => exact hcons _ _ (by decide)
  | added content => exact hcons _ _ (by decide)
  | remark content => exact hcons _ _ (by decide)

theorem Hunk.isLine (h : Hunk) : ∀ l ∈ h.rawLines, IsLine l := by
  refine List.forall_mem_cons.mpr ⟨?_, ?_⟩
  · rw [Hunk.header]
    exact isLine_append (by decide +kernel) <| isLine_append (by decide +kernel) <|
      isLine_append (isLine_range _ _ _) <| isLine_append (by decide +kernel) <|
      isLine_append (isLine_range _ _ _) <| isLine_append (by decide +kernel) h.heading.property
  · exact List.forall_mem_map.mpr fun l _ ↦ l.isLine_raw

theorem isLine_hunks (hs : List Hunk) : ∀ l ∈ hs.flatMap Hunk.rawLines, IsLine l := by
  intro l hl
  obtain ⟨h, -, hl⟩ := List.mem_flatMap.mp hl
  exact h.isLine l hl

theorem Patch.isLine (c : Patch) : ∀ l ∈ c.rawLines, IsLine l :=
  List.forall_mem_cons.mpr ⟨isLine_append (by decide +kernel) c.oldPath.property,
    List.forall_mem_cons.mpr ⟨isLine_append (by decide +kernel) c.newPath.property,
      isLine_hunks c.hunks⟩⟩

theorem isLine_remarks (xs : List Remark) : ∀ l ∈ xs.map (·.line.val), IsLine l :=
  List.forall_mem_map.mpr fun x _ ↦ x.line.property

theorem FileDiff.isLine (f : FileDiff) : ∀ l ∈ f.rawLines, IsLine l := by
  cases f with
  | git names extended patch =>
    refine List.forall_mem_cons.mpr ⟨isLine_append (by decide +kernel) names.property, ?_⟩
    refine List.forall_mem_append.mpr ⟨isLine_remarks extended, ?_⟩
    cases patch with
    | none => exact fun l hl ↦ (by cases hl)
    | some c => exact c.isLine
  | plain preamble c => exact List.forall_mem_append.mpr ⟨isLine_remarks preamble, c.isLine⟩

namespace UnifiedDiff

variable (d : UnifiedDiff)

theorem isLine : ∀ l ∈ d.rawLines, IsLine l := by
  refine List.forall_mem_append.mpr ⟨isLine_hunks d.bare, List.forall_mem_append.mpr ⟨?_, ?_⟩⟩
  · intro l hl
    obtain ⟨f, -, hl⟩ := List.mem_flatMap.mp hl
    exact f.isLine l hl
  · exact isLine_remarks d.trailing

/-- The parser goes along the lines of the diff. -/
theorem run_text (nearest : ℕ → ℕ) : Parser.init.run nearest (d.text.splitOn 0x0A) =
    Parser.init.run nearest d.rawLines := by
  by_cases h : d.rawLines = []
  · rw [text, h]
    rfl
  · rw [text, List.splitOn_intercalate _ d.isLine h]

theorem result_iff (nearest : ℕ → ℕ) : (Parser.init.run nearest d.rawLines).result =
    d.bareFiles nearest ++ d.files.map (FileDiff.parsed nearest) ↔ d.IsClear := by
  have hinit : Parser.init.IsBetween .start :=
    ⟨⟨fun h ↦ (by cases h), fun h ↦ absurd rfl h⟩, ⟨fun h ↦ (by cases h), fun h ↦ (by cases h)⟩⟩
  have hbetween : (Parser.init.newHunks nearest d.bare).IsBetween
      (Place.start.afterHunks d.bare) := hinit.newHunks
  have hresult : (Parser.init.newHunks nearest d.bare).result = d.bareFiles nearest := by
    by_cases hbare : d.bare = []
    · rw [bareFiles, if_pos hbare, hbare]
      rfl
    · rw [Place.afterHunks, if_neg hbare] at hbetween
      obtain ⟨f, hf⟩ := Option.isSome_iff_exists.mp (hbetween.file.mpr (by decide))
      rw [Parser.result_of_file hf, Parser.newHunks_files, Parser.newHunks_ensureFile, bareFiles,
        if_neg hbare]
      rfl
  have hfiles : ((Parser.init.newHunks nearest d.bare).run nearest
      (d.files.flatMap FileDiff.rawLines ++ d.trailing.map (·.line.val))).result =
        (Parser.init.newHunks nearest d.bare).result ++ d.files.map (FileDiff.parsed nearest) ↔
      AreClear d.trailing (Place.start.afterHunks d.bare) d.files := Parser.files_iff hbetween
  rw [hresult] at hfiles
  rw [IsClear, ← hfiles, rawLines]
  by_cases hbare : d.bare = []
  · rw [hbare]
    exact (and_iff_right fun h hh ↦ (by cases hh)).symm
  · refine Parser.hunks_iff ⟨⟨none, none, d.bare.map (Hunk.parsed nearest)⟩,
      d.files.map (FileDiff.parsed nearest), ?_, rfl⟩
    rw [bareFiles, if_neg hbare]
    rfl

/-- **The round trip.** A valid diff is read as what it says exactly if no line of a body looks like
one with a path, and nothing but `diff --git` comes between a hunk and the next file, or after the
last hunk: no newline at the end of the text either. -/
theorem parse_iff (nearest : ℕ → ℕ) :
    parseUnifiedDiff nearest d.text = d.parsed nearest ↔ d.IsClear := by
  rw [← d.result_iff nearest, parseUnifiedDiff, run_text, parsed]
  exact ⟨congrArg ParsedDiff.files, congrArg ParsedDiff.ofFiles⟩

end UnifiedDiff

/-- A text of one line. -/
def oneLine (s : String) (h : IsLine (ofString s)) : Line := ⟨ofString s, h⟩

/-- A file from which the line `-- x` is removed. -/
def removedRule : UnifiedDiff where
  bare := []
  files := [.plain []
    { oldPath := oneLine "a/f" (by decide +kernel)
      newPath := oneLine "b/f" (by decide +kernel)
      more := []
      first :=
        { oldStart := 1, newStart := 1, short := false, heading := oneLine "" (by decide +kernel)
          body := [.context (oneLine "a" (by decide +kernel)),
            .removed (oneLine "-- x" (by decide +kernel)),
            .context (oneLine "b" (by decide +kernel))] } }]
  trailing := []

/-- The line is read as the start of another file, and what comes after it is lost. -/
theorem not_parse_removedRule :
    parseUnifiedDiff id removedRule.text ≠ removedRule.parsed id := by
  intro h
  have hlines := congrArg (fun x ↦ x.files.map fun f ↦ f.hunks.map (·.lines.length)) h
  revert hlines
  decide +kernel

end QwenHarness.Tui
