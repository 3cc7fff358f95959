import QwenHarness.Codec.Hunk
import QwenHarness.Codec.Utf16
import QwenHarness.Pattern.Pieces

/-!
# The diff of an edit

The lines that both texts start with and the lines that both end with are trimmed. What is left is
one hunk: everything between goes, and what the new text has there comes, with at most three lines
of context before and after.
-/

namespace QwenHarness.Worker

open Diff (Hunk Mark marked)
open Utf16 (CodeUnit Text ofString)
open scoped Utf16

def newline : CodeUnit := 10

/-- `text.split('\\n')`. -/
def lines (text : Text) : List Text := text.splitOn newline

/-- `lines.join('\\n')`. -/
def unlines (ls : List Text) : Text := [newline].intercalate ls

section Trim

variable {α : Type} {a b : List α}

/-- What is trimmed is the same in both, and no line of the common start is. -/
structure Trimmed (a b : List α) (start endA endB : ℕ) : Prop where
  ltA : endA < a.length
  ltB : endB < b.length
  leA : start ≤ endA + 1
  leB : start ≤ endB + 1
  drop : a.drop (endA + 1) = b.drop (endB + 1)

theorem Trimmed.length {start endA endB : ℕ} (h : Trimmed a b start endA endB) :
    a.length - (endA + 1) = b.length - (endB + 1) := by
  rw [← List.length_drop, ← List.length_drop, h.drop]

variable [DecidableEq α]

/-- How many lines both start with. -/
def commonStart : List α → List α → ℕ
  | x :: xs, y :: ys => if x = y then commonStart xs ys + 1 else 0
  | _, _ => 0

/-- The last lines that are not trimmed, from the last line of each on. No line of the common start
is trimmed again. -/
def trimEnds (a b : List α) (start : ℕ) : ℕ → ℕ → ℕ × ℕ
  | 0, endB => (0, endB)
  | endA + 1, 0 => (endA + 1, 0)
  | endA + 1, endB + 1 =>
    if start < endA + 1 ∧ start < endB + 1 ∧ a[endA + 1]? = b[endB + 1]? then
      trimEnds a b start endA endB
    else (endA + 1, endB + 1)

theorem take_commonStart (a b : List α) :
    a.take (commonStart a b) = b.take (commonStart a b) ∧ commonStart a b ≤ a.length ∧
      commonStart a b ≤ b.length := by
  induction a generalizing b with
  | nil => exact ⟨rfl, le_rfl, Nat.zero_le _⟩
  | cons x xs ih =>
    cases b with
    | nil => exact ⟨rfl, Nat.zero_le _, le_rfl⟩
    | cons y ys =>
      rw [commonStart]
      by_cases hxy : x = y
      · obtain ⟨htake, hxs, hys⟩ := ih ys
        rw [if_pos hxy, List.take_succ_cons, List.take_succ_cons, htake, hxy]
        exact ⟨rfl, Nat.succ_le_succ hxs, Nat.succ_le_succ hys⟩
      · rw [if_neg hxy]
        exact ⟨rfl, Nat.zero_le _, Nat.zero_le _⟩

theorem trimmed_trimEnds {start endA endB : ℕ} (h : Trimmed a b start endA endB) :
    Trimmed a b start (trimEnds a b start endA endB).1 (trimEnds a b start endA endB).2 := by
  induction endA generalizing endB with
  | zero =>
    rw [trimEnds]
    exact h
  | succ endA ih =>
    cases endB with
    | zero =>
      rw [trimEnds]
      exact h
    | succ endB =>
      rw [trimEnds]
      by_cases hsame : start < endA + 1 ∧ start < endB + 1 ∧ a[endA + 1]? = b[endB + 1]?
      · rw [if_pos hsame]
        obtain ⟨hA, hB, hline⟩ := hsame
        have hltA := h.ltA
        have hltB := h.ltB
        refine ih ⟨by omega, by omega, by omega, by omega, ?_⟩
        rw [List.getElem?_eq_getElem h.ltA, List.getElem?_eq_getElem h.ltB,
          Option.some_inj] at hline
        rw [List.drop_eq_getElem_cons h.ltA, List.drop_eq_getElem_cons h.ltB, hline, h.drop]
      · rw [if_neg hsame]
        exact h

end Trim

/-! ## The hunk -/

/-- Where the change starts and ends, and the context around it. -/
structure Span where
  start : ℕ
  endA : ℕ
  endB : ℕ

namespace Span

variable {α : Type} (span : Span) (a b : List α)

/-- The line the context starts at. -/
def «from» : ℕ := span.start - 3

/-- The lines it ends at. -/
def toA : ℕ := min (a.length - 1) (span.endA + 3)

def toB : ℕ := min (b.length - 1) (span.endB + 3)

def hunk : Hunk α where
  skip := span.from
  body :=
    marked .context ((a.drop span.from).take (span.start - span.from)) ++
      (marked .removed ((a.drop span.start).take (span.endA + 1 - span.start)) ++
        (marked .added ((b.drop span.start).take (span.endB + 1 - span.start)) ++
          marked .context ((a.drop (span.endA + 1)).take (span.toA a - span.endA))))

end Span

def spanOf {α : Type} [DecidableEq α] (a b : List α) : Span where
  start := commonStart a b
  endA := (trimEnds a b (commonStart a b) (a.length - 1) (b.length - 1)).1
  endB := (trimEnds a b (commonStart a b) (a.length - 1) (b.length - 1)).2

/-- `@@ -a,n +b,m @@`, with the numbers of lines as they are computed. -/
def hunkHeader (start countA countB : ℤ) : Text :=
  ofString ("@@ -" ++ toString start ++ "," ++ toString countA ++ " +" ++ toString start ++ "," ++
    toString countB ++ " @@")

/-- A line with its mark. -/
def markedLine : Mark × Text → Text
  | (.context, l) => ofString " " ++ l
  | (.removed, l) => ofString "-" ++ l
  | (.added, l) => ofString "+" ++ l

def unifiedDiff (path before after : Text) : Text :=
  let a := lines before
  let b := lines after
  let span := spanOf a b
  unlines ([ofString "--- a/" ++ path, ofString "+++ b/" ++ path,
    hunkHeader (span.from + 1) ((span.toA a : ℤ) - span.from + 1)
      ((span.toB b : ℤ) - span.from + 1)] ++ (span.hunk a b).body.map markedLine)

/-! ## What the hunk does -/

section Apply

variable {α : Type} {a b : List α} {span : Span}

/-- A list from one place on, cut at a later one. -/
theorem drop_eq_append (l : List α) {i j : ℕ} (h : i ≤ j) :
    l.drop i = (l.drop i).take (j - i) ++ l.drop j := by
  have hj : l.drop j = (l.drop i).drop (j - i) := by
    rw [List.drop_drop, Nat.add_sub_cancel' h]
  rw [hj, List.take_append_drop]

theorem length_slice (l : List α) {i j : ℕ} (h : j ≤ l.length) :
    ((l.drop i).take (j - i)).length = j - i := by
  rw [List.length_take, List.length_drop]
  omega

/-- The lines behind the change are the same in both texts. -/
theorem toA_sub_endA (h : Trimmed a b span.start span.endA span.endB) :
    span.toA a - span.endA = span.toB b - span.endB := by
  have hlength := h.length
  have hltA := h.ltA
  have hltB := h.ltB
  rw [Span.toA, Span.toB]
  omega

theorem counts_hunk (h : Trimmed a b span.start span.endA span.endB) :
    ((span.hunk a b).oldCount : ℤ) = span.toA a - span.from + 1 ∧
      ((span.hunk a b).newCount : ℤ) = span.toB b - span.from + 1 := by
  have hltA := h.ltA
  have hltB := h.ltB
  have hleA := h.leA
  have hleB := h.leB
  have hbehind := toA_sub_endA h
  have hA : span.endA ≤ span.toA a := by
    rw [Span.toA]
    omega
  have hB : span.endB ≤ span.toB b := by
    rw [Span.toB]
    omega
  have htoA : span.toA a + 1 ≤ a.length := by
    rw [Span.toA]
    omega
  have hfrom : span.from ≤ span.start := Nat.sub_le _ _
  have hbefore := length_slice a (i := span.from) (j := span.start) (by omega)
  have hremoved := length_slice a (i := span.start) (j := span.endA + 1) (by omega)
  have hadded := length_slice b (i := span.start) (j := span.endB + 1) (by omega)
  have hcontext := length_slice a (i := span.endA + 1) (j := span.toA a + 1) htoA
  rw [Nat.add_sub_add_right] at hcontext
  constructor
  · rw [Hunk.oldCount, Span.hunk, List.countP_append, List.countP_append, List.countP_append,
      Diff.countP_marked (b := true) fun _ ↦ rfl, Diff.countP_marked (b := true) fun _ ↦ rfl,
      Diff.countP_marked (b := false) fun _ ↦ rfl, Diff.countP_marked (b := true) fun _ ↦ rfl,
      hbefore, hremoved, hcontext]
    simp only [if_true, Bool.false_eq_true, if_false]
    omega
  · rw [Hunk.newCount, Span.hunk, List.countP_append, List.countP_append, List.countP_append,
      Diff.countP_marked (b := true) fun _ ↦ rfl, Diff.countP_marked (b := false) fun _ ↦ rfl,
      Diff.countP_marked (b := true) fun _ ↦ rfl, Diff.countP_marked (b := true) fun _ ↦ rfl,
      hbefore, hadded, hcontext]
    simp only [if_true, Bool.false_eq_true, if_false]
    omega

/-- **The hunk turns the one text into the other.** -/
theorem apply_hunk [DecidableEq α] (h : Trimmed a b span.start span.endA span.endB)
    (htake : a.take span.start = b.take span.start) : (span.hunk a b).apply a = some b := by
  have hltA := h.ltA
  have hleA := h.leA
  have hleB := h.leB
  have hfrom : span.from ≤ span.start := Nat.sub_le _ _
  have hskip : (span.hunk a b).skip ≤ a.length := by
    have hstart : span.start ≤ a.length := by omega
    exact hfrom.trans hstart
  have hA : span.endA ≤ span.toA a := by
    rw [Span.toA]
    omega
  have hbefore := drop_eq_append a hfrom
  have hremoved := drop_eq_append a hleA
  have hadded := drop_eq_append b hleB
  have hbehind := drop_eq_append a (Nat.succ_le_succ hA)
  rw [Nat.succ_sub_succ] at hbehind
  have hwalk := Hunk.walk_change ((a.drop span.from).take (span.start - span.from))
    ((a.drop span.start).take (span.endA + 1 - span.start))
    ((b.drop span.start).take (span.endB + 1 - span.start))
    ((a.drop (span.endA + 1)).take (span.toA a - span.endA)) (a.drop (span.toA a + 1))
  rw [← hbehind, ← hremoved, ← hbefore] at hwalk
  rw [h.drop, ← hadded, ← h.drop] at hwalk
  rw [Hunk.apply, if_pos hskip]
  refine (congrArg (Option.map _) hwalk).trans ?_
  have hfront : a.take span.from ++ (a.drop span.from).take (span.start - span.from) =
      a.take span.start := by
    rw [← List.take_add, Nat.add_sub_cancel' hfrom]
  rw [Option.map_some, Option.some_inj, ← List.append_assoc]
  refine (congrArg (· ++ b.drop span.start) hfront).trans ?_
  rw [htake, List.take_append_drop]

/-- The lines of a hunk are lines of one of the texts. -/
theorem mem_of_mem_hunk {l : Mark × α} (hl : l ∈ (span.hunk a b).body) : l.2 ∈ a ∨ l.2 ∈ b := by
  have hslice : ∀ (mark : Mark) (ls : List α) (i n : ℕ),
      l ∈ marked mark ((ls.drop i).take n) → l.2 ∈ ls := by
    intro mark ls i n hmem
    obtain ⟨x, hx, rfl⟩ := List.mem_map.mp hmem
    exact List.mem_of_mem_drop (List.mem_of_mem_take hx)
  rw [Span.hunk, List.mem_append, List.mem_append, List.mem_append] at hl
  rcases hl with hl | hl | hl | hl
  · exact .inl (hslice _ _ _ _ hl)
  · exact .inl (hslice _ _ _ _ hl)
  · exact .inr (hslice _ _ _ _ hl)
  · exact .inl (hslice _ _ _ _ hl)

end Apply

/-- A text is the unified diff of a hunk: the header says where the hunk starts and how many lines
of the old and of the new text it has, and no line of it is broken. -/
structure Shows (diff path : Text) (hunk : Hunk Text) : Prop where
  text : diff = unlines ([ofString "--- a/" ++ path, ofString "+++ b/" ++ path,
    hunkHeader (hunk.skip + 1) hunk.oldCount hunk.newCount] ++ hunk.body.map markedLine)
  whole : ∀ l ∈ hunk.body, newline ∉ l.2
  pos : 0 < hunk.oldCount ∧ 0 < hunk.newCount

/-- **The diff of an edit.** It shows one hunk, and that hunk turns the lines before into the lines
after. -/
theorem unifiedDiff_shows (path before after : Text) :
    ∃ hunk, Shows (unifiedDiff path before after) path hunk ∧
      hunk.apply (lines before) = some (lines after) := by
  have hne : ∀ text : Text, 0 < (lines text).length := fun text ↦
    List.length_pos_iff.mpr (List.splitOn_ne_nil _ _)
  obtain ⟨htake, hA, hB⟩ := take_commonStart (lines before) (lines after)
  have htrimmed : Trimmed (lines before) (lines after) (commonStart (lines before) (lines after))
      ((lines before).length - 1) ((lines after).length - 1) := by
    have hbefore := hne before
    have hafter := hne after
    refine ⟨by omega, by omega, by omega, by omega, ?_⟩
    rw [Nat.sub_add_cancel hbefore, Nat.sub_add_cancel hafter, List.drop_length, List.drop_length]
  have h := trimmed_trimEnds htrimmed
  obtain ⟨hold, hnew⟩ :
      (((spanOf (lines before) (lines after)).hunk (lines before) (lines after)).oldCount : ℤ) =
          (spanOf (lines before) (lines after)).toA (lines before) -
            (spanOf (lines before) (lines after)).from + 1 ∧
        (((spanOf (lines before) (lines after)).hunk (lines before) (lines after)).newCount : ℤ) =
          (spanOf (lines before) (lines after)).toB (lines after) -
            (spanOf (lines before) (lines after)).from + 1 := counts_hunk h
  refine ⟨(spanOf (lines before) (lines after)).hunk (lines before) (lines after), ⟨?_, ?_, ?_⟩,
    apply_hunk h htake⟩
  · rw [unifiedDiff, hold, hnew]
    rfl
  · intro l hl
    rcases mem_of_mem_hunk hl with hmem | hmem
    · exact Pieces.not_mem_of_mem_splitOn hmem
    · exact Pieces.not_mem_of_mem_splitOn hmem
  · have hleA := h.leA
    have hleB := h.leB
    have hltA := h.ltA
    have hltB := h.ltB
    have hposA : (0 : ℤ) < Span.toA (spanOf (lines before) (lines after)) (lines before) -
        (spanOf (lines before) (lines after)).from + 1 := by
      rw [Span.toA, Span.from, spanOf]
      dsimp only
      omega
    have hposB : (0 : ℤ) < Span.toB (spanOf (lines before) (lines after)) (lines after) -
        (spanOf (lines before) (lines after)).from + 1 := by
      rw [Span.toB, Span.from, spanOf]
      dsimp only
      omega
    rw [← hold] at hposA
    rw [← hnew] at hposB
    exact ⟨Int.natCast_pos.mp hposA, Int.natCast_pos.mp hposB⟩

end QwenHarness.Worker
