import QwenHarness.Codec.Utf16
import QwenHarness.Table.Spans
import Mathlib.Data.List.Chain
import Mathlib.Data.List.Infix

/-!
# Grapheme clusters and widths

A text is split into clusters, which are what a reader takes for one letter, by a loop over its
characters. The width of a text on a terminal is that of its clusters, and that of a cluster is the
width of its first character. The width is computed by a loop of its own, which keeps no clusters
and passes quickly over printable ASCII: `width_foldl`.

What the tables of Unicode say of a code point is a parameter.
-/

namespace QwenHarness.Tui

open Utf16

/-! ## Characters -/

/-- The characters of a text, as `for … of` goes through them: one unit, or a surrogate pair. -/
def characters : Text → List Text
  | [] => []
  | [u] => [[u]]
  | u :: v :: t =>
    if isHigh u && isLow v then [u, v] :: characters t else [u] :: characters (v :: t)

/-- `text.codePointAt(0)`. -/
def codePointAt : Text → Option ℕ
  | [] => none
  | [u] => some u.val
  | u :: v :: _ =>
    if isHigh u && isLow v then some (0x10000 + (u.val - 0xD800) * 0x400 + (v.val - 0xDC00))
    else some u.val

/-- `ch.codePointAt(0) ?? 0`. -/
def codePoint (ch : Text) : ℕ := (codePointAt ch).getD 0

/-! ## Properties of code points -/

/-- What the tables say: `\p{M}` and `\p{Cf}`. -/
structure PropertyTests where
  combiningMark : ℕ → Bool
  format : ℕ → Bool

def zwj : ℕ := 0x200D

/-- A base code point that renders in two terminal cells. -/
def wideRanges : List (ℕ × ℕ) :=
  [(0x1100, 0x115F), (0x2329, 0x232A), (0x2E80, 0x303E), (0x3041, 0x33FF), (0x3400, 0x4DBF),
    (0x4E00, 0x9FFF), (0xA000, 0xA4CF), (0xAC00, 0xD7A3), (0xF900, 0xFAFF), (0xFE10, 0xFE19),
    (0xFE30, 0xFE6F), (0xFF00, 0xFF60), (0xFFE0, 0xFFE6), (0x16FE0, 0x16FE4), (0x17000, 0x18AFF),
    (0x1B000, 0x1B2FF), (0x1F004, 0x1F004), (0x1F0CF, 0x1F0CF), (0x1F18E, 0x1F18E),
    (0x1F191, 0x1F19A), (0x1F200, 0x1F320), (0x1F300, 0x1F64F), (0x1F680, 0x1F6FF),
    (0x1F900, 0x1F9FF), (0x1FA00, 0x1FAFF), (0x20000, 0x3FFFD)]

def isRegionalIndicator (cp : ℕ) : Bool := decide (0x1F1E6 ≤ cp ∧ cp ≤ 0x1F1FF)

def belowCombining : ℕ := 0x0300
def softHyphen : ℕ := 0x00AD
def belowWide : ℕ := 0x1100

section Tests

variable (P : PropertyTests)

/-- A code point that binds to the one before. -/
def isExtend (cp : ℕ) : Bool :=
  if cp < belowCombining then false
  else if 0xFE00 ≤ cp ∧ cp ≤ 0xFE0F then true
  else if 0xE0100 ≤ cp ∧ cp ≤ 0xE01EF then true
  else if 0x1F3FB ≤ cp ∧ cp ≤ 0x1F3FF then true
  else P.combiningMark cp

/-- A code point that occupies no terminal cell. -/
def isZeroWidth (cp : ℕ) : Bool :=
  if cp < belowCombining ∧ cp ≠ softHyphen then false
  else P.combiningMark cp || P.format cp

/-- Binary search over the wide ranges. -/
def isWideCodePoint (cp : ℕ) : Bool :=
  if cp < belowWide then false else Spans.search wideRanges cp 0 wideRanges.length

def widthOfCodePoint (cp : ℕ) : ℕ :=
  if isZeroWidth P cp then 0 else if isWideCodePoint cp then 2 else 1

/-! ## Clusters -/

/-- The clusters that are finished, the one that is read, and what its last character was. -/
structure ClusterState (α : Type) where
  clusters : List (List α)
  current : List α
  prevWasZwj : Bool
  openRegional : Bool

variable {α : Type} (cp : α → ℕ)

/-- The loop of `toGraphemes` for one character. `cp` is its code point. -/
def clusterStep (s : ClusterState α) (ch : α) : ClusterState α :=
  if s.current.isEmpty then
    { s with
      current := [ch]
      prevWasZwj := decide (cp ch = zwj)
      openRegional := isRegionalIndicator (cp ch) }
  else if isExtend P (cp ch) || decide (cp ch = zwj) then
    { s with
      current := s.current ++ [ch]
      prevWasZwj := decide (cp ch = zwj)
      openRegional := false }
  else if s.prevWasZwj then
    -- a joiner glues whatever follows
    { s with
      current := s.current ++ [ch]
      prevWasZwj := false
      openRegional := isRegionalIndicator (cp ch) }
  else if s.openRegional && isRegionalIndicator (cp ch) then
    -- the second half of a flag
    { s with current := s.current ++ [ch], openRegional := false }
  else
    { clusters := s.clusters ++ [s.current]
      current := [ch]
      prevWasZwj := decide (cp ch = zwj)
      openRegional := isRegionalIndicator (cp ch) }

def ClusterState.start : ClusterState α := ⟨[], [], false, false⟩

/-- The clusters once all characters have been read. -/
def ClusterState.finish (s : ClusterState α) : List (List α) :=
  if s.current.isEmpty then s.clusters else s.clusters ++ [s.current]

/-- The clusters of a sequence of characters. -/
def clusters (chs : List α) : List (List α) := (chs.foldl (clusterStep P cp) .start).finish

/-- The clusters of a text. -/
def toGraphemes (text : Text) : List Text :=
  (clusters P codePoint (characters text)).map List.flatten

def graphemeWidth (grapheme : Text) : ℕ :=
  match codePointAt grapheme with
  | none => 0
  | some cp => widthOfCodePoint P cp

/-! ## Widths -/

structure WidthState where
  width : ℕ
  inCluster : Bool
  prevWasZwj : Bool
  openRegional : Bool
deriving DecidableEq, Repr

/-- The loop of `stringWidth` for one code point. -/
def widthStep (s : WidthState) (cp : ℕ) : WidthState :=
  if (0x20 ≤ cp ∧ cp < 0x7F) ∧ s.prevWasZwj = false then
    -- printable ASCII begins a cluster, unless it is glued to the one before
    ⟨s.width + 1, true, false, false⟩
  else if !s.inCluster then
    ⟨s.width + widthOfCodePoint P cp, true, decide (cp = zwj), isRegionalIndicator cp⟩
  else if isExtend P cp || decide (cp = zwj) then
    { s with prevWasZwj := decide (cp = zwj), openRegional := false }
  else if s.prevWasZwj then
    { s with prevWasZwj := false, openRegional := isRegionalIndicator cp }
  else if s.openRegional && isRegionalIndicator cp then
    { s with openRegional := false }
  else
    { s with
      width := s.width + widthOfCodePoint P cp
      prevWasZwj := decide (cp = zwj)
      openRegional := isRegionalIndicator cp }

/-- Total terminal cell width of a text. -/
def stringWidth (text : Text) : ℕ :=
  (((characters text).map codePoint).foldl (widthStep P) ⟨0, false, false, false⟩).width

end Tests

/-! ## The ranges -/

theorem areOrdered_wideRanges : Spans.AreOrdered wideRanges := by
  rw [Spans.AreOrdered, wideRanges]
  decide

/-- A code point is wide if and only if a range holds it. -/
theorem isWideCodePoint_iff (cp : ℕ) :
    isWideCodePoint cp = true ↔ ∃ range ∈ wideRanges, range.1 ≤ cp ∧ cp ≤ range.2 := by
  have hfirst : ∀ range ∈ wideRanges, belowWide ≤ range.1 := by decide
  rw [isWideCodePoint]
  split_ifs with hbelow
  · refine iff_of_false not_false ?_
    rintro ⟨range, hrange, hle, -⟩
    exact absurd ((hfirst range hrange).trans hle) (not_le.mpr hbelow)
  · exact Spans.search_iff areOrdered_wideRanges

/-! ## What the clusters are -/

section Clusters

variable {P : PropertyTests} {α : Type} {cp : α → ℕ} {s : ClusterState α} {ch : α} {chs : List α}

/-- All that has been read. -/
def ClusterState.read (s : ClusterState α) : List α := s.clusters.flatten ++ s.current

/-- No cluster is empty. -/
def ClusterState.IsFull (s : ClusterState α) : Prop := ∀ c ∈ s.clusters, c ≠ []

/-- **A step of the loop.** The character comes to the cluster that is read, or begins one. -/
theorem clusterStep_cases (P : PropertyTests) (cp : α → ℕ) (s : ClusterState α) (ch : α) :
    ((clusterStep P cp s ch).clusters = s.clusters ∧
        (clusterStep P cp s ch).current = s.current ++ [ch]) ∨
      (s.current ≠ [] ∧ (clusterStep P cp s ch).clusters = s.clusters ++ [s.current] ∧
        (clusterStep P cp s ch).current = [ch]) := by
  rw [clusterStep]
  split_ifs with hempty hextend hzwj hregional
  · rw [List.isEmpty_iff] at hempty
    exact .inl ⟨rfl, by rw [hempty]; rfl⟩
  · exact .inl ⟨rfl, rfl⟩
  · exact .inl ⟨rfl, rfl⟩
  · exact .inl ⟨rfl, rfl⟩
  · exact .inr ⟨mt List.isEmpty_iff.mpr hempty, rfl, rfl⟩

theorem read_clusterStep : (clusterStep P cp s ch).read = s.read ++ [ch] := by
  rcases clusterStep_cases P cp s ch with ⟨hclusters, hcurrent⟩ | ⟨-, hclusters, hcurrent⟩
  · rw [ClusterState.read, hclusters, hcurrent, ClusterState.read, List.append_assoc]
  · rw [ClusterState.read, hclusters, hcurrent, List.flatten_append, List.flatten_singleton,
      ClusterState.read]

theorem ClusterState.IsFull.clusterStep (h : s.IsFull) : (clusterStep P cp s ch).IsFull := by
  rw [IsFull]
  rcases clusterStep_cases P cp s ch with ⟨hclusters, -⟩ | ⟨hne, hclusters, -⟩
  · rw [hclusters]
    exact h
  · rw [hclusters]
    intro c hc
    rcases List.mem_append.mp hc with hc | hc
    · exact h c hc
    · rwa [List.mem_singleton.mp hc]

theorem read_foldl (chs : List α) (s : ClusterState α) :
    (chs.foldl (clusterStep P cp) s).read = s.read ++ chs := by
  induction chs generalizing s with
  | nil => exact (List.append_nil _).symm
  | cons ch chs ih =>
    rw [List.foldl_cons, ih, read_clusterStep, List.append_assoc, List.singleton_append]

theorem ClusterState.IsFull.foldl (h : s.IsFull) (chs : List α) :
    (chs.foldl (Tui.clusterStep P cp) s).IsFull := by
  induction chs generalizing s with
  | nil => exact h
  | cons ch chs ih => exact ih h.clusterStep

theorem ClusterState.flatten_finish (s : ClusterState α) : s.finish.flatten = s.read := by
  rw [finish, read]
  split_ifs with hempty
  · rw [List.isEmpty_iff.mp hempty, List.append_nil]
  · rw [List.flatten_append, List.flatten_singleton]

/-- The clusters, one after the other, are the characters. -/
theorem flatten_clusters (chs : List α) : (clusters P cp chs).flatten = chs := by
  rw [clusters, ClusterState.flatten_finish, read_foldl]
  rfl

theorem ne_nil_of_mem_clusters {c : List α} (h : c ∈ clusters P cp chs) : c ≠ [] := by
  have hfull : (chs.foldl (clusterStep P cp) .start).IsFull :=
    ClusterState.IsFull.foldl (fun c hc ↦ absurd hc List.not_mem_nil) chs
  rw [clusters, ClusterState.finish] at h
  split_ifs at h with hempty
  · exact hfull c h
  · rcases List.mem_append.mp h with h | h
    · exact hfull c h
    · rw [List.mem_singleton.mp h]
      exact mt List.isEmpty_iff.mpr hempty

end Clusters

/-! ## The two loops -/

section Loops

variable {P : PropertyTests} {α : Type} {cp : α → ℕ} {s : ClusterState α} {w : WidthState}

/-- The width of a cluster: that of its first character. -/
def headWidth (P : PropertyTests) (cp : α → ℕ) : List α → ℕ
  | [] => 0
  | ch :: _ => widthOfCodePoint P (cp ch)

/-- The loops are at the same place. -/
structure InStep (P : PropertyTests) (cp : α → ℕ) (s : ClusterState α) (w : WidthState) :
    Prop where
  width : w.width = ((s.clusters ++ [s.current]).map (headWidth P cp)).sum
  inCluster : w.inCluster = !s.current.isEmpty
  prevWasZwj : w.prevWasZwj = s.prevWasZwj
  openRegional : w.openRegional = s.openRegional

/-- Printable ASCII has no table to ask: it takes one cell and binds to nothing. -/
theorem ascii_facts {c : ℕ} (hc : 0x20 ≤ c ∧ c < 0x7F) : widthOfCodePoint P c = 1 ∧
    isExtend P c = false ∧ c ≠ zwj ∧ isRegionalIndicator c = false := by
  have hzero : isZeroWidth P c = false := by
    rw [isZeroWidth, if_pos]
    exact ⟨by rw [belowCombining]; omega, by rw [softHyphen]; omega⟩
  have hwide : isWideCodePoint c = false := by
    rw [isWideCodePoint, if_pos]
    rw [belowWide]
    omega
  refine ⟨?_, ?_, ?_, ?_⟩
  · rw [widthOfCodePoint, hzero, hwide]
    rfl
  · rw [isExtend, if_pos]
    rw [belowCombining]
    omega
  · rw [zwj]
    omega
  · rw [isRegionalIndicator, decide_eq_false_iff_not]
    omega

theorem sum_map_concat {β : Type} (f : β → ℕ) (cs : List β) (c : β) :
    ((cs ++ [c]).map f).sum = (cs.map f).sum + f c := by
  rw [List.map_append, List.map_singleton, List.sum_append, List.sum_singleton]

theorem headWidth_append {c : List α} (h : c ≠ []) (ch : α) :
    headWidth P cp (c ++ [ch]) = headWidth P cp c := by
  rcases c with - | ⟨a, c⟩
  · exact absurd rfl h
  · rfl

/-- **A step of both loops.** -/
theorem InStep.step (h : InStep P cp s w) (ch : α) :
    InStep P cp (clusterStep P cp s ch) (widthStep P w (cp ch)) := by
  obtain ⟨hwidth, hin, hzwj, hregional⟩ := h
  rw [sum_map_concat] at hwidth
  by_cases hempty : s.current.isEmpty = true
  · -- the first character begins a cluster in both loops
    rw [hempty, Bool.not_true] at hin
    rw [List.isEmpty_iff.mp hempty, headWidth, Nat.add_zero] at hwidth
    rw [clusterStep, if_pos hempty, widthStep]
    split_ifs with hascii hcluster
    · obtain ⟨hone, -, hne, hnot⟩ := ascii_facts (P := P) hascii.1
      refine ⟨?_, rfl, (decide_eq_false hne).symm, hnot.symm⟩
      rw [sum_map_concat, hwidth, headWidth, hone]
    · refine ⟨?_, rfl, rfl, rfl⟩
      rw [sum_map_concat, hwidth, headWidth]
    all_goals exact absurd hin (by simpa using hcluster)
  · rw [Bool.not_eq_true] at hempty
    rw [hempty, Bool.not_false] at hin
    have hne : s.current ≠ [] := fun hnil ↦ by rw [hnil] at hempty; cases hempty
    have hfull : true = !(s.current ++ [ch]).isEmpty := by simp
    rw [clusterStep, hempty, if_neg Bool.false_ne_true, widthStep, hin, Bool.not_true, hzwj]
    by_cases hascii : (0x20 ≤ cp ch ∧ cp ch < 0x7F) ∧ s.prevWasZwj = false
    · obtain ⟨hone, hextend, hnzwj, hnot⟩ := ascii_facts (P := P) hascii.1
      rw [if_pos hascii, hextend, decide_eq_false hnzwj, hnot, hascii.2, Bool.and_false]
      refine ⟨?_, rfl, rfl, rfl⟩
      rw [if_neg (by decide), if_neg (by decide), if_neg (by decide), sum_map_concat,
        sum_map_concat, hwidth, headWidth, hone]
    · rw [if_neg hascii, if_neg Bool.false_ne_true, hregional]
      split_ifs with hextend hglued hflag
      · refine ⟨?_, hfull, rfl, rfl⟩
        rw [sum_map_concat, headWidth_append hne, hwidth]
      · refine ⟨?_, hfull, rfl, rfl⟩
        rw [sum_map_concat, headWidth_append hne, hwidth]
      · refine ⟨?_, hfull, rfl, rfl⟩
        rw [sum_map_concat, headWidth_append hne, hwidth]
      · refine ⟨?_, rfl, rfl, rfl⟩
        rw [sum_map_concat, sum_map_concat, hwidth, headWidth]

theorem InStep.foldl (h : InStep P cp s w) (chs : List α) :
    InStep P cp (chs.foldl (clusterStep P cp) s) ((chs.map cp).foldl (widthStep P) w) := by
  induction chs generalizing s w with
  | nil => exact h
  | cons ch chs ih => exact ih (h.step ch)

/-- The loop over code points ends with the widths of the clusters. -/
theorem width_foldl (P : PropertyTests) (cp : α → ℕ) (chs : List α) :
    ((chs.map cp).foldl (widthStep P) ⟨0, false, false, false⟩).width =
      ((clusters P cp chs).map (headWidth P cp)).sum := by
  have hstart : InStep P cp .start ⟨0, false, false, false⟩ := ⟨rfl, rfl, rfl, rfl⟩
  rw [(hstart.foldl chs).width, clusters, ClusterState.finish]
  split_ifs with hempty
  · rw [sum_map_concat, List.isEmpty_iff.mp hempty, headWidth, Nat.add_zero]
  · rfl

end Loops

/-! ## Texts -/

section Texts

variable {P : PropertyTests} {text t : Text} {ch : Text} {chs : List Text}

theorem flatten_characters (t : Text) : (characters t).flatten = t := by
  fun_induction characters t with
  | case1 => rfl
  | case2 u => rfl
  | case3 u v t hpair ih => rw [List.flatten_cons, ih]; rfl
  | case4 u v t hpair ih => rw [List.flatten_cons, ih]; rfl

theorem ne_nil_of_mem_characters (h : ch ∈ characters t) : ch ≠ [] := by
  fun_induction characters t with
  | case1 => exact absurd h List.not_mem_nil
  | case2 u =>
    rw [List.mem_singleton.mp h]
    exact List.cons_ne_nil _ _
  | case3 u v t hpair ih =>
    rcases List.mem_cons.mp h with rfl | h
    · exact List.cons_ne_nil _ _
    · exact ih h
  | case4 u v t hpair ih =>
    rcases List.mem_cons.mp h with rfl | h
    · exact List.cons_ne_nil _ _
    · exact ih h

/-- A character keeps its code point when another follows. -/
def Follows (ch ch' : Text) : Prop := codePointAt (ch ++ ch') = codePointAt ch

theorem codePointAt_append {s : Text} (h : 2 ≤ s.length) (t : Text) :
    codePointAt (s ++ t) = codePointAt s := by
  rcases s with - | ⟨u, - | ⟨v, s⟩⟩
  · exact absurd h (by decide)
  · exact absurd h (Nat.not_succ_le_self 1)
  · rfl

theorem codePointAt_of_not_pair {u v : CodeUnit} (h : ¬ (isHigh u && isLow v) = true) (t : Text) :
    codePointAt (u :: v :: t) = some u.val := by
  rw [codePointAt, if_neg h]

/-- Half of a pair that stands alone is not followed by the other half. -/
theorem isChain_characters (t : Text) : (characters t).IsChain Follows := by
  fun_induction characters t with
  | case1 => exact List.isChain_nil
  | case2 u => exact List.isChain_singleton _
  | case3 u v t hpair ih =>
    rw [List.isChain_cons]
    have hlength : 2 ≤ ([u, v] : Text).length := Nat.le_refl 2
    exact ⟨fun ch' _ ↦ codePointAt_append hlength ch', ih⟩
  | case4 u v t hpair ih =>
    rw [List.isChain_cons]
    refine ⟨fun ch' hch' ↦ ?_, ih⟩
    have hhead : ch'.head? = some v := by
      have hflat := flatten_characters (v :: t)
      have hne := ne_nil_of_mem_characters (List.mem_of_mem_head? hch')
      obtain ⟨rest, hrest⟩ := List.head?_eq_some_iff.mp hch'
      rw [hrest, List.flatten_cons] at hflat
      rcases ch' with - | ⟨v', ch'⟩
      · exact absurd rfl hne
      · rw [List.cons_append, List.cons.injEq] at hflat
        rw [List.head?_cons, hflat.1]
    rcases ch' with - | ⟨v', rest⟩
    · exact absurd hhead.symm (Option.some_ne_none v)
    · rw [List.head?_cons, Option.some.injEq] at hhead
      rw [Follows, List.singleton_append, hhead, codePointAt_of_not_pair hpair, codePointAt]

/-- A cluster has the width of its first character. -/
theorem graphemeWidth_flatten {c : List Text} (hne : c ≠ []) (hchain : c.IsChain Follows)
    (hchs : ∀ ch ∈ c, ch ≠ []) : graphemeWidth P c.flatten = headWidth P codePoint c := by
  rcases c with - | ⟨ch, c⟩
  · exact absurd rfl hne
  · have hcode : codePointAt (ch :: c).flatten = codePointAt ch := by
      rcases c with - | ⟨ch', c⟩
      · rw [List.flatten_singleton]
      · have hlength : 2 ≤ (ch ++ ch').length := by
          have h := List.length_pos_of_ne_nil (hchs ch List.mem_cons_self)
          have h' := List.length_pos_of_ne_nil
            (hchs ch' (List.mem_cons_of_mem _ List.mem_cons_self))
          rw [List.length_append]
          omega
        rw [List.flatten_cons, List.flatten_cons, ← List.append_assoc,
          codePointAt_append hlength]
        exact (List.isChain_cons_cons.mp hchain).1
    rw [graphemeWidth, hcode, headWidth, codePoint]
    rcases hsome : codePointAt ch with - | cp
    · rcases ch with - | ⟨u, - | ⟨v, ch⟩⟩
      · exact absurd rfl (hchs [] List.mem_cons_self)
      · exact absurd hsome.symm (Option.some_ne_none _).symm
      · rw [codePointAt] at hsome
        split_ifs at hsome
    · rfl

/-- **Grapheme clusters.** They are the text, none of them is empty, and the width of the text is
the sum of theirs; a code point is wide if and only if a range holds it. -/
theorem graphemes_spec (P : PropertyTests) (text : Text) :
    (toGraphemes P text).flatten = text ∧ (∀ g ∈ toGraphemes P text, g ≠ []) ∧
      stringWidth P text = ((toGraphemes P text).map (graphemeWidth P)).sum ∧
      ∀ cp, isWideCodePoint cp = true ↔ ∃ range ∈ wideRanges, range.1 ≤ cp ∧ cp ≤ range.2 := by
  have hflatten : (clusters P codePoint (characters text)).flatten = characters text :=
    flatten_clusters (characters text)
  have hchs : ∀ c ∈ clusters P codePoint (characters text), ∀ ch ∈ c, ch ≠ [] := by
    intro c hc ch hch
    exact ne_nil_of_mem_characters (hflatten ▸ List.mem_flatten_of_mem hc hch)
  refine ⟨?_, fun g hg ↦ ?_, ?_, isWideCodePoint_iff⟩
  · rw [toGraphemes, ← List.flatten_flatten, hflatten, flatten_characters]
  · obtain ⟨c, hc, rfl⟩ := List.mem_map.mp hg
    rcases c with - | ⟨ch, c⟩
    · exact absurd rfl (ne_nil_of_mem_clusters hc)
    · rw [List.flatten_cons]
      exact List.append_ne_nil_of_left_ne_nil (hchs _ hc ch List.mem_cons_self) _
  · rw [stringWidth, width_foldl, toGraphemes, List.map_map]
    refine congrArg List.sum (List.map_congr_left fun c hc ↦ ?_)
    have hchars : (clusters P codePoint (characters text)).flatten.IsChain Follows :=
      hflatten.symm ▸ isChain_characters text
    have hchain : c.IsChain Follows := hchars.infix (List.infix_of_mem_flatten hc)
    exact (graphemeWidth_flatten (ne_nil_of_mem_clusters hc) hchain (hchs c hc)).symm

end Texts

end QwenHarness.Tui
