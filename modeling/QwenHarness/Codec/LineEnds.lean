import Mathlib.Data.List.ReduceOption
import Mathlib.Data.List.Basic

/-!
# Lines with three kinds of ends

A line ends with a carriage return, with a line feed, or with the two together, which are one end.
So an end may be followed by what still belongs to it. A reader that takes a text in parts, and
ends a line with a carriage return at once, sees a line too many where a part ends between the two.

`byPart` lists the lines such a reader sees. A line that is not one of the text is `none` there.
-/

namespace LineEnds

abbrev Text := List Char

def isEnd (c : Char) : Bool := c == '\r' || c == '\n'

/-- The lines that have ended, without their ends, and what has begun since. -/
def cut : Text → List Text × Text
  | [] => ([], [])
  | '\r' :: '\n' :: cs => ([] :: (cut cs).1, (cut cs).2)
  | c :: cs =>
    if isEnd c then ([] :: (cut cs).1, (cut cs).2)
    else
      match (cut cs).1 with
      | [] => ([], c :: (cut cs).2)
      | line :: lines => ((c :: line) :: lines, (cut cs).2)

/-- The text ends with a carriage return, to which a line feed may still belong. -/
def EndsOpen (t : Text) : Prop := t.getLast? = some '\r'

instance (t : Text) : Decidable (EndsOpen t) := inferInstanceAs (Decidable (_ = _))

theorem EndsOpen.of_cons {c : Char} {t : Text} (h : t ≠ []) :
    EndsOpen (c :: t) ↔ EndsOpen t := by
  rw [EndsOpen, EndsOpen, List.getLast?_cons, List.getLast?_eq_some_getLast h, Option.getD_some]

theorem endsOpen_concat (t : Text) : EndsOpen (t ++ ['\r']) := by
  rw [EndsOpen, List.getLast?_concat]

theorem EndsOpen.exists_concat {t : Text} (h : EndsOpen t) : ∃ u, t = u ++ ['\r'] :=
  List.getLast?_eq_some_iff.mp h

/-! ## One line more -/

theorem cut_crlf (cs : Text) : cut ('\r' :: '\n' :: cs) = ([] :: (cut cs).1, (cut cs).2) := rfl

theorem cut_cons {c : Char} {cs : Text} (h : c = '\r' → cs.head? ≠ some '\n') :
    cut (c :: cs) = if isEnd c then ([] :: (cut cs).1, (cut cs).2)
      else
        match (cut cs).1 with
        | [] => ([], c :: (cut cs).2)
        | line :: lines => ((c :: line) :: lines, (cut cs).2) := by
  rw [cut]
  rintro rest rfl rfl
  exact h rfl rfl

theorem cut_end {c : Char} {cs : Text} (hc : isEnd c) (h : c = '\r' → cs.head? ≠ some '\n') :
    cut (c :: cs) = ([] :: (cut cs).1, (cut cs).2) := by
  rw [cut_cons h, if_pos hc]

theorem cut_lf (cs : Text) : cut ('\n' :: cs) = ([] :: (cut cs).1, (cut cs).2) :=
  cut_end rfl fun h ↦ absurd h (by decide)

theorem ne_of_not_isEnd {c : Char} (hc : ¬ isEnd c) : c ≠ '\r' := by
  rintro rfl
  exact hc rfl

theorem cut_cons_of_nil {c : Char} {cs : Text} (hc : ¬ isEnd c) (h : (cut cs).1 = []) :
    cut (c :: cs) = ([], c :: (cut cs).2) := by
  rw [cut_cons (fun hr ↦ absurd hr (ne_of_not_isEnd hc)), if_neg hc, h]

theorem cut_cons_of_cons {c : Char} {cs line : Text} {lines : List Text} (hc : ¬ isEnd c)
    (h : (cut cs).1 = line :: lines) : cut (c :: cs) = ((c :: line) :: lines, (cut cs).2) := by
  rw [cut_cons (fun hr ↦ absurd hr (ne_of_not_isEnd hc)), if_neg hc, h]

/-! ## Parts -/

/-- **A text in two parts**, when no line end is cut in two: what the first part leaves is put
before the second. -/
theorem cut_append {xs ys : Text} (h : EndsOpen xs → ys.head? ≠ some '\n') : cut (xs ++ ys) =
    ((cut xs).1 ++ (cut ((cut xs).2 ++ ys)).1, (cut ((cut xs).2 ++ ys)).2) := by
  induction xs using cut.induct with
  | case1 => rfl
  | case2 cs ih =>
    rcases cs with - | ⟨c, cs⟩
    · rw [List.cons_append, List.cons_append, cut_crlf, cut_crlf, ih fun hopen ↦ absurd hopen (by
        decide)]
      rfl
    · have hopen : EndsOpen ('\r' :: '\n' :: c :: cs) ↔ EndsOpen (c :: cs) := by
        rw [EndsOpen.of_cons (by simp), EndsOpen.of_cons (by simp)]
      rw [List.cons_append, List.cons_append, cut_crlf, cut_crlf, ih (h ∘ hopen.mpr)]
      rfl
  | case3 c cs hc hend ih =>
    have hcr : c = '\r' → cs.head? ≠ some '\n' := fun hr hlf ↦
      hc _ hr (List.eq_cons_of_mem_head? hlf)
    rcases cs with - | ⟨d, cs⟩
    · -- the end is the last of the first part: the second does not go on with it
      rw [List.singleton_append, cut_end hend fun hr ↦ h (by rw [hr]; rfl)]
      rw [cut_end hend hcr]
      rfl
    · rw [List.cons_append, cut_end hend (by simpa using hcr), cut_end hend hcr,
        ih fun hopen ↦ h ((EndsOpen.of_cons (List.cons_ne_nil d cs)).mpr hopen)]
      rfl
  | case4 c cs hc hend hnil ih =>
    have ih' := ih fun hopen ↦ h ((EndsOpen.of_cons (fun hcs ↦ by
      rw [hcs] at hopen
      exact absurd hopen (by decide))).mpr hopen)
    rw [hnil, List.nil_append] at ih'
    rw [cut_cons_of_nil hend hnil, List.nil_append, List.cons_append]
    -- no line has ended yet: the character belongs to what is kept
    rcases hrest : (cut ((cut cs).2 ++ ys)).1 with - | ⟨line, lines⟩
    · rw [List.cons_append, cut_cons_of_nil hend ((congrArg Prod.fst ih').trans hrest),
        cut_cons_of_nil hend hrest, ih']
    · rw [List.cons_append, cut_cons_of_cons hend ((congrArg Prod.fst ih').trans hrest),
        cut_cons_of_cons hend hrest, ih']
  | case5 c cs hc hend line lines hcons ih =>
    have ih' := ih fun hopen ↦ h ((EndsOpen.of_cons (fun hcs ↦ by
      rw [hcs] at hopen
      exact absurd hopen (by decide))).mpr hopen)
    rw [hcons, List.cons_append] at ih'
    rw [cut_cons_of_cons hend hcons, List.cons_append, cut_cons_of_cons hend (congrArg Prod.fst ih'),
      ih']
    rfl

/-- A text that ends with a carriage return leaves nothing, and a line feed after it ends no other
line. -/
theorem cut_of_endsOpen {xs : Text} (h : EndsOpen xs) : (cut xs).1 ≠ [] ∧ (cut xs).2 = [] ∧
    ∀ ys, cut (xs ++ '\n' :: ys) = ((cut xs).1 ++ (cut ys).1, (cut ys).2) := by
  induction xs using cut.induct with
  | case1 => exact absurd h (by decide)
  | case2 cs ih =>
    rcases cs with - | ⟨c, cs⟩
    · exact absurd h (by decide)
    · rw [EndsOpen.of_cons (by simp), EndsOpen.of_cons (by simp)] at h
      obtain ⟨-, hrest, hall⟩ := ih h
      rw [cut_crlf]
      refine ⟨List.cons_ne_nil _ _, hrest, fun ys ↦ ?_⟩
      rw [List.cons_append, List.cons_append, cut_crlf, hall]
      rfl
  | case3 c cs hc hend ih =>
    have hcr : c = '\r' → cs.head? ≠ some '\n' := fun hr hlf ↦
      hc _ hr (List.eq_cons_of_mem_head? hlf)
    rw [cut_end hend hcr]
    refine ⟨List.cons_ne_nil _ _, ?_⟩
    rcases cs with - | ⟨d, cs⟩
    · -- the carriage return itself
      obtain rfl : c = '\r' := Option.some.inj h
      exact ⟨rfl, fun ys ↦ cut_crlf ys⟩
    · obtain ⟨-, hrest, hall⟩ := ih ((EndsOpen.of_cons (List.cons_ne_nil d cs)).mp h)
      refine ⟨hrest, fun ys ↦ ?_⟩
      rw [List.cons_append, cut_end hend (by simpa using hcr), hall]
      rfl
  | case4 c cs hc hend hnil ih =>
    have hcs : cs ≠ [] := by
      rintro rfl
      exact ne_of_not_isEnd hend (Option.some.inj h)
    exact absurd hnil (ih ((EndsOpen.of_cons hcs).mp h)).1
  | case5 c cs hc hend line lines hcons ih =>
    have hcs : cs ≠ [] := by
      rintro rfl
      exact ne_of_not_isEnd hend (Option.some.inj h)
    obtain ⟨-, hrest, hall⟩ := ih ((EndsOpen.of_cons hcs).mp h)
    rw [cut_cons_of_cons hend hcons]
    refine ⟨List.cons_ne_nil _ _, hrest, fun ys ↦ ?_⟩
    have hys := hall ys
    rw [hcons, List.cons_append] at hys
    rw [List.cons_append, cut_cons_of_cons hend (congrArg Prod.fst hys), hys]
    rfl

theorem rest_of_endsOpen {xs : Text} (h : EndsOpen xs) : (cut xs).2 = [] := (cut_of_endsOpen h).2.1

/-- **A line end cut in two** is one end. -/
theorem cut_append_lf {xs : Text} (h : EndsOpen xs) (ys : Text) :
    cut (xs ++ '\n' :: ys) = ((cut xs).1 ++ (cut ys).1, (cut ys).2) := (cut_of_endsOpen h).2.2 ys

/-- The lines a reader sees that keeps what has begun, and ends lines as soon as it can. -/
def readParts : Text → List Text → List Text
  | _, [] => []
  | kept, part :: parts => (cut (kept ++ part)).1 ++ readParts (cut (kept ++ part)).2 parts

/-- The part begins with the line feed of a line end that the text before it ends with. -/
def Splits (before part : Text) : Prop := EndsOpen before ∧ part.head? = some '\n'

instance (before part : Text) : Decidable (Splits before part) :=
  inferInstanceAs (Decidable (_ ∧ _))

/-- The lines the parts bring to the text before them, with `none` for one that is not a line. -/
def byPart : Text → List Text → List (Option Text)
  | _, [] => []
  | before, part :: parts =>
    (if Splits before part then none :: (cut part.tail).1.map some
      else (cut ((cut before).2 ++ part)).1.map some) ++ byPart (before ++ part) parts

theorem splits_iff {before part : Text} :
    Splits before part ↔ EndsOpen before ∧ ∃ t, part = '\n' :: t := by
  rw [Splits, List.head?_eq_some_iff]

theorem map_getD_map_some (lines : List Text) : (lines.map some).map (·.getD []) = lines := by
  rw [List.map_map]
  exact List.map_id lines

theorem reduceOption_map_some (lines : List Text) : (lines.map some).reduceOption = lines := by
  rw [List.reduceOption, List.filterMap_map]
  exact List.filterMap_some

/-- **What the reader sees** are the lines, and an empty one for each line end cut in two. -/
theorem readParts_eq (before : Text) (parts : List Text) :
    readParts (cut before).2 parts = (byPart before parts).map (·.getD []) := by
  induction parts generalizing before with
  | nil => rfl
  | cons part parts ih =>
    rw [readParts, byPart, List.map_append, ← ih]
    by_cases h : Splits before part
    · obtain ⟨hopen, t, rfl⟩ := splits_iff.mp h
      rw [if_pos h, rest_of_endsOpen hopen, cut_append_lf hopen, List.nil_append, cut_lf,
        List.map_cons, List.tail_cons, map_getD_map_some]
      rfl
    · rw [if_neg h, cut_append fun hopen hlf ↦ h ⟨hopen, hlf⟩, map_getD_map_some]

/-- **The lines of the text** are what the parts bring, without the line ends cut in two. -/
theorem cut_parts (before : Text) (parts : List Text) : (cut (before ++ parts.flatten)).1 =
    (cut before).1 ++ (byPart before parts).reduceOption := by
  induction parts generalizing before with
  | nil => simp [byPart]
  | cons part parts ih =>
    rw [byPart, List.reduceOption_append, List.flatten_cons, ← List.append_assoc, ih]
    by_cases h : Splits before part
    · obtain ⟨hopen, t, rfl⟩ := splits_iff.mp h
      rw [if_pos h, cut_append_lf hopen, List.tail_cons, List.reduceOption_cons_of_none,
        reduceOption_map_some, List.append_assoc]
    · rw [if_neg h, cut_append fun hopen hlf ↦ h ⟨hopen, hlf⟩, reduceOption_map_some,
        List.append_assoc]

end LineEnds
