import Mathlib.Data.List.Basic
import Mathlib.Data.List.SplitOn

/-!
# Regular expressions, run and replaced

An expression is run the way a backtracking matcher runs it: alternatives are tried in order, a
repetition takes as much as it can, or as little if it is lazy, and the first way on which the rest
goes through is the match. `scan` walks over a text and finds the matches that do not overlap.

What a program relies on is little: an expression that needs a certain letter matches nothing where
that letter does not occur, and what is copied between two matches stood in the text.
-/

namespace Pattern

variable {α β : Type}

/-- A regular expression over the letters `α`. A class of letters is a test. -/
inductive Regex (α : Type) where
  | empty
  | one (cls : α → Bool)
  /-- A repetition of one class, with a least and perhaps a most number of letters. -/
  | many (greedy : Bool) (least : ℕ) (most : Option ℕ) (cls : α → Bool)
  | seq (r s : Regex α)
  | alt (r s : Regex α)
  /-- Between a letter of words and none. -/
  | boundary (word : α → Bool)
  | finish

/-- The letters from here on, with the one right before. -/
structure Cursor (α : Type) where
  before : Option α
  rest : List α
deriving DecidableEq, Repr

namespace Cursor

/-- What is matched is a run of letters from the cursor on. -/
def Onto (c c' : Cursor α) : Prop := c'.rest <:+ c.rest

theorem Onto.refl (c : Cursor α) : Onto c c := List.suffix_refl _

theorem Onto.trans {c c' c'' : Cursor α} (h : Onto c c') (h' : Onto c' c'') : Onto c c'' :=
  List.IsSuffix.trans h' h

end Cursor

/-! ## Matching -/

/-- Take letters of a class, as many as `least` and `most` allow, and go on. -/
def runMany (greedy : Bool) (cls : α → Bool) (k : Cursor α → Option β) :
    ℕ → Option ℕ → Option α → List α → Option β
  | least, _, before, [] => if least = 0 then k ⟨before, []⟩ else none
  | least, most, before, a :: rest =>
    let stop := if least = 0 then k ⟨before, a :: rest⟩ else none
    let more := if most ≠ some 0 ∧ cls a = true
      then runMany greedy cls k (least - 1) (most.map (· - 1)) (some a) rest else none
    if greedy then more.or stop else stop.or more

/-- Match from a cursor on, and go on with what is left. -/
def Regex.run : Regex α → (Cursor α → Option β) → Cursor α → Option β
  | empty, k, c => k c
  | one cls, k, c =>
    match c.rest with
    | [] => none
    | a :: rest => if cls a then k ⟨some a, rest⟩ else none
  | many greedy least most cls, k, c => runMany greedy cls k least most c.before c.rest
  | seq r s, k, c => r.run (s.run k) c
  | alt r s, k, c => (r.run k c).or (s.run k c)
  | boundary word, k, c => if c.before.any word ≠ c.rest.head?.any word then k c else none
  | finish, k, c => if c.rest.isEmpty then k c else none

theorem or_eq_some {x y : Option β} {b : β} (h : x.or y = some b) : x = some b ∨ y = some b := by
  cases x with
  | none => exact .inr h
  | some a => exact .inl h

theorem exists_of_runMany {greedy : Bool} {cls : α → Bool} {k : Cursor α → Option β} {b : β}
    {rest : List α} {least : ℕ} {most : Option ℕ} {before : Option α}
    (h : runMany greedy cls k least most before rest = some b) :
    ∃ c : Cursor α, c.rest <:+ rest ∧ k c = some b := by
  induction rest generalizing least most before with
  | nil =>
    rw [runMany, Option.ite_none_right_eq_some] at h
    exact ⟨⟨before, []⟩, List.suffix_refl _, h.2⟩
  | cons a rest ih =>
    have hcases : (if least = 0 then k ⟨before, a :: rest⟩ else none) = some b ∨
        (if most ≠ some 0 ∧ cls a = true then
          runMany greedy cls k (least - 1) (most.map (· - 1)) (some a) rest else none) =
            some b := by
      rw [runMany] at h
      cases greedy with
      | true => exact (or_eq_some h).symm
      | false => exact or_eq_some h
    rcases hcases with h | h <;> rw [Option.ite_none_right_eq_some] at h
    · exact ⟨⟨before, a :: rest⟩, List.suffix_refl _, h.2⟩
    · obtain ⟨c, hc, hk⟩ := ih h.2
      exact ⟨c, hc.trans (List.suffix_cons a rest), hk⟩

/-- A match goes through at a cursor further on. -/
theorem Regex.exists_of_run {r : Regex α} {k : Cursor α → Option β} {c : Cursor α} {b : β}
    (h : r.run k c = some b) : ∃ c', c.Onto c' ∧ k c' = some b := by
  induction r generalizing k c with
  | empty => exact ⟨c, .refl c, h⟩
  | one cls =>
    rw [run] at h
    split at h
    · cases h
    · rename_i a rest hrest
      rw [Option.ite_none_right_eq_some] at h
      refine ⟨⟨some a, rest⟩, ?_, h.2⟩
      rw [Cursor.Onto, hrest]
      exact List.suffix_cons a rest
  | many greedy least most cls => exact exists_of_runMany h
  | seq r s ihr ihs =>
    obtain ⟨c', hc', h'⟩ := ihr h
    obtain ⟨c'', hc'', hk⟩ := ihs h'
    exact ⟨c'', hc'.trans hc'', hk⟩
  | alt r s ihr ihs => exact (or_eq_some h).elim ihr ihs
  | boundary word => exact ⟨c, .refl c, (Option.ite_none_right_eq_some.mp h).2⟩
  | finish => exact ⟨c, .refl c, (Option.ite_none_right_eq_some.mp h).2⟩

/-- Every match begins with a letter of the class. -/
def Regex.StartsWith (cls : α → Bool) : Regex α → Prop
  | one cls' => ∀ a, cls' a = true → cls a = true
  | seq r _ => r.StartsWith cls
  | alt r s => r.StartsWith cls ∧ s.StartsWith cls
  | _ => False

theorem Regex.run_eq_none {cls : α → Bool} {r : Regex α} (hr : r.StartsWith cls)
    {k : Cursor α → Option β} {c : Cursor α} (hc : c.rest.head?.any cls = false) :
    r.run k c = none := by
  induction r generalizing k with
  | one cls' =>
    rw [run]
    split
    · rfl
    · rename_i a rest hrest
      rw [hrest, List.head?_cons, Option.any_some] at hc
      rw [if_neg fun h ↦ Bool.false_ne_true (hc.symm.trans (hr a h))]
  | seq r s ihr _ => exact ihr hr
  | alt r s ihr ihs =>
    rw [run, ihr hr.1, ihs hr.2]
    rfl
  | _ => exact hr.elim

/-! ## Scanning -/

/-- Walk over a text. Where something is found at a cursor, it says how many letters it takes; the
other letters are copied. The count is of the letters still to be taken. -/
def scan (find : Cursor α → Option (ℕ × β)) : ℕ → Option α → List α → List (α ⊕ β)
  | 0, before, [] => ((find ⟨before, []⟩).map fun found ↦ Sum.inr found.2).toList
  | _ + 1, _, [] => []
  | n + 1, _, a :: rest => scan find n (some a) rest
  | 0, before, a :: rest =>
    match find ⟨before, a :: rest⟩ with
    | none => .inl a :: scan find 0 (some a) rest
    | some (0, b) => .inr b :: .inl a :: scan find 0 (some a) rest
    | some (n + 1, b) => .inr b :: scan find n (some a) rest

/-- Find a match of an expression. -/
def Regex.find (r : Regex α) (c : Cursor α) : Option (ℕ × Unit) :=
  r.run (fun c' ↦ some (c.rest.length - c'.rest.length, ())) c

/-- The text with every match replaced. -/
def render (put : β → List α) (found : List (α ⊕ β)) : List α :=
  found.flatMap fun x ↦ x.elim (fun a ↦ [a]) put

@[simp] theorem render_nil (put : β → List α) : render put [] = [] := rfl

@[simp] theorem render_inl_cons (put : β → List α) (a : α) (found : List (α ⊕ β)) :
    render put (.inl a :: found) = a :: render put found := rfl

@[simp] theorem render_inr_cons (put : β → List α) (b : β) (found : List (α ⊕ β)) :
    render put (.inr b :: found) = put b ++ render put found := rfl

/-- How many matches were found. -/
def hits (found : List (α ⊕ β)) : ℕ := found.countP Sum.isRight

/-- Where nothing is found, all is copied. -/
theorem scan_eq_map {find : Cursor α → Option (ℕ × β)} {before : Option α} {text : List α}
    (h : ∀ c : Cursor α, c.rest <:+ text → find c = none) :
    scan find 0 before text = text.map Sum.inl := by
  induction text generalizing before with
  | nil =>
    rw [scan, h ⟨before, []⟩ (List.suffix_refl _)]
    rfl
  | cons a rest ih =>
    rw [scan, h ⟨before, a :: rest⟩ (List.suffix_refl _),
      ih fun c hc ↦ h c (hc.trans (List.suffix_cons a rest))]
    rfl

theorem render_map_inl (put : β → List α) (text : List α) :
    render put (text.map Sum.inl) = text := by
  induction text with
  | nil => rfl
  | cons a rest ih => exact congrArg (a :: ·) ih

theorem hits_map_inl (text : List α) : hits (β := β) (text.map Sum.inl) = 0 := by
  rw [hits, List.countP_map]
  exact List.countP_eq_zero.mpr fun a _ ↦ Bool.false_ne_true

/-- Where no letter begins a match, there is none. -/
theorem Regex.scan_find_eq_map {cls : α → Bool} {r : Regex α} (hr : r.StartsWith cls)
    {before : Option α} {text : List α} (h : ∀ a ∈ text, cls a = false) :
    scan r.find 0 before text = text.map Sum.inl := by
  refine scan_eq_map fun c hc ↦ Regex.run_eq_none hr ?_
  cases hrest : c.rest with
  | nil => rfl
  | cons a rest =>
    rw [hrest] at hc
    exact h a (hc.subset List.mem_cons_self)

end Pattern

/-!
## What a scan has read

A scan that looks for words reads a text from left to right: where a word stands it is taken whole,
and a letter is copied only where no word begins. `Scans` says so without a search, and words of
which none begins another are read in one way only.

A text made of copied letters and of what is put for the words has no line more than the scan has,
as long as nothing that is put breaks a line.
-/

namespace Pattern

open List

variable {α β : Type} {word : β → List α} {text : List α} {found found' : List (α ⊕ β)}

inductive Scans (word : β → List α) : List α → List (α ⊕ β) → Prop
  | nil : Scans word [] []
  | hit (b : β) {rest : List α} {found : List (α ⊕ β)} (h : Scans word rest found) :
      Scans word (word b ++ rest) (.inr b :: found)
  | skip (a : α) {rest : List α} {found : List (α ⊕ β)} (hnone : ∀ b, ¬ word b <+: a :: rest)
      (h : Scans word rest found) : Scans word (a :: rest) (.inl a :: found)

/-- A search that finds a word just where one stands. -/
structure Finds (word : β → List α) (find : Cursor α → Option (ℕ × β)) : Prop where
  ne_nil : ∀ b, word b ≠ []
  taken : ∀ c n b, find c = some (n, b) → word b <+: c.rest ∧ n = (word b).length
  absent : ∀ c, find c = none → ∀ b, ¬ word b <+: c.rest

theorem Finds.scans {find : Cursor α → Option (ℕ × β)} (h : Finds word find) (n : ℕ)
    (before : Option α) (text : List α) :
    Scans word (text.drop n) (scan find n before text) := by
  induction text generalizing n before with
  | nil =>
    cases n with
    | succ n => exact .nil
    | zero =>
      rw [scan]
      cases hfind : find ⟨before, []⟩ with
      | none => exact .nil
      | some hit =>
        exact absurd (prefix_nil.mp (h.taken _ _ _ hfind).1) (h.ne_nil hit.2)
  | cons a rest ih =>
    cases n with
    | succ n => exact ih n (some a)
    | zero =>
      rw [scan, drop_zero]
      split
      · rename_i hfind
        exact .skip a (h.absent _ hfind) (ih 0 (some a))
      · rename_i b hfind
        exact absurd (h.taken _ _ _ hfind).2.symm (length_eq_zero_iff.not.mpr (h.ne_nil b))
      · rename_i n b hfind
        obtain ⟨⟨tail, htail⟩, hlen⟩ := h.taken _ _ _ hfind
        change word b ++ tail = a :: rest at htail
        have hdrop : rest.drop n = tail := by
          calc rest.drop n = (a :: rest).drop (n + 1) := rfl
            _ = (word b ++ tail).drop (word b).length := by rw [htail, ← hlen]
            _ = tail := drop_left
        have hscan := ih n (some a)
        rw [hdrop] at hscan
        rw [← htail]
        exact .hit b hscan

/-- **Words are read in one way.** -/
theorem Scans.unique (hne : ∀ b, word b ≠ []) (happart : ∀ b b', word b <+: word b' → b = b')
    (h : Scans word text found) (h' : Scans word text found') : found = found' := by
  have hword : ∀ {b b' : β} {r r' : List α}, word b ++ r = word b' ++ r' → b = b' := by
    intro b b' r r' heq
    rcases append_eq_append_iff.mp heq with ⟨t, ht, -⟩ | ⟨t, ht, -⟩
    · exact happart b b' ⟨t, ht.symm⟩
    · exact (happart b' b ⟨t, ht.symm⟩).symm
  induction h generalizing found' with
  | nil =>
    generalize htext : ([] : List α) = text' at h'
    cases h' with
    | nil => rfl
    | hit b h' => exact absurd (append_eq_nil_iff.mp htext.symm).1 (hne b)
    | skip a hnone h' => cases htext
  | @hit b rest found h ih =>
    generalize htext : word b ++ rest = text' at h'
    cases h' with
    | nil => exact absurd (append_eq_nil_iff.mp htext).1 (hne b)
    | hit b' h' =>
      obtain rfl := hword htext
      rw [ih (append_cancel_left htext ▸ h')]
    | skip a hnone h' => exact absurd ⟨rest, htext⟩ (hnone b)
  | @skip a rest found hnone h ih =>
    generalize htext : a :: rest = text' at h'
    cases h' with
    | nil => cases htext
    | @hit b' rest' _ h' => exact absurd ⟨rest', htext.symm⟩ (hnone b')
    | skip a' hnone' h' =>
      obtain ⟨rfl, rfl⟩ := cons.inj htext
      rw [ih h']

/-- The words and the copied letters are the text. -/
theorem Scans.render_word (h : Scans word text found) : render word found = text := by
  induction h with
  | nil => rfl
  | hit b h ih => rw [render_inr_cons, ih]
  | skip a hnone h ih => rw [render_inl_cons, ih]

/-! ## Lines -/

/-- The copied letters that are of a class. -/
def copied (cls : α → Bool) : α ⊕ β → Bool
  | .inl a => cls a
  | .inr _ => false

theorem splitOnP_append_of_forall {cls : α → Bool} {part rest : List α}
    (h : ∀ a ∈ part, cls a = false) :
    (part ++ rest).splitOnP cls = (rest.splitOnP cls).modifyHead (part ++ ·) := by
  induction part with
  | nil =>
    cases hsplit : rest.splitOnP cls with
    | nil => exact absurd hsplit (splitOnP_ne_nil _ _)
    | cons p ps => rw [nil_append, hsplit]; rfl
  | cons a part ih =>
    rw [cons_append, splitOnP_cons, h a mem_cons_self, if_neg Bool.false_ne_true,
      ih fun b hb ↦ h b (mem_cons_of_mem _ hb), modifyHead_modifyHead]
    rfl

theorem map_modifyHead {γ δ : Type} {g : γ → δ} {f : γ → γ} {f' : δ → δ}
    (h : ∀ x, g (f x) = f' (g x)) (xs : List γ) :
    (xs.modifyHead f).map g = (xs.map g).modifyHead f' := by
  cases xs with
  | nil => rfl
  | cons x xs =>
    rw [modifyHead_cons, map_cons, map_cons, modifyHead_cons, h]

/-- **The lines are those of the scan** where nothing that is put breaks a line. -/
theorem splitOnP_render {cls : α → Bool} {put : β → List α}
    (h : ∀ b, .inr b ∈ found → ∀ a ∈ put b, cls a = false) :
    (render put found).splitOnP cls = (found.splitOnP (copied cls)).map (render put) := by
  induction found with
  | nil => rfl
  | cons x found ih =>
    have hrest := ih fun b hb ↦ h b (mem_cons_of_mem _ hb)
    cases x with
    | inl a =>
      rw [render_inl_cons, splitOnP_cons, splitOnP_cons, hrest, copied]
      split_ifs
      · rfl
      · exact (map_modifyHead (fun _ ↦ render_inl_cons _ _ _) _).symm
    | inr b =>
      rw [render_inr_cons, splitOnP_append_of_forall (h b mem_cons_self), hrest, splitOnP_cons,
        copied, if_neg Bool.false_ne_true]
      exact (map_modifyHead (fun _ ↦ render_inr_cons _ _ _) _).symm

end Pattern
