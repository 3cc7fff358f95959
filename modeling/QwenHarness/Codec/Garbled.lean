import Mathlib.Data.List.Forall2
import QwenHarness.Codec.LineEnds
import QwenHarness.Codec.Utf8

/-!
# Characters cut in two

A reader that decodes each part of a stream by itself takes the parts of a character for characters
of their own, and none of them is one. So where a part ends inside a character, replacement
characters stand in its place. All else comes out as it is.
-/

namespace Utf8

/-- What the parts of a text may decode to: characters of more than one byte may be replaced. -/
inductive Garbled : List Char → List Char → Prop
  | nil : Garbled [] []
  | keep (c : Char) {t g : List Char} : Garbled t g → Garbled (c :: t) (c :: g)
  | cut {c : Char} (n : ℕ) {t g : List Char} : 0x80 ≤ c.toNat → Garbled t g →
      Garbled (c :: t) (List.replicate (n + 1) replacement ++ g)

theorem Garbled.append_left (u : List Char) {t g : List Char} (h : Garbled t g) :
    Garbled (u ++ t) (u ++ g) := by
  induction u with
  | nil => exact h
  | cons c u ih => exact ih.keep c

theorem garbled_cons {c : Char} {t g : List Char} (h : Garbled (c :: t) g) :
    (∃ g', g = c :: g' ∧ Garbled t g') ∨
      ∃ n g', 0x80 ≤ c.toNat ∧ g = List.replicate (n + 1) replacement ++ g' ∧ Garbled t g' := by
  cases h with
  | keep _ h => exact .inl ⟨_, rfl, h⟩
  | cut n hc h => exact .inr ⟨n, _, hc, rfl, h⟩

/-! ## The bytes of a character -/

/-- A byte that goes on with a character. -/
def IsContinuation (b : UInt8) : Prop := 0x80 ≤ b.toNat ∧ b.toNat < 0xC0

theorem isContinuation_ofNat {n : ℕ} (h : 0x80 ≤ n) (h' : n < 0xC0) :
    IsContinuation (UInt8.ofNat n) := by
  rw [IsContinuation, toNat_ofNat (by omega)]
  exact ⟨h, h'⟩

theorem continuations_encodeChar (c : Char) :
    ∀ b ∈ (String.utf8EncodeChar c).tail, IsContinuation b := by
  rw [String.utf8EncodeChar]
  generalize c.val.toNat = v
  split_ifs with h1 h2 h3
  · simp
  · simp only [List.tail_cons, List.forall_mem_cons]
    exact ⟨isContinuation_ofNat (by omega) (by omega), by simp⟩
  · simp only [List.tail_cons, List.forall_mem_cons]
    exact ⟨isContinuation_ofNat (by omega) (by omega),
      isContinuation_ofNat (by omega) (by omega), by simp⟩
  · simp only [List.tail_cons, List.forall_mem_cons]
    exact ⟨isContinuation_ofNat (by omega) (by omega),
      isContinuation_ofNat (by omega) (by omega),
      isContinuation_ofNat (by omega) (by omega), by simp⟩

/-- A character that can be cut has more than one byte. -/
theorem le_toNat_of_encodeChar {c : Char} {p s : List UInt8} (hp : p ≠ []) (hs : s ≠ [])
    (h : String.utf8EncodeChar c = p ++ s) : 0x80 ≤ c.toNat := by
  by_contra hc
  have hone : (String.utf8EncodeChar c).length = 1 := by
    rw [String.utf8EncodeChar, if_pos]
    · rfl
    · exact Nat.le_of_lt_succ (not_le.mp hc)
  rw [h, List.length_append] at hone
  have hlp := List.length_pos_of_ne_nil hp
  have hls := List.length_pos_of_ne_nil hs
  omega

theorem start_continuation {b : UInt8} (h : IsContinuation b) :
    start b = ([replacement], none) := by
  obtain ⟨hlow, hhigh⟩ := h
  simp only [start]
  rw [if_neg (by omega), if_pos (by omega)]

/-- Bytes that go on with nothing are replaced one by one. -/
theorem run_continuations {bs : List UInt8} (h : ∀ b ∈ bs, IsContinuation b) :
    run none bs = (List.replicate bs.length replacement, none) := by
  induction bs with
  | nil => rfl
  | cons b bs ih =>
    rw [List.forall_mem_cons] at h
    rw [run, feed, start_continuation h.1, ih h.2]
    rfl

theorem decode_continuations_append {s : List UInt8} (h : ∀ b ∈ s, IsContinuation b)
    (bs : List UInt8) : decode (s ++ bs) = List.replicate s.length replacement ++ decode bs := by
  have hwhole : Whole s := by rw [Whole, run_continuations h]
  rw [decode_append hwhole, decode, run_continuations h]
  simp [flush]

theorem start_ne_nil {b : UInt8} (h : (start b).2 = none) : (start b).1 ≠ [] := by
  simp only [start] at h ⊢
  split_ifs at h ⊢ <;> simp_all

/-- A byte that leaves the machine idle brings a character. -/
theorem feed_ne_nil {st : State} {b : UInt8} (h : (feed st b).2 = none) : (feed st b).1 ≠ [] := by
  rcases st with - | p
  · exact start_ne_nil h
  · rw [feed] at h ⊢
    split_ifs at h ⊢
    · exact List.cons_ne_nil _ _
    · exact List.cons_ne_nil _ _

theorem run_ne_nil {st : State} {bs : List UInt8} (h : (run st bs).2 = none) (hbs : bs ≠ []) :
    (run st bs).1 ≠ [] := by
  induction bs generalizing st with
  | nil => exact absurd rfl hbs
  | cons b bs ih =>
    rw [run] at h ⊢
    rcases bs with - | ⟨b', bs⟩
    · rw [run, List.append_nil]
      exact feed_ne_nil h
    · exact List.append_ne_nil_of_right_ne_nil _ (ih h (List.cons_ne_nil _ _))

/-- **A character cut in two**: what is before the cut is replaced, or gone. -/
theorem decode_of_encodeChar {c : Char} {p s : List UInt8} (hs : s ≠ [])
    (h : String.utf8EncodeChar c = p ++ s) :
    ∃ n, decode p = List.replicate n replacement := by
  have hrun := run_encodeChar c
  rw [h, run_append] at hrun
  obtain ⟨hout, hend⟩ := Prod.mk.inj hrun
  -- what is after the cut brings a character, so what is before it brings none
  have hsome := run_ne_nil hend hs
  have hnil : (run none p).1 = [] := by
    have hlength := congrArg List.length hout
    rw [List.length_append, List.length_singleton] at hlength
    have hpos := List.length_pos_of_ne_nil hsome
    exact List.eq_nil_of_length_eq_zero (by omega)
  rw [decode, hnil, List.nil_append]
  rcases (run none p).2 with - | q
  · exact ⟨0, rfl⟩
  · exact ⟨1, rfl⟩

/-! ## The bytes of a text -/

theorem encode_cons (c : Char) (t : List Char) :
    encode (c :: t) = String.utf8EncodeChar c ++ encode t := List.flatMap_cons

theorem encode_append (t u : List Char) : encode (t ++ u) = encode t ++ encode u :=
  List.flatMap_append

/-- **A text is cut** between two characters, or inside one. -/
theorem cut_encode {t : List Char} {xs ys : List UInt8} (h : encode t = xs ++ ys) :
    (∃ u v, t = u ++ v ∧ xs = encode u ∧ ys = encode v) ∨
      ∃ u c v p s, t = u ++ c :: v ∧ xs = encode u ++ p ∧ ys = s ++ encode v ∧
        String.utf8EncodeChar c = p ++ s ∧ p ≠ [] ∧ s ≠ [] := by
  induction t generalizing xs with
  | nil =>
    obtain ⟨rfl, rfl⟩ := List.append_eq_nil_iff.mp h.symm
    exact .inl ⟨[], [], rfl, rfl, rfl⟩
  | cons c t ih =>
    rw [encode_cons] at h
    rcases List.append_eq_append_iff.mp h with ⟨zs, rfl, hrest⟩ | ⟨s, hc, rfl⟩
    · rcases ih hrest with ⟨u, v, rfl, rfl, rfl⟩ | ⟨u, d, v, p, s, rfl, rfl, rfl, hd, hp, hs⟩
      · exact .inl ⟨c :: u, v, rfl, (encode_cons c u).symm, rfl⟩
      · refine .inr ⟨c :: u, d, v, p, s, rfl, ?_, rfl, hd, hp, hs⟩
        rw [encode_cons, List.append_assoc]
    · by_cases hxs : xs = []
      · subst hxs
        refine .inl ⟨[], c :: t, rfl, rfl, ?_⟩
        rw [encode_cons, hc, List.nil_append]
      · by_cases hs : s = []
        · subst hs
          refine .inl ⟨[c], t, rfl, ?_, rfl⟩
          rw [encode_cons, hc, List.append_nil]
          exact (List.append_nil _).symm
        · exact .inr ⟨[], c, t, xs, s, rfl, rfl, rfl, hc, hxs, hs⟩

theorem continuations_of_encodeChar {c : Char} {p s : List UInt8} (hp : p ≠ [])
    (h : String.utf8EncodeChar c = p ++ s) : ∀ b ∈ s, IsContinuation b := by
  obtain ⟨b, p, rfl⟩ := List.exists_cons_of_ne_nil hp
  have htail := continuations_encodeChar c
  rw [h, List.cons_append, List.tail_cons] at htail
  exact fun b hb ↦ htail b (List.mem_append_right p hb)

/-- The parts of a text decode to the text with some of its characters replaced. What goes on with
a character from before is replaced byte by byte. -/
theorem exists_garbled_parts (parts : List (List UInt8)) {s : List UInt8} {t : List Char}
    (hs : ∀ b ∈ s, IsContinuation b) (h : parts.flatten = s ++ encode t) :
    ∃ g, (parts.map decode).flatten = List.replicate s.length replacement ++ g ∧ Garbled t g := by
  induction parts generalizing s t with
  | nil =>
    obtain ⟨rfl, hnil⟩ := List.append_eq_nil_iff.mp h.symm
    have ht : t = [] := by
      rw [← decode_encode t, hnil]
      rfl
    rw [ht]
    exact ⟨[], rfl, .nil⟩
  | cons part parts ih =>
    rw [List.flatten_cons] at h
    rw [List.map_cons, List.flatten_cons]
    rcases List.append_eq_append_iff.mp h with ⟨s', rfl, hrest⟩ | ⟨xs, rfl, hrest⟩
    · -- the part ends before the character from before does
      rw [List.forall_mem_append] at hs
      obtain ⟨g, hg, hgarbled⟩ := ih hs.2 hrest
      have hpart := decode_continuations_append hs.1 []
      rw [List.append_nil] at hpart
      refine ⟨g, ?_, hgarbled⟩
      have hnil : decode [] = [] := rfl
      rw [hnil, List.append_nil] at hpart
      rw [hg, hpart, List.length_append, List.replicate_add, List.append_assoc]
    · rw [decode_continuations_append hs, List.append_assoc]
      rcases cut_encode hrest with
        ⟨u, v, rfl, rfl, hv⟩ | ⟨u, c, v, p, s', rfl, rfl, hv, hc, hp, hs'⟩
      · obtain ⟨g, hg, hgarbled⟩ := ih (s := []) (by simp) hv
        refine ⟨u ++ g, ?_, hgarbled.append_left u⟩
        rw [decode_encode, hg]
        rfl
      · have hcont := continuations_of_encodeChar hp hc
        obtain ⟨g, hg, hgarbled⟩ := ih hcont hv
        obtain ⟨n, hn⟩ := decode_of_encodeChar hs' hc
        obtain ⟨k, hk⟩ : ∃ k, n + s'.length = k + 1 :=
          Nat.exists_eq_succ_of_ne_zero (by have := List.length_pos_of_ne_nil hs'; omega)
        refine ⟨u ++ (List.replicate (k + 1) replacement ++ g), ?_,
          (hgarbled.cut k (le_toNat_of_encodeChar hp hs' hc)).append_left u⟩
        rw [decode_append (whole_encode u), decode_encode, hn, hg, ← hk, List.replicate_add]
        simp only [List.append_assoc]

/-- **The parts of a text** decode to the text with some of its characters replaced. -/
theorem garbled_parts {parts : List (List UInt8)} {t : List Char} (h : parts.flatten = encode t) :
    Garbled t (parts.map decode).flatten := by
  obtain ⟨g, hg, hgarbled⟩ := exists_garbled_parts parts (s := []) (by simp) h
  rw [hg]
  exact hgarbled

/-! ## What is not replaced -/

section Kept

variable {t g : List Char}

theorem Garbled.eq_nil_iff (h : Garbled t g) : t = [] ↔ g = [] := by
  cases h with
  | nil => exact Iff.rfl
  | keep c h => exact iff_of_false (List.cons_ne_nil _ _) (List.cons_ne_nil _ _)
  | cut n hc h => exact iff_of_false (List.cons_ne_nil _ _) (by simp)

/-- A character of one byte is not replaced, and not put in. -/
theorem Garbled.head?_iff (h : Garbled t g) {a : Char} (ha : a.toNat < 0x80) :
    t.head? = some a ↔ g.head? = some a := by
  cases h with
  | nil => exact Iff.rfl
  | keep c h => exact Iff.rfl
  | cut n hc h =>
    refine iff_of_false (fun heq ↦ ?_) fun heq ↦ ?_
    · obtain rfl := Option.some.inj heq
      omega
    · rw [List.replicate_succ] at heq
      obtain rfl := Option.some.inj heq
      exact absurd ha (by decide)

/-- A text of such characters comes out as it is, and nothing else does so as that. -/
theorem Garbled.eq_iff (h : Garbled t g) {w : List Char} (hw : ∀ a ∈ w, a.toNat < 0x80) :
    t = w ↔ g = w := by
  induction h generalizing w with
  | nil => exact Iff.rfl
  | keep c h ih =>
    rcases w with - | ⟨a, w⟩
    · exact iff_of_false (List.cons_ne_nil _ _) (List.cons_ne_nil _ _)
    · rw [List.cons_eq_cons, List.cons_eq_cons, ih (List.forall_mem_cons.mp hw).2]
  | cut n hc h ih =>
    rcases w with - | ⟨a, w⟩
    · exact iff_of_false (List.cons_ne_nil _ _) (by simp)
    · have ha := (List.forall_mem_cons.mp hw).1
      refine iff_of_false (fun heq ↦ ?_) fun heq ↦ ?_
      · obtain rfl := (List.cons_eq_cons.mp heq).1
        omega
      · rw [List.replicate_succ, List.cons_append] at heq
        obtain rfl := (List.cons_eq_cons.mp heq).1
        exact absurd ha (by decide)

theorem Garbled.takeWhile (h : Garbled t g) {p : Char → Bool} (hp : ∀ c, 0x80 ≤ c.toNat → p c) :
    Garbled (t.takeWhile p) (g.takeWhile p) := by
  induction h with
  | nil => exact .nil
  | keep c h ih =>
    rw [List.takeWhile_cons, List.takeWhile_cons]
    split
    · exact ih.keep c
    · exact .nil
  | @cut c n t g hc h ih =>
    have hall : ∀ d ∈ List.replicate (n + 1) replacement, p d := fun d hd ↦ by
      rw [List.eq_of_mem_replicate hd]
      exact hp _ (by decide)
    rw [List.takeWhile_cons, if_pos (hp c hc), List.takeWhile_append_of_pos hall]
    exact ih.cut n hc

end Kept

/-! ## Lines -/

open LineEnds (isEnd)

theorem toNat_of_isEnd {c : Char} (hc : isEnd c) : c.toNat < 0x80 := by
  rw [isEnd, Bool.or_eq_true, beq_iff_eq, beq_iff_eq] at hc
  rcases hc with rfl | rfl <;> decide

theorem garbled_cons_of_isEnd {c : Char} {t g : List Char} (hc : isEnd c)
    (h : Garbled (c :: t) g) : ∃ g', g = c :: g' ∧ Garbled t g' := by
  rcases garbled_cons h with hkeep | ⟨n, g', hle, -, -⟩
  · exact hkeep
  · exact absurd (toNat_of_isEnd hc) (not_lt.mpr hle)

theorem not_isEnd_replicate (n : ℕ) : ∀ c ∈ List.replicate n replacement, ¬ isEnd c := by
  intro c hc
  rw [List.eq_of_mem_replicate hc]
  decide

/-- What stands before the first line end is of the first line. -/
theorem cut_append_of_nil {w g : List Char} (hw : ∀ c ∈ w, ¬ isEnd c)
    (h : (LineEnds.cut g).1 = []) : LineEnds.cut (w ++ g) = ([], w ++ (LineEnds.cut g).2) := by
  induction w with
  | nil => exact Prod.ext h rfl
  | cons c w ih =>
    rw [List.forall_mem_cons] at hw
    have hcut := ih hw.2
    rw [List.cons_append, LineEnds.cut_cons_of_nil hw.1 (congrArg Prod.fst hcut), hcut]
    rfl

theorem cut_append_of_cons {w g line : List Char} {lines : List (List Char)}
    (hw : ∀ c ∈ w, ¬ isEnd c) (h : (LineEnds.cut g).1 = line :: lines) :
    LineEnds.cut (w ++ g) = ((w ++ line) :: lines, (LineEnds.cut g).2) := by
  induction w with
  | nil => exact Prod.ext h rfl
  | cons c w ih =>
    rw [List.forall_mem_cons] at hw
    have hcut := ih hw.2
    rw [List.cons_append, LineEnds.cut_cons_of_cons hw.1 (congrArg Prod.fst hcut), hcut]
    rfl

/-- **The lines stay**, and so does what has begun since the last, with characters replaced. -/
theorem garbled_cut {t g : List Char} (h : Garbled t g) :
    List.Forall₂ Garbled (LineEnds.cut t).1 (LineEnds.cut g).1 ∧
      Garbled (LineEnds.cut t).2 (LineEnds.cut g).2 := by
  induction t using LineEnds.cut.induct generalizing g with
  | case1 =>
    rw [h.eq_nil_iff.mp rfl]
    exact ⟨.nil, .nil⟩
  | case2 cs ih =>
    obtain ⟨g, rfl, hlf⟩ := garbled_cons_of_isEnd (by decide) h
    obtain ⟨g, rfl, hg⟩ := garbled_cons_of_isEnd (by decide) hlf
    rw [LineEnds.cut_crlf, LineEnds.cut_crlf]
    exact ⟨.cons .nil (ih hg).1, (ih hg).2⟩
  | case3 c cs hc hend ih =>
    have hcr : c = '\r' → cs.head? ≠ some '\n' := fun hr hlf ↦
      hc _ hr (List.eq_cons_of_mem_head? hlf)
    obtain ⟨g, rfl, hg⟩ := garbled_cons_of_isEnd hend h
    have hcr' : c = '\r' → g.head? ≠ some '\n' := fun hr hlf ↦
      hcr hr ((hg.head?_iff (by decide)).mpr hlf)
    rw [LineEnds.cut_end hend hcr, LineEnds.cut_end hend hcr']
    exact ⟨.cons .nil (ih hg).1, (ih hg).2⟩
  | case4 c cs hc hend hnil ih =>
    rw [LineEnds.cut_cons_of_nil hend hnil]
    rcases garbled_cons h with ⟨g, rfl, hg⟩ | ⟨n, g, hle, rfl, hg⟩
    all_goals
      obtain ⟨hlines, hrest⟩ := ih hg
      rw [hnil] at hlines
      have hnil' := List.forall₂_nil_left_iff.mp hlines
    · rw [LineEnds.cut_cons_of_nil hend hnil']
      exact ⟨.nil, hrest.keep c⟩
    · rw [cut_append_of_nil (not_isEnd_replicate _) hnil']
      exact ⟨.nil, hrest.cut n hle⟩
  | case5 c cs hc hend line lines hcons ih =>
    rw [LineEnds.cut_cons_of_cons hend hcons]
    rcases garbled_cons h with ⟨g, rfl, hg⟩ | ⟨n, g, hle, rfl, hg⟩
    all_goals
      obtain ⟨hlines, hrest⟩ := ih hg
      rw [hcons] at hlines
      obtain ⟨line', lines', hline, hlines', hcons'⟩ := List.forall₂_cons_left_iff.mp hlines
    · rw [LineEnds.cut_cons_of_cons hend hcons']
      exact ⟨.cons (hline.keep c) hlines', hrest⟩
    · rw [cut_append_of_cons (not_isEnd_replicate _) hcons']
      exact ⟨.cons (hline.cut n hle) hlines', hrest⟩

end Utf8
