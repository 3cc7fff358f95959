import QwenHarness.Hooks.Registry
import QwenHarness.Pattern.Pieces
import QwenHarness.Codec.Utf16

/-!
# What a glob of a hook stands for

A glob is meant segment by segment: a star and a question mark stay within one segment, and a
segment of two stars stands for any number of whole segments. What it compiles to is a pattern for
the path as a whole. The two agree on every path where the glob has no two stars in a row, and on no
such glob otherwise: two stars become any text without a line end, with the slash after them taken
away, so that the name after them need not start a segment.
-/

namespace QwenHarness.Hooks

open Pattern Policy Pieces Utf16

/-! ## The meaning by segments -/

/-- What a segment of a glob stands for. -/
def SegmentMatches : List ℕ → List ℕ → Prop
  | [], w => w = []
  | c :: g, w =>
    if c = Policy.star then ∃ u v, w = u ++ v ∧ SegmentMatches g v
    else if c = question then ∃ a v, w = a :: v ∧ SegmentMatches g v
    else ∃ v, w = c :: v ∧ SegmentMatches g v

/-- What the segments of a glob stand for. -/
def SegmentsMatch : List (List ℕ) → List (List ℕ) → Prop
  | [], ws => ws = []
  | g :: gs, ws =>
    if g = [Policy.star, Policy.star] then ∃ us vs, ws = us ++ vs ∧ SegmentsMatch gs vs
    else ∃ w vs, ws = w :: vs ∧ SegmentMatches g w ∧ SegmentsMatch gs vs

/-- The path matches the glob segment by segment. -/
def MatchesBySegment (glob path : List ℕ) : Prop :=
  SegmentsMatch (glob.splitOn slash) (path.splitOn slash)

/-! ## Globs without two stars in a row -/

section Plain

variable {c : ℕ} {g w p : List ℕ} {gs ws : List (List ℕ)}

/-- What a letter of a glob becomes, where it stands for itself alone. -/
def letterPart (c : ℕ) : Pattern.Part ℕ :=
  if c = Policy.star then .many notSlash else if c = question then .one notSlash else .letter c

theorem globToRegExp_letter (h : ¬ [Policy.star, Policy.star] <+: c :: g) :
    globToRegExp (c :: g) = letterPart c :: globToRegExp g := by
  rw [letterPart, globToRegExp.eq_def]
  by_cases hc : c = Policy.star
  · subst hc
    simp only [if_true]
    rcases g with - | ⟨d, g⟩
    · rfl
    · have hd : d ≠ Policy.star := by
        rintro rfl
        exact h (List.prefix_append [Policy.star, Policy.star] g)
      exact if_neg hd
  · simp only [if_neg hc]
    split <;> rfl

/-- The slash that two stars take away. -/
def dropSlash : List ℕ → List ℕ
  | [] => []
  | c :: g => if c = slash then g else c :: g

theorem globToRegExp_stars (g : List ℕ) :
    globToRegExp (Policy.star :: Policy.star :: g) =
      .many notLineEnd :: globToRegExp (dropSlash g) := by
  rw [globToRegExp.eq_def]
  simp only [if_true]
  rcases g with - | ⟨e, g⟩
  · rfl
  · rw [dropSlash]
    change (if e = slash then _ else _) = _
    by_cases he : e = slash
    · rw [if_pos he, if_pos he]
    · rw [if_neg he, if_neg he]

theorem length_dropSlash_le (g : List ℕ) : (dropSlash g).length ≤ g.length := by
  rcases g with - | ⟨c, g⟩
  · exact le_rfl
  · rw [dropSlash]
    split
    · exact Nat.le_succ _
    · exact le_rfl

/-- The compiler goes through a glob letter by letter, except for two stars in a row. -/
theorem glob_induction {P : List ℕ → Prop} (nil : P [])
    (letter : ∀ c g, ¬ [Policy.star, Policy.star] <+: c :: g → P g → P (c :: g))
    (stars : ∀ g, P (dropSlash g) → P (Policy.star :: Policy.star :: g)) (g : List ℕ) : P g := by
  induction hn : g.length using Nat.strongRecOn generalizing g with
  | ind n ih =>
    rcases g with - | ⟨c, g⟩
    · exact nil
    · by_cases h : [Policy.star, Policy.star] <+: c :: g
      · obtain ⟨r, hr⟩ := h
        rw [← hr] at hn ⊢
        refine stars r (ih _ ?_ _ rfl)
        have := length_dropSlash_le r
        simp only [List.cons_append, List.nil_append, List.length_cons] at hn
        omega
      · refine letter c g h (ih _ ?_ _ rfl)
        rw [List.length_cons] at hn
        omega

theorem segmentsMatch_cons_of_ne (h : g ≠ [Policy.star, Policy.star]) : SegmentsMatch (g :: gs) ws ↔
    ∃ w vs, ws = w :: vs ∧ SegmentMatches g w ∧ SegmentsMatch gs vs := by
  rw [SegmentsMatch, if_neg h]

theorem slash_not_mem_of_denotes (hc : c ≠ slash) (h : (letterPart c).Denotes w) : slash ∉ w := by
  rw [letterPart] at h
  split_ifs at h
  · exact fun hw ↦ absurd (h slash hw) (by decide)
  · obtain ⟨a, ha, rfl⟩ := h
    rw [List.mem_singleton]
    rintro rfl
    exact absurd ha (by decide)
  · obtain rfl := h
    exact fun hw ↦ hc (List.mem_singleton.mp hw).symm

/-- One letter of a segment, and what it stands for. -/
theorem segmentMatches_cons_iff (hw : slash ∉ w) : SegmentMatches (c :: g) w ↔
    ∃ u v, w = u ++ v ∧ (letterPart c).Denotes u ∧ SegmentMatches g v := by
  rw [SegmentMatches, letterPart]
  split_ifs with hstar hquestion
  · refine exists₂_congr fun u v ↦ and_congr_right fun huv ↦ (and_iff_right fun a ha ↦ ?_).symm
    exact decide_eq_true fun heq ↦ hw (huv ▸ List.mem_append_left v (heq ▸ ha))
  · constructor
    · rintro ⟨a, v, rfl, hv⟩
      refine ⟨[a], v, rfl, ⟨a, decide_eq_true fun heq ↦ hw (heq ▸ List.mem_cons_self), rfl⟩, hv⟩
    · rintro ⟨_, v, rfl, ⟨a, -, rfl⟩, hv⟩
      exact ⟨a, v, rfl, hv⟩
  · constructor
    · rintro ⟨v, rfl, hv⟩
      exact ⟨[c], v, rfl, rfl, hv⟩
    · rintro ⟨_, v, rfl, rfl, hv⟩
      exact ⟨v, rfl, hv⟩

/-- Where no segment is two stars, no segments stand for none but no segments. -/
theorem not_segmentsMatch_nil (hne : gs ≠ []) (h : [Policy.star, Policy.star] ∉ gs) :
    ¬ SegmentsMatch gs [] := by
  obtain ⟨g, gs, rfl⟩ := List.exists_cons_of_ne_nil hne
  rw [segmentsMatch_cons_of_ne fun heq ↦ h (heq ▸ List.mem_cons_self)]
  rintro ⟨w, vs, heq, -⟩
  cases heq

theorem matchesBySegment_nil : MatchesBySegment [] p ↔ p = [] := by
  rw [MatchesBySegment, List.splitOn_nil, segmentsMatch_cons_of_ne (by decide)]
  constructor
  · rintro ⟨w, vs, hp, rfl, rfl⟩
    have hjoin : [slash].intercalate (p.splitOn slash) = p := List.intercalate_splitOn slash
    rw [← hjoin, hp]
    rfl
  · rintro rfl
    exact ⟨[], [], rfl, rfl, rfl⟩

theorem matchesBySegment_slash_cons_iff (h : [Policy.star, Policy.star] ∉ g.splitOn slash) :
    MatchesBySegment (slash :: g) p ↔ ∃ r, p = slash :: r ∧ MatchesBySegment g r := by
  rw [MatchesBySegment, List.splitOn_cons_eq_if_modifyHead, if_pos (beq_self_eq_true _),
    segmentsMatch_cons_of_ne (by decide)]
  constructor
  · rintro ⟨w, vs, hp, rfl, hvs⟩
    rcases p with - | ⟨a, p⟩
    · obtain rfl : vs = [] := (List.cons.inj hp).2.symm
      exact absurd hvs (not_segmentsMatch_nil (List.splitOn_ne_nil _ _) h)
    · rw [List.splitOn_cons_eq_if_modifyHead] at hp
      split at hp
      · next ha =>
        obtain rfl := beq_iff_eq.mp ha
        refine ⟨p, rfl, ?_⟩
        rw [MatchesBySegment, (List.cons.inj hp).2]
        exact hvs
      · obtain ⟨q, qs, hq⟩ := List.exists_cons_of_ne_nil (List.splitOn_ne_nil slash p)
        rw [hq] at hp
        cases (List.cons.inj hp).1
  · rintro ⟨r, rfl, hr⟩
    rw [List.splitOn_cons_eq_if_modifyHead, if_pos (beq_self_eq_true _)]
    exact ⟨[], _, rfl, rfl, hr⟩

/-- One letter of a glob, and what it stands for. -/
theorem matchesBySegment_cons_iff (h : ¬ [Policy.star, Policy.star] <:+: c :: g) :
    MatchesBySegment (c :: g) p ↔
      ∃ u r, p = u ++ r ∧ (letterPart c).Denotes u ∧ MatchesBySegment g r := by
  by_cases hc : c = slash
  · subst hc
    rw [matchesBySegment_slash_cons_iff fun hmem ↦
      h ((infix_of_mem_splitOn hmem).trans (List.suffix_cons _ g).isInfix)]
    constructor
    · rintro ⟨r, rfl, hr⟩
      exact ⟨[slash], r, rfl, rfl, hr⟩
    · rintro ⟨_, r, rfl, rfl, hr⟩
      exact ⟨r, rfl, hr⟩
  · obtain ⟨g₀, gs, hg⟩ := List.exists_cons_of_ne_nil (List.splitOn_ne_nil slash g)
    have hfirst : (c :: g).splitOn slash = (c :: g₀) :: gs := by
      rw [List.splitOn_cons_eq_if_modifyHead, if_neg (by simpa using hc), hg]
      rfl
    have hne : c :: g₀ ≠ [Policy.star, Policy.star] := fun heq ↦
      h (heq ▸ infix_of_mem_splitOn (hfirst ▸ List.mem_cons_self))
    have hne' : g₀ ≠ [Policy.star, Policy.star] := fun heq ↦ h ((heq ▸ infix_of_mem_splitOn
      (hg ▸ List.mem_cons_self)).trans (List.suffix_cons _ g).isInfix)
    simp only [MatchesBySegment, hfirst, hg, segmentsMatch_cons_of_ne hne,
      segmentsMatch_cons_of_ne hne']
    constructor
    · rintro ⟨w, vs, hp, hw, hvs⟩
      have hmem : w ∈ p.splitOn slash := hp ▸ List.mem_cons_self
      have hfree : slash ∉ w := not_mem_of_mem_splitOn hmem
      obtain ⟨u, v, rfl, hu, hv⟩ := (segmentMatches_cons_iff hfree).mp hw
      obtain ⟨r, rfl, -, hr⟩ := splitOn_eq_append_cons_iff.mp hp
      exact ⟨u, r, rfl, hu, v, vs, hr, hv, hvs⟩
    · rintro ⟨u, r, rfl, hu, v, vs, hr, hv, hvs⟩
      have hfree := slash_not_mem_of_denotes hc hu
      have hmem : v ∈ r.splitOn slash := hr ▸ List.mem_cons_self
      have hv' : slash ∉ v := not_mem_of_mem_splitOn hmem
      refine ⟨u ++ v, vs, splitOn_eq_append_cons_iff.mpr ⟨r, rfl, hfree, hr⟩, ?_, hvs⟩
      refine (segmentMatches_cons_iff fun hmem ↦ ?_).mpr ⟨u, v, rfl, hu, hv⟩
      exact (List.mem_append.mp hmem).elim hfree hv'

/-- **Without two stars in a row** a glob compiles to what it means. -/
theorem accepts_iff_matchesBySegment {glob path : List ℕ}
    (h : ¬ [Policy.star, Policy.star] <:+: glob) :
    accepts (globToRegExp glob) path ↔ MatchesBySegment glob path := by
  induction glob generalizing path with
  | nil =>
    rw [matchesBySegment_nil]
    exact List.isEmpty_iff
  | cons c glob ih =>
    have htail : ¬ [Policy.star, Policy.star] <:+: glob := fun hin ↦
      h (hin.trans (List.suffix_cons c glob).isInfix)
    rw [globToRegExp_letter fun hp ↦ h hp.isInfix, matchesBySegment_cons_iff h]
    refine Pattern.Part.take_iff.trans ?_
    simp only [ih htail]

end Plain

/-! ## Globs with two stars in a row -/

section Stars

variable {glob path w : List ℕ} {gs ws : List (List ℕ)}

/-- A part of a compiled glob. -/
inductive IsGlobPart (glob : List ℕ) : Pattern.Part ℕ → Prop
  | letter {c : ℕ} (h : c ∈ glob) : IsGlobPart glob (.letter c)
  | one : IsGlobPart glob (.one notSlash)
  | manyNotSlash : IsGlobPart glob (.many notSlash)
  | manyNotLineEnd : IsGlobPart glob (.many notLineEnd)

theorem IsGlobPart.mono {glob glob' : List ℕ} (hsub : glob ⊆ glob') {p : Pattern.Part ℕ}
    (h : IsGlobPart glob p) : IsGlobPart glob' p := by
  rcases h with hc | - | - | -
  · exact .letter (hsub hc)
  · exact .one
  · exact .manyNotSlash
  · exact .manyNotLineEnd

theorem dropSlash_subset (g : List ℕ) : dropSlash g ⊆ g := by
  rcases g with - | ⟨c, g⟩
  · exact List.Subset.refl _
  · rw [dropSlash]
    split
    · exact List.subset_cons_self c g
    · exact List.Subset.refl _

theorem isGlobPart_letterPart {c : ℕ} (h : c ∈ glob) : IsGlobPart glob (letterPart c) := by
  rw [letterPart]
  split_ifs
  · exact .manyNotSlash
  · exact .one
  · exact .letter h

theorem isGlobPart_globToRegExp (glob : List ℕ) : ∀ p ∈ globToRegExp glob, IsGlobPart glob p := by
  induction glob using glob_induction with
  | nil => exact fun p hp ↦ absurd hp List.not_mem_nil
  | letter c g h ih =>
    rw [globToRegExp_letter h, List.forall_mem_cons]
    exact ⟨isGlobPart_letterPart List.mem_cons_self,
      fun p hp ↦ (ih p hp).mono (List.subset_cons_self c g)⟩
  | stars g ih =>
    rw [globToRegExp_stars, List.forall_mem_cons]
    refine ⟨.manyNotLineEnd, fun p hp ↦ (ih p hp).mono fun a ha ↦ ?_⟩
    exact List.mem_cons_of_mem _ (List.mem_cons_of_mem _ (dropSlash_subset g ha))

theorem many_mem_globToRegExp (h : [Policy.star, Policy.star] <:+: glob) :
    .many notLineEnd ∈ globToRegExp glob := by
  induction glob using glob_induction with
  | nil => exact absurd (List.infix_nil.mp h) (List.cons_ne_nil _ _)
  | letter c g hnot ih =>
    rw [globToRegExp_letter hnot]
    exact List.mem_cons_of_mem _ (ih ((List.infix_cons_iff.mp h).resolve_left hnot))
  | stars g ih =>
    rw [globToRegExp_stars]
    exact List.mem_cons_self

/-! ### A path that is matched but not meant -/

/-- Some word that a part stands for. -/
def Part.sample : Pattern.Part ℕ → List ℕ
  | .letter c => [c]
  | .one _ => ['x'.toNat]
  | _ => []

theorem IsGlobPart.denotes_sample {p : Pattern.Part ℕ} (h : IsGlobPart glob p) :
    p.Denotes (Part.sample p) := by
  rcases h with hc | - | - | -
  · rfl
  · exact ⟨_, by decide, rfl⟩
  · exact fun a ha ↦ absurd ha List.not_mem_nil
  · exact fun a ha ↦ absurd ha List.not_mem_nil

theorem IsGlobPart.sample_lt {p : Pattern.Part ℕ} (h : IsGlobPart glob p) {n : ℕ}
    (hx : 'x'.toNat < n) (hglob : ∀ c ∈ glob, c < n) : ∀ c ∈ Part.sample p, c < n := by
  rcases h with hc | - | - | -
  · exact List.forall_mem_singleton.mpr (hglob _ hc)
  · exact List.forall_mem_singleton.mpr hx
  · exact fun c hc ↦ absurd hc List.not_mem_nil
  · exact fun c hc ↦ absurd hc List.not_mem_nil

theorem forall₂_denotes_sample {ps : List (Pattern.Part ℕ)} (h : ∀ p ∈ ps, IsGlobPart glob p) :
    List.Forall₂ Pattern.Part.Denotes ps (ps.map Part.sample) := by
  rw [List.forall₂_map_right_iff, List.forall₂_same]
  exact fun p hp ↦ (h p hp).denotes_sample

/-- Two stars in a row take in as many slashes as there are. -/
theorem exists_accepts_slashes (h : [Policy.star, Policy.star] <:+: glob) (n : ℕ) {k : ℕ}
    (hx : 'x'.toNat < k)
    (hglob : ∀ c ∈ glob, c < k) : ∃ path : List ℕ,
      accepts (globToRegExp glob) path ∧ n ≤ path.count slash ∧ ∀ c ∈ path, c < k := by
  obtain ⟨ps, qs, heq⟩ := List.append_of_mem (many_mem_globToRegExp h)
  have hparts := isGlobPart_globToRegExp glob
  rw [heq, List.forall_mem_append, List.forall_mem_cons] at hparts
  obtain ⟨hps, -, hqs⟩ := hparts
  have hslash : slash < k := lt_trans (by decide) hx
  refine ⟨(ps.map Part.sample ++ List.replicate n slash :: qs.map Part.sample).flatten, ?_, ?_, ?_⟩
  · rw [heq]
    refine accepts_iff.mpr ⟨_, List.rel_append (forall₂_denotes_sample hps)
      (.cons (fun a ha ↦ ?_) (forall₂_denotes_sample hqs)), rfl⟩
    rw [List.eq_of_mem_replicate ha]
    decide
  · calc n = (List.replicate n slash).count slash := List.count_replicate_self.symm
      _ ≤ _ := ((List.sublist_flatten_of_mem
        (List.mem_append_right _ List.mem_cons_self)).count_le slash)
  · intro c hc
    obtain ⟨w, hw, hcw⟩ := List.mem_flatten.mp hc
    rcases List.mem_append.mp hw with hw | hw
    · obtain ⟨p, hp, rfl⟩ := List.mem_map.mp hw
      exact (hps p hp).sample_lt hx hglob c hcw
    · rcases List.mem_cons.mp hw with rfl | hw
      · exact List.eq_of_mem_replicate hcw ▸ hslash
      · obtain ⟨p, hp, rfl⟩ := List.mem_map.mp hw
        exact (hqs p hp).sample_lt hx hglob c hcw

theorem SegmentsMatch.length_eq (h : SegmentsMatch gs ws) (hgs : [Policy.star, Policy.star] ∉ gs) :
    ws.length = gs.length := by
  induction gs generalizing ws with
  | nil => rw [show ws = [] from h]
  | cons g gs ih =>
    rw [List.mem_cons, not_or] at hgs
    obtain ⟨w, vs, rfl, -, hvs⟩ := (segmentsMatch_cons_of_ne (Ne.symm hgs.1)).mp h
    rw [List.length_cons, List.length_cons, ih hvs hgs.2]

/-! ### A path that is meant but not matched -/

/-- Some segment that a segment of a glob stands for. -/
def sampleSegment (g : List ℕ) : List ℕ := g.flatMap fun c ↦ Part.sample (letterPart c)

theorem segmentMatches_sampleSegment (g : List ℕ) : SegmentMatches g (sampleSegment g) := by
  induction g with
  | nil => rfl
  | cons c g ih =>
    rw [sampleSegment, List.flatMap_cons, ← sampleSegment, SegmentMatches, letterPart]
    split_ifs
    · exact ⟨[], _, rfl, ih⟩
    · exact ⟨_, _, rfl, ih⟩
    · exact ⟨_, rfl, ih⟩

theorem slash_not_mem_sampleSegment {g : List ℕ} (h : slash ∉ g) : slash ∉ sampleSegment g := by
  rw [sampleSegment, List.mem_flatMap]
  rintro ⟨c, hc, hmem⟩
  exact slash_not_mem_of_denotes (fun heq ↦ h (heq ▸ hc))
    (isGlobPart_letterPart hc).denotes_sample hmem

theorem SegmentsMatch.append_sample (before : List (List ℕ)) (h : SegmentsMatch gs ws) :
    SegmentsMatch (before ++ gs) (before.map sampleSegment ++ ws) := by
  induction before with
  | nil => exact h
  | cons g before ih =>
    rw [List.cons_append, List.map_cons, List.cons_append, SegmentsMatch]
    split_ifs
    · exact ⟨[sampleSegment g], _, rfl, ih⟩
    · exact ⟨_, _, rfl, segmentMatches_sampleSegment g, ih⟩

def lineFeed : ℕ := 0x0A

/-- A part of a compiled glob takes in no more line feeds than stand between two slashes. -/
theorem IsGlobPart.count_lineFeed_le {p : Pattern.Part ℕ} (h : IsGlobPart glob p) (hw : p.Denotes w)
    {m : ℕ} (hm : 1 ≤ m) (hrun : slash ∉ w → w.count lineFeed ≤ m) : w.count lineFeed ≤ m := by
  rcases h with hc | - | - | -
  · obtain rfl := hw
    exact List.count_le_length.trans hm
  · obtain ⟨a, -, rfl⟩ := hw
    exact List.count_le_length.trans hm
  · exact hrun fun hmem ↦ absurd (hw slash hmem) (by decide)
  · have hnone : lineFeed ∉ w := fun hmem ↦ absurd (hw lineFeed hmem) (by decide)
    rw [List.count_eq_zero_of_not_mem hnone]
    exact Nat.zero_le m

theorem count_lineFeed_le {ps : List (Pattern.Part ℕ)} (hps : ∀ p ∈ ps, IsGlobPart glob p)
    (h : accepts ps path) {m : ℕ} (hm : 1 ≤ m)
    (hruns : ∀ w, w <:+: path → slash ∉ w → w.count lineFeed ≤ m) :
    path.count lineFeed ≤ ps.length * m := by
  obtain ⟨ws, hws, rfl⟩ := accepts_iff.mp h
  have hpieces : ∀ w ∈ ws, slash ∉ w → w.count lineFeed ≤ m := fun w hw ↦
    hruns w (List.infix_of_mem_flatten hw)
  clear h hruns
  induction hws with
  | nil => exact Nat.zero_le _
  | cons hw _ ih =>
    rw [List.forall_mem_cons] at hps hpieces
    rw [List.flatten_cons, List.count_append, List.length_cons, Nat.succ_mul, Nat.add_comm]
    exact Nat.add_le_add (ih hps.2 hpieces.2) (hps.1.count_lineFeed_le hw hm hpieces.1)

/-- A segment of two stars stands for more line feeds than the compiled glob takes in. -/
theorem exists_matchesBySegment_lineFeeds
    (h : [Policy.star, Policy.star] ∈ glob.splitOn slash) {k : ℕ} (hx : 'x'.toNat < k)
    (hglob : ∀ c ∈ glob, c < k) : ∃ path : List ℕ,
      MatchesBySegment glob path ∧ ¬ accepts (globToRegExp glob) path ∧ ∀ c ∈ path, c < k := by
  obtain ⟨before, after, hsplit⟩ := List.append_of_mem h
  have hfree : ∀ g ∈ before ++ after, slash ∉ g ∧ ∀ c ∈ g, c < k := fun g hg ↦ by
    have hin : g ∈ glob.splitOn slash := by
      rw [hsplit]
      exact (List.mem_append.mp hg).elim (List.mem_append_left _) fun hg ↦
        List.mem_append_right _ (List.mem_cons_of_mem _ hg)
    exact ⟨not_mem_of_mem_splitOn hin, fun c hc ↦ hglob c ((infix_of_mem_splitOn hin).subset hc)⟩
  -- No segment of the path has more line feeds than `m`, whatever `n` is.
  let m := ((before ++ after).map sampleSegment).flatten.length + 1
  let n := (globToRegExp glob).length * m + 1
  let segs := before.map sampleSegment ++
    (List.replicate n [lineFeed] ++ after.map sampleSegment)
  have hsegs : ∀ s ∈ segs, s = [lineFeed] ∨ ∃ g ∈ before ++ after, s = sampleSegment g := by
    intro s hs
    rcases List.mem_append.mp hs with hs | hs
    · obtain ⟨g, hg, rfl⟩ := List.mem_map.mp hs
      exact .inr ⟨g, List.mem_append_left _ hg, rfl⟩
    · rcases List.mem_append.mp hs with hs | hs
      · exact .inl (List.eq_of_mem_replicate hs)
      · obtain ⟨g, hg, rfl⟩ := List.mem_map.mp hs
        exact .inr ⟨g, List.mem_append_right _ hg, rfl⟩
  have hpieces : ([slash].intercalate segs).splitOn slash = segs := by
    refine List.splitOn_intercalate slash (fun s hs ↦ ?_) (by simp [segs, n, List.replicate_succ])
    rcases hsegs s hs with rfl | ⟨g, hg, rfl⟩
    · decide
    · exact slash_not_mem_sampleSegment (hfree g hg).1
  refine ⟨[slash].intercalate segs, ?_, fun haccepts ↦ ?_, fun c hc ↦ ?_⟩
  · rw [MatchesBySegment, hpieces, hsplit]
    refine SegmentsMatch.append_sample before ?_
    rw [SegmentsMatch, if_pos rfl]
    refine ⟨_, _, rfl, ?_⟩
    have := SegmentsMatch.append_sample after (show SegmentsMatch [] [] from rfl)
    rwa [List.append_nil, List.append_nil] at this
  · have hle := count_lineFeed_le (m := m) (isGlobPart_globToRegExp glob) haccepts
      (Nat.le_add_left 1 _) fun w hw hfree ↦ ?_
    · have hcount : n ≤ ([slash].intercalate segs).count lineFeed := by
        calc n = (List.replicate n lineFeed).count lineFeed := List.count_replicate_self.symm
          _ = (List.replicate n [lineFeed]).flatten.count lineFeed := by
            rw [List.flatten_replicate_singleton]
          _ ≤ segs.flatten.count lineFeed := by
            rw [List.flatten_append, List.flatten_append, List.count_append, List.count_append]
            omega
          _ ≤ _ := (flatten_sublist_intercalate segs).count_le lineFeed
      exact absurd (hcount.trans hle) (Nat.not_succ_le_self _)
    · rcases infix_of_infix_intercalate hfree hw with rfl | ⟨s, hs, hin⟩
      · exact Nat.zero_le m
      · refine (hin.sublist.count_le lineFeed).trans ?_
        rcases hsegs s hs with rfl | ⟨g, hg, rfl⟩
        · exact Nat.le_add_left 1 _
        · have hlen := (List.sublist_flatten_of_mem (List.mem_map_of_mem (f := sampleSegment)
            hg)).length_le
          exact (List.count_le_length.trans hlen).trans (Nat.le_succ _)
  · have hlt : ∀ {d : ℕ}, d ≤ 'x'.toNat → d < k := fun hd ↦ lt_of_le_of_lt hd hx
    rcases mem_intercalate hc with rfl | ⟨s, hs, hcs⟩
    · exact hlt (by decide)
    · rcases hsegs s hs with rfl | ⟨g, hg, rfl⟩
      · rw [List.mem_singleton.mp hcs]
        exact hlt (by decide)
      · obtain ⟨d, hd, hcd⟩ := List.mem_flatMap.mp hcs
        exact (isGlobPart_letterPart hd).sample_lt hx (hfree g hg).2 c hcd

end Stars

/-! ## Agreement -/

/-- A text of code units as the numbers the compiler works on. -/
def units (t : Utf16.Text) : List ℕ := t.map Fin.val

theorem exists_units {p : List ℕ} (h : ∀ c ∈ p, c < 65536) : ∃ t, units t = p := by
  refine ⟨p.pmap (fun c hc ↦ ⟨c, hc⟩) h, ?_⟩
  rw [units, List.map_pmap, List.pmap_eq_map]
  exact List.map_id p

theorem units_lt (t : Utf16.Text) : ∀ c ∈ units t, c < 65536 := by
  intro c hc
  obtain ⟨u, -, rfl⟩ := List.mem_map.mp hc
  exact u.isLt

/-- **When a glob of a hook means what it says.** Compiled, it matches the paths it matches segment
by segment, exactly if it has no two stars in a row. -/
theorem globToRegExp_agrees_iff (glob : Utf16.Text) :
    (∀ path : Utf16.Text, accepts (globToRegExp (units glob)) (units path) ↔
      MatchesBySegment (units glob) (units path)) ↔
        ¬ [Policy.star, Policy.star] <:+: units glob := by
  refine ⟨fun hagree hstars ↦ ?_, fun h path ↦ accepts_iff_matchesBySegment h⟩
  by_cases hseg : [Policy.star, Policy.star] ∈ (units glob).splitOn slash
  · obtain ⟨path, hmeant, hmatched, hlt⟩ :=
      exists_matchesBySegment_lineFeeds hseg (by decide) (units_lt glob)
    obtain ⟨t, rfl⟩ := exists_units hlt
    exact hmatched ((hagree t).mpr hmeant)
  · obtain ⟨path, hmatched, hcount, hlt⟩ := exists_accepts_slashes hstars
      ((units glob).count slash + 1) (by decide) (units_lt glob)
    obtain ⟨t, rfl⟩ := exists_units hlt
    have hlen := SegmentsMatch.length_eq ((hagree t).mp hmatched) hseg
    rw [length_splitOn, length_splitOn] at hlen
    omega

/-- The code units of `**/name` and of `xname`. -/
def starsName : Utf16.Text := [42, 42, 47, 110, 97, 109, 101]

def xname : Utf16.Text := [120, 110, 97, 109, 101]

/-- The name after `**/` need not start a segment: `**/name` matches `xname`. -/
theorem not_agrees_name : ¬ ∀ glob path : Utf16.Text,
    accepts (globToRegExp (units glob)) (units path) ↔
      MatchesBySegment (units glob) (units path) := by
  intro h
  have hmatched : accepts (globToRegExp (units starsName)) (units xname) = true := by decide
  have hmeant := (h _ _).mp hmatched
  have hglob : (units starsName).splitOn slash =
      [[Policy.star, Policy.star], [110, 97, 109, 101]] := by decide
  have hpath : (units xname).splitOn slash = [[120, 110, 97, 109, 101]] := by decide
  rw [MatchesBySegment, hglob, hpath, SegmentsMatch, if_pos rfl] at hmeant
  obtain ⟨us, vs, hsplit, hrest⟩ := hmeant
  obtain ⟨w, ws, rfl, hw, rfl⟩ := (segmentsMatch_cons_of_ne (by decide)).mp hrest
  obtain ⟨v, rfl, -⟩ := hw
  have hlast := congrArg List.getLast? hsplit
  rw [List.getLast?_append] at hlast
  cases hlast

end QwenHarness.Hooks
