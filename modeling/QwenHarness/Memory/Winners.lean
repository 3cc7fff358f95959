import QwenHarness.Codec.Delimited
import QwenHarness.Memory.Consolidation
import QwenHarness.Table.Newest
import Mathlib.Data.Finset.Dedup
import Mathlib.Data.Prod.Lex
import Mathlib.Order.OrderDual

/-!
# Who wins a consolidation

Two scans decide who wins a name. The first keeps one record for every body, the newest, and the
second one for the name. The second goes by a linear order on the records (`rank`), so the order
they come in makes no difference to it. The first goes by the time alone: of two copies that are
both the newest it keeps the one that comes first, although their paths would tell them apart.

So what is kept depends on the order in which the records come, if and only if the newest copy of
some memory is not alone (`consolidates_iff`).
-/

namespace QwenHarness.Memory

open Utf16

/-! ## The order of the records -/

/-- Newer before older, then longer before shorter, then the path that comes first. -/
def rank (r : MemoryRecord) : Millis ×ₗ ℕ ×ₗ Textᵒᵈ :=
  toLex (r.updatedAt, toLex ((normalizeBody r.memory.body).length, OrderDual.toDual r.path))

variable {a b r : MemoryRecord} {records records' group group' : List MemoryRecord}

theorem rank_le_iff : rank b ≤ rank a ↔
    b.updatedAt < a.updatedAt ∨ b.updatedAt = a.updatedAt ∧
      ((normalizeBody b.memory.body).length < (normalizeBody a.memory.body).length ∨
        (normalizeBody b.memory.body).length = (normalizeBody a.memory.body).length ∧
          a.path ≤ b.path) := by
  rw [rank, rank, Prod.Lex.toLex_le_toLex, Prod.Lex.toLex_le_toLex, OrderDual.toDual_le_toDual]

/-- The winner is the greater one. -/
theorem chooseWinner_iff (a b : MemoryRecord) : (chooseWinner a b).1 = true ↔ rank b ≤ rank a := by
  rw [rank_le_iff, chooseWinner]
  by_cases htime : a.updatedAt = b.updatedAt
  · rw [if_neg (not_not.mpr htime), htime]
    by_cases hlength : (normalizeBody a.memory.body).length = (normalizeBody b.memory.body).length
    · rw [if_neg (not_not.mpr hlength), hlength]
      simp
    · rw [if_pos hlength]
      simp [Ne.symm hlength]
  · rw [if_pos htime]
    simp [Ne.symm htime]

theorem path_eq_of_rank_eq (h : rank a = rank b) : a.path = b.path := by
  have hpair := congrArg (fun p ↦ (ofLex (ofLex p).2).2) h
  exact OrderDual.toDual_inj.mp hpair

/-! ## The second scan -/

theorem Resolution.meet_spec (res : Resolution) (variant : MemoryRecord) :
    rank res.winner ≤ rank (res.meet variant).winner ∧
      rank variant ≤ rank (res.meet variant).winner ∧
      ((res.meet variant).winner.path :: (res.meet variant).losers).Perm
        (variant.path :: res.winner.path :: res.losers) := by
  rw [Resolution.meet]
  by_cases h : (chooseWinner res.winner variant).1 = true
  · rw [if_pos h]
    refine ⟨le_rfl, (chooseWinner_iff _ _).mp h, ?_⟩
    have hlast : (res.losers ++ [variant.path]).Perm (variant.path :: res.losers) :=
      List.perm_append_singleton _ _
    exact (hlast.cons _).trans (List.Perm.swap _ _ _)
  · rw [if_neg h]
    refine ⟨(not_le.mp (mt (chooseWinner_iff _ _).mpr h)).le, le_rfl, ?_⟩
    exact (List.perm_append_singleton _ _).cons _

/-- **The second scan** ends with the greatest, and all the others have lost. -/
theorem foldl_meet_spec (variants : List MemoryRecord) (res : Resolution) :
    rank res.winner ≤ rank (variants.foldl Resolution.meet res).winner ∧
      (∀ v ∈ variants, rank v ≤ rank (variants.foldl Resolution.meet res).winner) ∧
      ((variants.foldl Resolution.meet res).winner.path ::
        (variants.foldl Resolution.meet res).losers).Perm
          (variants.map MemoryRecord.path ++ res.winner.path :: res.losers) := by
  induction variants generalizing res with
  | nil => exact ⟨le_rfl, fun _ hv ↦ absurd hv List.not_mem_nil, .refl _⟩
  | cons v vs ih =>
    obtain ⟨hwinner, hv, hperm⟩ := res.meet_spec v
    obtain ⟨hwinner', hvs, hperm'⟩ := ih (res.meet v)
    rw [List.foldl_cons]
    refine ⟨hwinner.trans hwinner', List.forall_mem_cons.mpr ⟨hv.trans hwinner', hvs⟩, ?_⟩
    refine hperm'.trans ((hperm.append_left _).trans ?_)
    rw [List.map_cons, List.cons_append]
    exact List.perm_middle

/-! ## The first scan -/

/-- The record is as new as every other copy of its memory. -/
def IsNewest (records : List MemoryRecord) (r : MemoryRecord) : Prop :=
  r ∈ records ∧ ∀ x ∈ records, dedupKey x.memory = dedupKey r.memory → x.updatedAt ≤ r.updatedAt

/-- **No two copies of a memory are both the newest.** -/
def NewestAlone (records : List MemoryRecord) : Prop :=
  ∀ a b, IsNewest records a → IsNewest records b →
    dedupKey a.memory = dedupKey b.memory → a = b

/-- What the first scan leaves of the records of a name. -/
def variants (group : List MemoryRecord) : List MemoryRecord := (distinct group).map Prod.snd

theorem lookup_distinct (key : Text) : (distinct group).lookup key =
    Keyed.newest MemoryRecord.updatedAt (fun r ↦ dedupKey r.memory = key) group := by
  rw [distinct, Assoc.lookup_fill, Keyed.newest, List.argmax]
  congr 1
  funext o r
  rcases o with - | existing
  · rfl
  · exact apply_ite some _ _ _

theorem mem_variants_iff : r ∈ variants group ↔
    Keyed.newest MemoryRecord.updatedAt (fun x ↦ dedupKey x.memory = dedupKey r.memory) group
      = some r := by
  have hnodup : ((distinct group).map Prod.fst).Nodup := Assoc.nodup_fill group
  rw [← lookup_distinct, ← Assoc.mem_iff_lookup hnodup]
  constructor
  · intro h
    obtain ⟨⟨key, x⟩, hmem, rfl⟩ := List.mem_map.mp h
    have hlook := (Assoc.mem_iff_lookup hnodup).mp hmem
    rw [lookup_distinct] at hlook
    have hkey : dedupKey x.memory = key := of_decide_eq_true (Keyed.mem_of_newest hlook).2
    rwa [hkey]
  · exact fun h ↦ List.mem_map.mpr ⟨_, h, rfl⟩

theorem isNewest_of_mem_variants (h : r ∈ variants group) : IsNewest group r := by
  have hnewest := mem_variants_iff.mp h
  refine ⟨(Keyed.mem_of_newest hnewest).1, fun x hx hkey ↦ ?_⟩
  exact Keyed.stamp_le_newest hnewest hx (decide_eq_true hkey)

/-- Every record of the group has a variant of its body. -/
theorem exists_variant (hr : r ∈ group) :
    ∃ v ∈ variants group, dedupKey v.memory = dedupKey r.memory := by
  have hsome : Keyed.newest MemoryRecord.updatedAt
      (fun x ↦ dedupKey x.memory = dedupKey r.memory) group ≠ none := by
    rw [Ne, Keyed.newest_eq_none_iff]
    intro hnone
    exact of_decide_eq_false (hnone r hr) rfl
  obtain ⟨v, hv⟩ := Option.ne_none_iff_exists'.mp hsome
  have hkey : dedupKey v.memory = dedupKey r.memory := of_decide_eq_true (Keyed.mem_of_newest hv).2
  refine ⟨v, mem_variants_iff.mpr ?_, hkey⟩
  rwa [hkey]

theorem nodup_variants (group : List MemoryRecord) : (variants group).Nodup := by
  refine List.Nodup.of_map (fun r ↦ dedupKey r.memory) ?_
  have hkeys : (variants group).map (fun r ↦ dedupKey r.memory)
      = (distinct group).map Prod.fst := by
    rw [variants, List.map_map]
    refine List.map_congr_left fun entry hentry ↦ ?_
    obtain ⟨key, x⟩ := entry
    have hlook := (Assoc.mem_iff_lookup (Assoc.nodup_fill group)).mp hentry
    rw [← distinct, lookup_distinct] at hlook
    exact of_decide_eq_true (Keyed.mem_of_newest hlook).2
  rw [hkeys]
  exact Assoc.nodup_fill group

/-- Of copies that are the newest together, the first is left. -/
theorem mem_variants_cons (h : IsNewest (r :: group) r) : r ∈ variants (r :: group) := by
  have hfilter : (r :: group).filter (fun x ↦ dedupKey x.memory = dedupKey r.memory)
      = r :: group.filter fun x ↦ dedupKey x.memory = dedupKey r.memory :=
    List.filter_cons_of_pos (decide_eq_true rfl)
  rw [mem_variants_iff, Keyed.newest, hfilter, List.argmax_cons]
  cases hrest : (group.filter fun x ↦ dedupKey x.memory = dedupKey r.memory).argmax
      MemoryRecord.updatedAt with
  | none => rfl
  | some c =>
    obtain ⟨hc, hkey⟩ := List.mem_filter.mp (List.argmax_mem hrest)
    have hle := h.2 c (List.mem_cons_of_mem r hc) (of_decide_eq_true hkey)
    exact if_neg hle.not_gt

/-! ## Names -/

theorem mem_name_of_mem {name : Text} (h : r ∈ records.filter fun x ↦ x.memory.name = name) :
    r ∈ records ∧ r.memory.name = name := by
  obtain ⟨hr, hname⟩ := List.mem_filter.mp h
  exact ⟨hr, of_decide_eq_true hname⟩

/-- The separator is in no name, so the key of a memory tells its name and its body. -/
theorem dedupKey_inj {m m' : Memory} (h : dedupKey m = dedupKey m') :
    m.name = m'.name ∧ normalizeBody m.body = normalizeBody m'.body := by
  have hname (f : MemoryFrontmatter) : ∀ u ∈ f.name, u ≠ 0 := by
    rintro u hu rfl
    rcases f.unit_of_mem_name hu with h | h | h <;> exact absurd h (by decide)
  rw [dedupKey, dedupKey, List.append_assoc, List.append_assoc] at h
  have hzero (body : Text) : ∀ u ∈ (([0] : Text) ++ normalizeBody body).head?, ¬ u ≠ 0 := by
    intro u hu hne
    exact hne (Option.some.inj hu).symm
  obtain ⟨hsame, hrest⟩ := Codec.append_inj_of_forall (p := fun u ↦ u ≠ 0) (hname _) (hname _)
    (hzero _) (hzero _) h
  exact ⟨hsame, (List.cons_eq_cons.mp hrest).2⟩

theorem foldl_group (group old : List MemoryRecord) :
    group.foldl (fun o r ↦ some (o.getD [] ++ [r])) (some old) = some (old ++ group) := by
  induction group generalizing old with
  | nil => rw [List.append_nil]; rfl
  | cons r group ih =>
    rw [List.foldl_cons, Option.getD_some, ih, List.append_assoc, List.singleton_append]

theorem lookup_byName (records : List MemoryRecord) (name : Text) :
    (byName records).lookup name =
      if (records.filter fun r ↦ r.memory.name = name) = [] then none
      else some (records.filter fun r ↦ r.memory.name = name) := by
  rw [byName, Assoc.lookup_fill]
  cases records.filter fun r ↦ r.memory.name = name with
  | nil => rfl
  | cons r group =>
    rw [if_neg (List.cons_ne_nil _ _), List.foldl_cons, Option.getD_none, List.nil_append,
      foldl_group, List.singleton_append]

/-- **The resolutions**, one for each name, of the records of that name. -/
theorem mem_resolved_iff {name : Text} {res : Resolution} : (name, res) ∈ resolved records ↔
    resolve (records.filter fun r ↦ r.memory.name = name) = some res := by
  constructor
  · intro h
    obtain ⟨⟨n, group⟩, hgroup, heq⟩ := List.mem_filterMap.mp h
    obtain ⟨r, hr, hpair⟩ := Option.map_eq_some_iff.mp heq
    obtain ⟨rfl, rfl⟩ := Prod.mk.inj hpair
    have hlook := (Assoc.mem_iff_lookup (Assoc.nodup_fill records)).mp hgroup
    rw [← byName, lookup_byName] at hlook
    split at hlook
    · cases hlook
    · rwa [Option.some.inj hlook]
  · intro h
    have hne : (records.filter fun r ↦ r.memory.name = name) ≠ [] := by
      intro hnil
      rw [hnil] at h
      cases h
    have hlook := lookup_byName records name
    rw [if_neg hne] at hlook
    have hmem := (Assoc.mem_iff_lookup (Assoc.nodup_fill records)).mpr hlook
    exact List.mem_filterMap.mpr ⟨_, hmem, Option.map_eq_some_iff.mpr ⟨res, h, rfl⟩⟩

/-! ## Who wins -/

/-- The record is the greatest of its name. -/
def Greatest (records : List MemoryRecord) (w : MemoryRecord) : Prop :=
  w ∈ records ∧ ∀ x ∈ records, x.memory.name = w.memory.name → rank x ≤ rank w

theorem resolve_spec {res : Resolution} (h : resolve group = some res) :
    res.winner ∈ variants group ∧ (∀ v ∈ variants group, rank v ≤ rank res.winner) ∧
      (res.winner.path :: res.losers).Perm ((variants group).map MemoryRecord.path) := by
  rw [resolve, ← variants] at h
  split at h
  · cases h
  · next first others heq =>
    cases h
    obtain ⟨hfirst, hothers, hperm⟩ := foldl_meet_spec others ⟨first, [], .newer⟩
    rw [heq]
    refine ⟨?_, List.forall_mem_cons.mpr ⟨hfirst, hothers⟩, ?_⟩
    · rcases winner_foldl_meet others ⟨first, [], .newer⟩ with hw | hw
      · rw [hw]
        exact List.mem_cons_self
      · exact List.mem_cons_of_mem _ hw
    · exact hperm.trans (List.perm_append_singleton _ _)

theorem exists_resolve (hr : r ∈ group) : ∃ res, resolve group = some res := by
  obtain ⟨v, hv, -⟩ := exists_variant hr
  rw [resolve, ← variants]
  split
  · next hnil =>
    rw [hnil] at hv
    exact absurd hv List.not_mem_nil
  · exact ⟨_, rfl⟩

section Alone

theorem IsNewest.of_perm (hperm : group'.Perm group) (h : IsNewest group r) : IsNewest group' r :=
  ⟨hperm.mem_iff.mpr h.1, fun x hx ↦ h.2 x (hperm.mem_iff.mp hx)⟩

theorem NewestAlone.of_perm (hperm : group'.Perm group) (h : NewestAlone group) :
    NewestAlone group' :=
  fun a b ha hb ↦ h a b (ha.of_perm hperm.symm) (hb.of_perm hperm.symm)

/-- What is the newest of the records of a name is the newest of all. -/
theorem NewestAlone.filter (h : NewestAlone records) (name : Text) :
    NewestAlone (records.filter fun r ↦ r.memory.name = name) := by
  have hall : ∀ r, IsNewest (records.filter fun r ↦ r.memory.name = name) r →
      IsNewest records r := by
    intro r hr
    obtain ⟨hmem, hname⟩ := mem_name_of_mem hr.1
    refine ⟨hmem, fun x hx hkey ↦ hr.2 x (List.mem_filter.mpr ⟨hx, ?_⟩) hkey⟩
    exact decide_eq_true ((dedupKey_inj hkey).1.trans hname)
  exact fun a b ha hb ↦ h a b (hall a ha) (hall b hb)

variable (halone : NewestAlone group)

include halone

/-- If the newest copies are alone, they are the variants. -/
theorem mem_variants_iff_isNewest : r ∈ variants group ↔ IsNewest group r := by
  refine ⟨isNewest_of_mem_variants, fun h ↦ ?_⟩
  obtain ⟨v, hv, hkey⟩ := exists_variant h.1
  rwa [halone r v h (isNewest_of_mem_variants hv) hkey.symm]

theorem variants_perm (hperm : group'.Perm group) : (variants group').Perm (variants group) := by
  rw [List.perm_ext_iff_of_nodup (nodup_variants group') (nodup_variants group)]
  intro r
  rw [mem_variants_iff_isNewest halone, mem_variants_iff_isNewest (halone.of_perm hperm)]
  exact ⟨IsNewest.of_perm hperm.symm, IsNewest.of_perm hperm⟩

/-- The winner is the greatest of the whole group. -/
theorem rank_le_winner {res : Resolution} (h : resolve group = some res) (hr : r ∈ group) :
    rank r ≤ rank res.winner := by
  obtain ⟨v, hv, hkey⟩ := exists_variant hr
  have hnewest := isNewest_of_mem_variants hv
  refine le_trans ?_ ((resolve_spec h).2.1 v hv)
  rcases (hnewest.2 r hr hkey.symm).lt_or_eq with hlt | heq
  · exact rank_le_iff.mpr (.inl hlt)
  · have hr' : IsNewest group r := by
      refine ⟨hr, fun x hx hx' ↦ ?_⟩
      rw [heq]
      exact hnewest.2 x hx (hx'.trans hkey.symm)
    rw [halone r v hr' hnewest hkey.symm]

end Alone

/-- **The order of a group does not matter** if its newest copies are alone. -/
theorem resolve_perm (halone : NewestAlone group) (hpaths : (group.map MemoryRecord.path).Nodup)
    (hperm : group'.Perm group) {res res' : Resolution} (h : resolve group = some res)
    (h' : resolve group' = some res') :
    res'.winner = res.winner ∧ res'.losers.Perm res.losers := by
  have hmem : ∀ {g : List MemoryRecord} {x : Resolution}, resolve g = some x → x.winner ∈ g :=
    fun hx ↦ winner_mem hx
  have hle : rank res.winner ≤ rank res'.winner :=
    rank_le_winner (halone.of_perm hperm) h' (hperm.mem_iff.mpr (hmem h))
  have hge : rank res'.winner ≤ rank res.winner :=
    rank_le_winner halone h (hperm.mem_iff.mp (hmem h'))
  have hwinner : res'.winner = res.winner :=
    List.inj_on_of_nodup_map hpaths (hperm.mem_iff.mp (hmem h')) (hmem h)
      (path_eq_of_rank_eq (le_antisymm hge hle))
  refine ⟨hwinner, ?_⟩
  have hpath := (resolve_spec h').2.2.trans
    (((variants_perm halone hperm).map MemoryRecord.path).trans (resolve_spec h).2.2.symm)
  rw [hwinner] at hpath
  exact hpath.cons_inv

/-! ## The plan -/

variable {staleBefore : Option Millis}

/-- Two lists in the strict order of a key are equal if they have the same members. -/
theorem eq_of_pairwise_lt {α κ : Type} [Preorder κ] {key : α → κ} {l l' : List α}
    (hl : l.Pairwise fun a b ↦ key a < key b) (hl' : l'.Pairwise fun a b ↦ key a < key b)
    (hmem : ∀ x, x ∈ l ↔ x ∈ l') : l = l' := by
  have hne : ∀ {a b : α}, key a < key b → a ≠ b := by
    rintro a b hlt rfl
    exact lt_irrefl _ hlt
  have hperm := (List.perm_ext_iff_of_nodup (hl.imp hne) (hl'.imp hne)).mpr hmem
  exact hperm.eq_of_pairwise (fun a b _ _ hab hba ↦ absurd hab hba.not_gt) hl hl'

theorem mem_kept_iff : r ∈ (consolidateMemories records staleBefore).kept ↔
    ∃ entry ∈ resolved records, entry.2.winner = r ∧ isRetired staleBefore r = false := by
  refine ⟨mem_kept, ?_⟩
  rintro ⟨entry, hentry, rfl, hstale⟩
  refine (List.mem_insertionSort _).mpr (List.mem_map.mpr ⟨entry, ?_, rfl⟩)
  exact List.mem_filter.mpr ⟨hentry, by rw [hstale]; rfl⟩

theorem mem_retired_iff {old : RetiredMemory} :
    old ∈ (consolidateMemories records staleBefore).retired ↔
      ∃ entry ∈ resolved records, isRetired staleBefore entry.2.winner = true ∧
        old = ⟨entry.1, entry.2.winner.path, entry.2.winner.updatedAt⟩ := by
  refine (List.mem_insertionSort _).trans (List.mem_map.trans ?_)
  constructor
  · rintro ⟨entry, hentry, rfl⟩
    obtain ⟨hmem, hstale⟩ := List.mem_filter.mp hentry
    exact ⟨entry, hmem, hstale, rfl⟩
  · rintro ⟨entry, hmem, hstale, rfl⟩
    exact ⟨entry, List.mem_filter.mpr ⟨hmem, hstale⟩, rfl⟩

/-- A conflict, but for the order its losers are listed in and why its winner won. -/
def MemoryConflict.outcome (c : MemoryConflict) : Text × Text × Finset Text :=
  (c.name, c.winner, c.losers.toFinset)

theorem mem_conflicts_iff {c : MemoryConflict} :
    c ∈ (consolidateMemories records staleBefore).conflicts ↔
      ∃ entry ∈ resolved records, entry.2.losers ≠ [] ∧
        c = ⟨entry.1, entry.2.winner.path, entry.2.losers, entry.2.resolvedBy⟩ := by
  refine (List.mem_insertionSort _).trans (List.mem_map.trans ?_)
  constructor
  · rintro ⟨entry, hentry, rfl⟩
    obtain ⟨hmem, hlosers⟩ := List.mem_filter.mp hentry
    refine ⟨entry, hmem, fun hnil ↦ ?_, rfl⟩
    rw [hnil] at hlosers
    cases hlosers
  · rintro ⟨entry, hmem, hlosers, rfl⟩
    refine ⟨entry, List.mem_filter.mpr ⟨hmem, ?_⟩, rfl⟩
    rwa [Bool.not_eq_true', List.isEmpty_eq_false_iff]

/-- What a consolidation is to do with the records, in whatever order they come. -/
structure Consolidates (records : List MemoryRecord) (staleBefore : Option Millis) : Prop where
  /-- Another order of the records makes no difference. -/
  order : ∀ records', records'.Perm records →
    (consolidateMemories records' staleBefore).kept
        = (consolidateMemories records staleBefore).kept ∧
      (consolidateMemories records' staleBefore).retired
        = (consolidateMemories records staleBefore).retired ∧
      (consolidateMemories records' staleBefore).conflicts.map MemoryConflict.outcome
        = (consolidateMemories records staleBefore).conflicts.map MemoryConflict.outcome
  /-- Every name is kept or retired, once. -/
  names : ((consolidateMemories records staleBefore).kept.map (fun r ↦ r.memory.name) ++
    (consolidateMemories records staleBefore).retired.map RetiredMemory.name).Perm
      (records.map fun r ↦ r.memory.name).dedup
  kept : ∀ w ∈ (consolidateMemories records staleBefore).kept, Greatest records w
  retired : ∀ old ∈ (consolidateMemories records staleBefore).retired,
    ∃ w, Greatest records w ∧ old = ⟨w.memory.name, w.path, w.updatedAt⟩
  conflicts : ∀ c ∈ (consolidateMemories records staleBefore).conflicts,
    ∃ w, Greatest records w ∧ c.name = w.memory.name ∧ c.winner = w.path
  /-- What is kept is kept again. -/
  again : consolidateMemories (consolidateMemories records staleBefore).kept staleBefore
    = ⟨(consolidateMemories records staleBefore).kept, [], []⟩

theorem resolved_perm (halone : NewestAlone records)
    (hpaths : (records.map MemoryRecord.path).Nodup) (hperm : records'.Perm records)
    {entry : Text × Resolution} (h : entry ∈ resolved records') :
    ∃ res, (entry.1, res) ∈ resolved records ∧ entry.2.winner = res.winner ∧
      entry.2.losers.Perm res.losers := by
  obtain ⟨name, res'⟩ := entry
  have hgroup := hperm.filter fun r ↦ r.memory.name = name
  have hres' := mem_resolved_iff.mp h
  obtain ⟨res, hres⟩ := exists_resolve (hgroup.mem_iff.mp (winner_mem hres'))
  refine ⟨res, mem_resolved_iff.mpr hres, ?_⟩
  have hsub := (List.filter_sublist (p := fun r ↦ r.memory.name = name) (l := records)).map
    MemoryRecord.path
  exact resolve_perm (halone.filter name) (hsub.nodup hpaths) hgroup hres hres'

/-! ## The order of the records -/

theorem pairwise_retired (records : List MemoryRecord) (staleBefore : Option Millis) :
    (consolidateMemories records staleBefore).retired.Pairwise fun a b ↦ a.name < b.name :=
  pairwise_sorted (n := RetiredMemory.name)
    (f := fun e ↦ ⟨e.1, e.2.winner.path, e.2.winner.updatedAt⟩) (fun _ _ ↦ rfl) _

theorem pairwise_outcomes (records : List MemoryRecord) (staleBefore : Option Millis) :
    ((consolidateMemories records staleBefore).conflicts.map MemoryConflict.outcome).Pairwise
      fun a b ↦ a.1 < b.1 :=
  List.pairwise_map.mpr (pairwise_sorted (n := MemoryConflict.name)
    (f := fun e ↦ ⟨e.1, e.2.winner.path, e.2.losers, e.2.resolvedBy⟩) (fun _ _ ↦ rfl) _)

section Perm

variable (halone : NewestAlone records) (hpaths : (records.map MemoryRecord.path).Nodup)
  (hperm : records'.Perm records)

include halone hpaths hperm

theorem kept_subset_of_perm : (consolidateMemories records' staleBefore).kept ⊆
    (consolidateMemories records staleBefore).kept := by
  intro r hr
  obtain ⟨entry, hentry, rfl, hstale⟩ := mem_kept_iff.mp hr
  obtain ⟨res, hres, hwinner, -⟩ := resolved_perm halone hpaths hperm hentry
  exact mem_kept_iff.mpr ⟨_, hres, hwinner.symm, hstale⟩

theorem retired_subset_of_perm : (consolidateMemories records' staleBefore).retired ⊆
    (consolidateMemories records staleBefore).retired := by
  intro old hold
  obtain ⟨entry, hentry, hstale, rfl⟩ := mem_retired_iff.mp hold
  obtain ⟨res, hres, hwinner, -⟩ := resolved_perm halone hpaths hperm hentry
  rw [hwinner] at hstale ⊢
  exact mem_retired_iff.mpr ⟨_, hres, hstale, rfl⟩

theorem outcomes_subset_of_perm :
    (consolidateMemories records' staleBefore).conflicts.map MemoryConflict.outcome ⊆
      (consolidateMemories records staleBefore).conflicts.map MemoryConflict.outcome := by
  intro o ho
  obtain ⟨c, hc, rfl⟩ := List.mem_map.mp ho
  obtain ⟨entry, hentry, hlosers, rfl⟩ := mem_conflicts_iff.mp hc
  obtain ⟨res, hres, hwinner, hperm'⟩ := resolved_perm halone hpaths hperm hentry
  refine List.mem_map.mpr ⟨⟨entry.1, res.winner.path, res.losers, res.resolvedBy⟩, ?_, ?_⟩
  · refine mem_conflicts_iff.mpr ⟨_, hres, fun hnil ↦ hlosers ?_, rfl⟩
    change res.losers = [] at hnil
    rwa [hnil, List.perm_nil] at hperm'
  · change (entry.1, res.winner.path, res.losers.toFinset)
      = (entry.1, entry.2.winner.path, entry.2.losers.toFinset)
    rw [hwinner, List.toFinset_eq_of_perm _ _ hperm']

end Perm

/-- **If the newest copies are alone**, the records may come in any order. -/
theorem order_of_newestAlone (halone : NewestAlone records)
    (hpaths : (records.map MemoryRecord.path).Nodup) (hperm : records'.Perm records) :
    (consolidateMemories records' staleBefore).kept
        = (consolidateMemories records staleBefore).kept ∧
      (consolidateMemories records' staleBefore).retired
        = (consolidateMemories records staleBefore).retired ∧
      (consolidateMemories records' staleBefore).conflicts.map MemoryConflict.outcome
        = (consolidateMemories records staleBefore).conflicts.map MemoryConflict.outcome := by
  have halone' := halone.of_perm hperm
  have hpaths' : (records'.map MemoryRecord.path).Nodup :=
    (hperm.map MemoryRecord.path).nodup_iff.mpr hpaths
  refine ⟨?_, ?_, ?_⟩
  · refine eq_of_pairwise_lt (pairwise_kept _ _) (pairwise_kept _ _) fun r ↦ ?_
    exact ⟨fun h ↦ kept_subset_of_perm halone hpaths hperm h,
      fun h ↦ kept_subset_of_perm halone' hpaths' hperm.symm h⟩
  · refine eq_of_pairwise_lt (pairwise_retired _ _) (pairwise_retired _ _) fun r ↦ ?_
    exact ⟨fun h ↦ retired_subset_of_perm halone hpaths hperm h,
      fun h ↦ retired_subset_of_perm halone' hpaths' hperm.symm h⟩
  · refine eq_of_pairwise_lt (pairwise_outcomes _ _) (pairwise_outcomes _ _) fun r ↦ ?_
    exact ⟨fun h ↦ outcomes_subset_of_perm halone hpaths hperm h,
      fun h ↦ outcomes_subset_of_perm halone' hpaths' hperm.symm h⟩

/-! ## What every consolidation does -/

/-- Every name of a record has one resolution. -/
theorem names_perm (records : List MemoryRecord) (staleBefore : Option Millis) :
    ((consolidateMemories records staleBefore).kept.map (fun r ↦ r.memory.name) ++
      (consolidateMemories records staleBefore).retired.map RetiredMemory.name).Perm
        (records.map fun r ↦ r.memory.name).dedup := by
  have hkept : ((consolidateMemories records staleBefore).kept.map fun r ↦ r.memory.name).Perm
      (((resolved records).filter fun e ↦ !isRetired staleBefore e.2.winner).map Prod.fst) := by
    refine ((List.perm_insertionSort _ _).map _).trans (.of_eq ?_)
    rw [List.map_map]
    exact List.map_congr_left fun entry h ↦ (mem_resolved (List.mem_filter.mp h).1).2
  have hretired : ((consolidateMemories records staleBefore).retired.map RetiredMemory.name).Perm
      (((resolved records).filter fun e ↦ isRetired staleBefore e.2.winner).map Prod.fst) := by
    refine ((List.perm_insertionSort _ _).map _).trans (.of_eq ?_)
    rw [List.map_map]
    rfl
  have hall : ((resolved records).map Prod.fst).Perm
      (records.map fun r ↦ r.memory.name).dedup := by
    rw [List.perm_ext_iff_of_nodup (nodup_resolved records) (List.nodup_dedup _)]
    intro name
    rw [List.mem_dedup]
    constructor
    · intro h
      obtain ⟨entry, hentry, rfl⟩ := List.mem_map.mp h
      obtain ⟨hmem, hname⟩ := mem_resolved hentry
      exact List.mem_map.mpr ⟨_, hmem, hname⟩
    · intro h
      obtain ⟨r, hr, rfl⟩ := List.mem_map.mp h
      have hgroup : r ∈ records.filter fun x ↦ x.memory.name = r.memory.name :=
        List.mem_filter.mpr ⟨hr, decide_eq_true rfl⟩
      obtain ⟨res, hres⟩ := exists_resolve hgroup
      exact List.mem_map.mpr ⟨(r.memory.name, res), mem_resolved_iff.mpr hres, rfl⟩
  have hsplit := (List.filter_append_perm (fun e ↦ isRetired staleBefore e.2.winner)
    (resolved records)).map Prod.fst
  rw [List.map_append] at hsplit
  exact ((hkept.append hretired).trans List.perm_append_comm).trans (hsplit.trans hall)

theorem resolve_singleton (r : MemoryRecord) : resolve [r] = some ⟨r, [], .newer⟩ := by
  have hone : distinct [r] = [(dedupKey r.memory, r)] := by
    rw [distinct, Assoc.fill, List.foldl_cons, Assoc.alter, List.foldl_nil]
  rw [resolve, hone]
  rfl

/-- Of records with different names, each is its own resolution. -/
theorem mem_resolved_of_pairwise
    (hnames : records.Pairwise fun a b ↦ a.memory.name < b.memory.name)
    {e : Text × Resolution} : e ∈ resolved records ↔
      ∃ r ∈ records, e = (r.memory.name, ⟨r, [], .newer⟩) := by
  have hone : ∀ r ∈ records, (records.filter fun x ↦ x.memory.name = r.memory.name) = [r] := by
    intro r hr
    have hnodup : (records.map fun r ↦ r.memory.name).Nodup :=
      List.pairwise_map.mpr (hnames.imp fun hlt ↦ ne_of_lt hlt)
    refine List.perm_singleton.mp ?_
    rw [List.perm_ext_iff_of_nodup (hnodup.of_map.filter _) (List.nodup_singleton r)]
    intro x
    rw [List.mem_singleton]
    constructor
    · intro h
      obtain ⟨hx, hname⟩ := mem_name_of_mem h
      exact List.inj_on_of_nodup_map hnodup hx hr hname
    · rintro rfl
      exact List.mem_filter.mpr ⟨hr, decide_eq_true rfl⟩
  obtain ⟨name, res⟩ := e
  rw [mem_resolved_iff]
  constructor
  · intro h
    obtain ⟨hmem, hname⟩ := mem_name_of_mem (winner_mem h)
    rw [← hname, hone _ hmem, resolve_singleton, Option.some_inj] at h
    refine ⟨res.winner, hmem, ?_⟩
    rw [hname, ← h]
  · rintro ⟨r, hr, heq⟩
    obtain ⟨rfl, rfl⟩ := Prod.mk.inj heq
    rw [hone r hr, resolve_singleton]

/-- **What is kept is kept again**, and nothing else is said about it. -/
theorem consolidate_kept (records : List MemoryRecord) (staleBefore : Option Millis) :
    consolidateMemories (consolidateMemories records staleBefore).kept staleBefore
      = ⟨(consolidateMemories records staleBefore).kept, [], []⟩ := by
  have hresolved {entry : Text × Resolution} :=
    mem_resolved_of_pairwise (pairwise_kept records staleBefore) (e := entry)
  have hkept : (consolidateMemories (consolidateMemories records staleBefore).kept staleBefore).kept
      = (consolidateMemories records staleBefore).kept := by
    refine eq_of_pairwise_lt (pairwise_kept _ _) (pairwise_kept _ _) fun r ↦ ?_
    rw [mem_kept_iff]
    constructor
    · rintro ⟨entry, hentry, rfl, -⟩
      obtain ⟨r, hr, rfl⟩ := hresolved.mp hentry
      exact hr
    · intro hr
      obtain ⟨-, -, -, hstale⟩ := mem_kept_iff.mp hr
      exact ⟨_, hresolved.mpr ⟨r, hr, rfl⟩, rfl, hstale⟩
  have hretired :
      (consolidateMemories (consolidateMemories records staleBefore).kept staleBefore).retired
        = [] := by
    refine List.eq_nil_iff_forall_not_mem.mpr fun old hold ↦ ?_
    obtain ⟨entry, hentry, hstale, -⟩ := mem_retired_iff.mp hold
    obtain ⟨r, hr, rfl⟩ := hresolved.mp hentry
    obtain ⟨-, -, -, hfresh⟩ := mem_kept_iff.mp hr
    exact Bool.noConfusion (hstale.symm.trans hfresh)
  have hconflicts :
      (consolidateMemories (consolidateMemories records staleBefore).kept staleBefore).conflicts
        = [] := by
    refine List.eq_nil_iff_forall_not_mem.mpr fun c hc ↦ ?_
    obtain ⟨entry, hentry, hlosers, -⟩ := mem_conflicts_iff.mp hc
    obtain ⟨r, -, rfl⟩ := hresolved.mp hentry
    exact hlosers rfl
  calc consolidateMemories (consolidateMemories records staleBefore).kept staleBefore
      = ⟨(consolidateMemories (consolidateMemories records staleBefore).kept staleBefore).kept,
          (consolidateMemories (consolidateMemories records staleBefore).kept
            staleBefore).conflicts,
          (consolidateMemories (consolidateMemories records staleBefore).kept
            staleBefore).retired⟩ := rfl
    _ = _ := by rw [hconflicts, hretired, hkept]

/-! ## What the plan decides -/

/-- The plan keeps the file, retires it, or has it lose against another. -/
def Decided (plan : ConsolidationPlan) (path : Text) : Prop :=
  path ∈ plan.kept.map MemoryRecord.path ∨ path ∈ plan.retired.map RetiredMemory.path ∨
    ∃ o ∈ plan.conflicts.map MemoryConflict.outcome, path ∈ o.2.2

theorem mem_paths_iff {name path : Text} {res : Resolution}
    (h : resolve (records.filter fun r ↦ r.memory.name = name) = some res) :
    path = res.winner.path ∨ path ∈ res.losers ↔
      ∃ v ∈ variants (records.filter fun r ↦ r.memory.name = name), v.path = path := by
  rw [← List.mem_cons, (resolve_spec h).2.2.mem_iff, List.mem_map]

/-- **What is decided about** are the files that the first scan leaves. -/
theorem decided_iff {path : Text} : Decided (consolidateMemories records staleBefore) path ↔
    ∃ name, ∃ v ∈ variants (records.filter fun r ↦ r.memory.name = name), v.path = path := by
  constructor
  · rintro (h | h | ⟨o, ho, hpath⟩)
    · obtain ⟨r, hr, rfl⟩ := List.mem_map.mp h
      obtain ⟨⟨name, res⟩, hentry, rfl, -⟩ := mem_kept_iff.mp hr
      exact ⟨name, (mem_paths_iff (mem_resolved_iff.mp hentry)).mp (.inl rfl)⟩
    · obtain ⟨old, hold, rfl⟩ := List.mem_map.mp h
      obtain ⟨⟨name, res⟩, hentry, -, rfl⟩ := mem_retired_iff.mp hold
      exact ⟨name, (mem_paths_iff (mem_resolved_iff.mp hentry)).mp (.inl rfl)⟩
    · obtain ⟨c, hc, rfl⟩ := List.mem_map.mp ho
      obtain ⟨⟨name, res⟩, hentry, -, rfl⟩ := mem_conflicts_iff.mp hc
      exact ⟨name, (mem_paths_iff (mem_resolved_iff.mp hentry)).mp
        (.inr (List.mem_toFinset.mp hpath))⟩
  · rintro ⟨name, v, hv, rfl⟩
    obtain ⟨res, hres⟩ := exists_resolve (isNewest_of_mem_variants hv).1
    have hentry : (name, res) ∈ resolved records := mem_resolved_iff.mpr hres
    rcases (mem_paths_iff hres).mpr ⟨v, hv, rfl⟩ with hwinner | hloser
    · rw [hwinner]
      cases hstale : isRetired staleBefore res.winner with
      | false =>
        exact .inl (List.mem_map.mpr ⟨_, mem_kept_iff.mpr ⟨_, hentry, rfl, hstale⟩, rfl⟩)
      | true =>
        exact .inr (.inl (List.mem_map.mpr
          ⟨_, mem_retired_iff.mpr ⟨_, hentry, hstale, rfl⟩, rfl⟩))
    · refine .inr (.inr ⟨_, List.mem_map.mpr ⟨_, mem_conflicts_iff.mpr
        ⟨_, hentry, List.ne_nil_of_mem hloser, rfl⟩, rfl⟩, ?_⟩)
      exact List.mem_toFinset.mpr hloser

/-- A newest copy is decided about if it comes first. -/
theorem decided_cons (h : IsNewest (r :: records) r) :
    Decided (consolidateMemories (r :: records) staleBefore) r.path := by
  refine decided_iff.mpr ⟨r.memory.name, r, ?_, rfl⟩
  have hfilter : ((r :: records).filter fun x ↦ x.memory.name = r.memory.name)
      = r :: records.filter fun x ↦ x.memory.name = r.memory.name :=
    List.filter_cons_of_pos (decide_eq_true rfl)
  rw [hfilter]
  refine mem_variants_cons ⟨List.mem_cons_self, fun x hx hkey ↦ h.2 x ?_ hkey⟩
  rcases List.mem_cons.mp hx with rfl | hx
  · exact List.mem_cons_self
  · exact List.mem_cons_of_mem _ (mem_name_of_mem hx).1

/-- If the order does not matter, the newest copies are alone: each of two could come first. -/
theorem newestAlone_of_order (hpaths : (records.map MemoryRecord.path).Nodup)
    (h : Consolidates records staleBefore) : NewestAlone records := by
  have hvariant : ∀ r, IsNewest records r →
      r ∈ variants (records.filter fun x ↦ x.memory.name = r.memory.name) := by
    intro r hr
    have hperm : (r :: records.erase r).Perm records := (List.perm_cons_erase hr.1).symm
    obtain ⟨hkept, hretired, hconflicts⟩ := h.order _ hperm
    have hdecided : Decided (consolidateMemories (r :: records.erase r) staleBefore) r.path :=
      decided_cons (hr.of_perm hperm)
    rw [Decided, hkept, hretired, hconflicts, ← Decided, decided_iff] at hdecided
    obtain ⟨name, v, hv, hpath⟩ := hdecided
    obtain ⟨hmem, hname⟩ := mem_name_of_mem (isNewest_of_mem_variants hv).1
    have hsame : v = r := List.inj_on_of_nodup_map hpaths hmem hr.1 hpath
    rw [hsame] at hv hname
    rwa [hname]
  intro a b ha hb hkey
  have hleft := mem_variants_iff.mp (hvariant a ha)
  have hright := mem_variants_iff.mp (hvariant b hb)
  rw [hkey, (dedupKey_inj hkey).1] at hleft
  exact Option.some.inj (hleft.symm.trans hright)

/-! ## When the order does not matter -/

theorem greatest_of_mem_resolved (halone : NewestAlone records) {entry : Text × Resolution}
    (h : entry ∈ resolved records) :
    Greatest records entry.2.winner ∧ entry.2.winner.memory.name = entry.1 := by
  obtain ⟨name, res⟩ := entry
  obtain ⟨hmem, hname⟩ := mem_resolved h
  refine ⟨⟨hmem, fun x hx hxname ↦ ?_⟩, hname⟩
  exact rank_le_winner (halone.filter name) (mem_resolved_iff.mp h)
    (List.mem_filter.mpr ⟨hx, decide_eq_true (hxname.trans hname)⟩)

theorem consolidates_of_newestAlone (halone : NewestAlone records)
    (hpaths : (records.map MemoryRecord.path).Nodup) : Consolidates records staleBefore where
  order := fun _ hperm ↦ order_of_newestAlone halone hpaths hperm
  names := names_perm records staleBefore
  kept := by
    intro w hw
    obtain ⟨entry, hentry, rfl, -⟩ := mem_kept_iff.mp hw
    exact (greatest_of_mem_resolved halone hentry).1
  retired := by
    intro old hold
    obtain ⟨entry, hentry, -, rfl⟩ := mem_retired_iff.mp hold
    obtain ⟨hgreatest, hname⟩ := greatest_of_mem_resolved halone hentry
    exact ⟨_, hgreatest, by rw [hname]⟩
  conflicts := by
    intro c hc
    obtain ⟨entry, hentry, -, rfl⟩ := mem_conflicts_iff.mp hc
    obtain ⟨hgreatest, hname⟩ := greatest_of_mem_resolved halone hentry
    exact ⟨_, hgreatest, hname.symm, rfl⟩
  again := consolidate_kept records staleBefore

/-- **The plan does not depend on the order of the records** if and only if the newest copies of
every memory are alone. -/
theorem consolidates_iff (hpaths : (records.map MemoryRecord.path).Nodup)
    (staleBefore : Option Millis) : Consolidates records staleBefore ↔ NewestAlone records :=
  ⟨newestAlone_of_order hpaths, fun halone ↦ consolidates_of_newestAlone halone hpaths⟩

/-- A memory at a path, written at a time. -/
def copyAt (path : String) (updatedAt : Millis) : MemoryRecord where
  memory := ⟨⟨ofString "tabs", ofString "four", .user, by decide, by decide⟩, []⟩
  path := ofString path
  updatedAt := updatedAt

theorem consolidates_tabs : Consolidates [copyAt "a.md" 1, copyAt "b.md" 2] (some 1) := by
  have hpaths : ([copyAt "a.md" 1, copyAt "b.md" 2].map MemoryRecord.path).Nodup := by decide
  refine (consolidates_iff hpaths (some 1)).mpr ?_
  have hlast : ∀ r, IsNewest [copyAt "a.md" 1, copyAt "b.md" 2] r → r = copyAt "b.md" 2 := by
    intro r hr
    rcases List.mem_pair.mp hr.1 with rfl | rfl
    · have hle := hr.2 (copyAt "b.md" 2) (List.mem_pair.mpr (.inr rfl)) rfl
      exact absurd hle (by decide)
    · rfl
  exact fun a b ha hb _ ↦ (hlast a ha).trans (hlast b hb).symm

/-- Of two copies written at one time, the one that is read first is kept. -/
theorem first_copy_kept :
    ¬ ∀ (records : List MemoryRecord) (staleBefore : Option Millis),
      (records.map MemoryRecord.path).Nodup → Consolidates records staleBefore := by
  intro h
  have hboth := h [copyAt "a.md" 1, copyAt "b.md" 1] none (by decide)
  have horder := hboth.order [copyAt "b.md" 1, copyAt "a.md" 1] (List.Perm.swap _ _ _)
  have hpaths := congrArg (List.map MemoryRecord.path) horder.1
  revert hpaths
  decide +kernel

end QwenHarness.Memory
