import QwenHarness.Memory.Frontmatter
import QwenHarness.Table.Assoc
import Mathlib.Algebra.Order.Ring.Rat
import Mathlib.Data.List.Lex
import Mathlib.Data.List.Sort

/-!
# Consolidation

The deterministic core of the dream: when it may run, and which memories it keeps. Memories of one
name with one body collapse to the newest copy; of those with different bodies one wins, and a
winner that is stale is retired. What is kept was read, one memory for each name
(`kept_subset`, `pairwise_kept`).
-/

namespace QwenHarness.Memory

open Utf16

/-- Milliseconds since the epoch. -/
abbrev Millis := ℚ

/-! ## Eligibility -/

def DREAM_MIN_SESSIONS : ℕ := 5
def DREAM_MAX_AGE_MS : Millis := 7 * 24 * 60 * 60 * 1000
def DREAM_MIN_CANDIDATES : ℕ := 10
def DREAM_MIN_BYTES : ℕ := 32 * 1024
def DREAM_MIN_INTERVAL_MS : Millis := 24 * 60 * 60 * 1000
def DREAM_WALL_MS : Millis := 10 * 60 * 1000
def DREAM_MAX_OUTPUT_TOKENS : ℕ := 8000

/-- About four bytes a token, rounded up. -/
def estimateTokens (text : Text) : ℕ := ((bytes text).length + 3) / 4

structure DreamState where
  sessionsSinceLastConsolidation : ℕ
  lastConsolidationAt : Option Millis

/-- How many candidates there are, and how many bytes their bodies have. -/
structure DreamCandidateSummary where
  count : ℕ
  bytes : ℕ

inductive DreamIneligibleReason
  | within24h
  | notEnoughSessionsOrAge
  | notEnoughCandidates
deriving DecidableEq, Repr

/-- Whether a dream may run now: `none` if it may. -/
def isDreamEligible (state : DreamState) (candidates : DreamCandidateSummary) (now : Millis) :
    Option DreamIneligibleReason :=
  if state.lastConsolidationAt.any fun last ↦ now - last < DREAM_MIN_INTERVAL_MS then
    some .within24h
  else
    let sessionTrigger := decide (DREAM_MIN_SESSIONS ≤ state.sessionsSinceLastConsolidation)
    let ageTrigger := state.lastConsolidationAt.all fun last ↦ DREAM_MAX_AGE_MS ≤ now - last
    if !sessionTrigger && !ageTrigger then some .notEnoughSessionsOrAge
    else if DREAM_MIN_CANDIDATES ≤ candidates.count ∨ DREAM_MIN_BYTES ≤ candidates.bytes then none
    else some .notEnoughCandidates

/-! ## Which memories are the same -/

/-- `body.replace(/\r\n/g, '\n')`. -/
def unixLines : Text → Text
  | [] => []
  | [u] => [u]
  | u :: v :: us =>
    if u = carriageReturn ∧ v = newline then newline :: unixLines us else u :: unixLines (v :: us)

/-- `body.replace(/\n{3,}/g, '\n\n')`, with the newlines that have just been written. -/
def collapseNewlines : ℕ → Text → Text
  | _, [] => []
  | n, u :: us =>
    if u ≠ newline then u :: collapseNewlines 0 us
    else if n < 2 then u :: collapseNewlines (n + 1) us
    else collapseNewlines n us

def normalizeBody (body : Text) : Text :=
  trim (collapseNewlines 0
    ([newline].intercalate (((unixLines body).splitOn newline).map trimEnd)))

def dedupKey (m : Memory) : Text := m.name ++ [0] ++ normalizeBody m.body

/-! ## The plan -/

/-- A memory with the file it was read from and when the file was last written. The path is taken
from the directory, which is the same for all of them. -/
structure MemoryRecord where
  memory : Memory
  path : Text
  updatedAt : Millis
deriving DecidableEq

inductive ResolvedBy
  | newer
  | moreSpecific
deriving DecidableEq, Repr

structure MemoryConflict where
  name : Text
  winner : Text
  losers : List Text
  resolvedBy : ResolvedBy
deriving DecidableEq

structure RetiredMemory where
  name : Text
  path : Text
  updatedAt : Millis
deriving DecidableEq

structure ConsolidationPlan where
  kept : List MemoryRecord
  conflicts : List MemoryConflict
  retired : List RetiredMemory

/-- Whether the first of two records of one name wins, and why the winner does. The newer one wins,
or the one with the longer body, or the one whose path is not greater. -/
def chooseWinner (a b : MemoryRecord) : Bool × ResolvedBy :=
  if a.updatedAt ≠ b.updatedAt then (decide (b.updatedAt < a.updatedAt), .newer)
  else
    let aLen := (normalizeBody a.memory.body).length
    let bLen := (normalizeBody b.memory.body).length
    if aLen ≠ bLen then (decide (bLen < aLen), .moreSpecific)
    else (decide (a.path ≤ b.path), .moreSpecific)

/-- The records by name, in the order they were read in. -/
def byName (records : List MemoryRecord) : List (Text × List MemoryRecord) :=
  Assoc.fill (fun r ↦ r.memory.name) (fun r old ↦ old.getD [] ++ [r]) records

/-- One record for each key, the newest. -/
def distinct (group : List MemoryRecord) : List (Text × MemoryRecord) :=
  Assoc.fill (fun r ↦ dedupKey r.memory)
    (fun r old ↦ match old with
      | none => r
      | some existing => if existing.updatedAt < r.updatedAt then r else existing) group

/-- How the variants of one name are resolved. -/
structure Resolution where
  winner : MemoryRecord
  losers : List Text
  resolvedBy : ResolvedBy

/-- The winner so far against one more variant. -/
def Resolution.meet (r : Resolution) (variant : MemoryRecord) : Resolution :=
  let outcome := chooseWinner r.winner variant
  if outcome.1 then
    { r with losers := r.losers ++ [variant.path], resolvedBy := outcome.2 }
  else
    { winner := variant, losers := r.losers ++ [r.winner.path], resolvedBy := outcome.2 }

def resolve (group : List MemoryRecord) : Option Resolution :=
  match (distinct group).map Prod.snd with
  | [] => none
  | first :: variants => some (variants.foldl Resolution.meet ⟨first, [], .newer⟩)

/-- The resolutions, by name. -/
def resolved (records : List MemoryRecord) : List (Text × Resolution) :=
  (byName records).filterMap fun group ↦ (resolve group.2).map fun r ↦ (group.1, r)

/-- Older than the records that are not retired. -/
def isRetired (staleBefore : Option Millis) (r : MemoryRecord) : Bool :=
  staleBefore.any fun before ↦ r.updatedAt < before

/-- Deduplicate, resolve conflicts and retire what is stale. -/
def consolidateMemories (records : List MemoryRecord) (staleBefore : Option Millis) :
    ConsolidationPlan :=
  let conflicts := ((resolved records).filter fun r ↦ !r.2.losers.isEmpty).map fun r ↦
    ⟨r.1, r.2.winner.path, r.2.losers, r.2.resolvedBy⟩
  let retired := ((resolved records).filter fun r ↦ isRetired staleBefore r.2.winner).map fun r ↦
    ⟨r.1, r.2.winner.path, r.2.winner.updatedAt⟩
  let kept := ((resolved records).filter fun r ↦ !isRetired staleBefore r.2.winner).map fun r ↦ r.2.winner
  { kept := kept.insertionSort fun a b ↦ a.memory.name ≤ b.memory.name
    conflicts := conflicts.insertionSort fun a b ↦ a.name ≤ b.name
    retired := retired.insertionSort fun a b ↦ a.name ≤ b.name }

/-! ## What is kept -/

variable {records group : List MemoryRecord} {staleBefore : Option Millis}

theorem mem_byName {entry : Text × List MemoryRecord} (h : entry ∈ byName records) :
    ∀ r ∈ entry.2, r ∈ records ∧ r.memory.name = entry.1 := by
  refine Assoc.forall_mem_fill
    (P := fun name group ↦ ∀ r ∈ group, r ∈ records ∧ r.memory.name = name) ?_ ?_ entry h
  · intro r hr x hx
    rw [List.mem_singleton.mp hx]
    exact ⟨hr, rfl⟩
  · intro r hr group hgroup x hx
    rcases List.mem_append.mp hx with hx | hx
    · exact hgroup x hx
    · rw [List.mem_singleton.mp hx]
      exact ⟨hr, rfl⟩

theorem mem_distinct {entry : Text × MemoryRecord} (h : entry ∈ distinct group) :
    entry.2 ∈ group := by
  refine Assoc.forall_mem_fill (P := fun _ r ↦ r ∈ group) (fun r hr ↦ hr) ?_ entry h
  intro r hr existing hexisting
  change (if existing.updatedAt < r.updatedAt then r else existing) ∈ group
  split
  · exact hr
  · exact hexisting

theorem winner_foldl_meet (variants : List MemoryRecord) (r : Resolution) :
    (variants.foldl Resolution.meet r).winner = r.winner ∨
      (variants.foldl Resolution.meet r).winner ∈ variants := by
  induction variants generalizing r with
  | nil => exact .inl rfl
  | cons v vs ih =>
    have hmeet : (r.meet v).winner = r.winner ∨ (r.meet v).winner = v := by
      rw [Resolution.meet]
      split
      · exact .inl rfl
      · exact .inr rfl
    rw [List.foldl_cons]
    rcases ih (r.meet v) with h | h
    · rcases hmeet with hm | hm
      · exact .inl (h.trans hm)
      · exact .inr (by rw [h, hm]; exact List.mem_cons_self)
    · exact .inr (List.mem_cons_of_mem _ h)

/-- Who wins is one of the group. -/
theorem winner_mem {r : Resolution} (h : resolve group = some r) : r.winner ∈ group := by
  have hmem : ∀ x ∈ (distinct group).map Prod.snd, x ∈ group := by
    intro x hx
    obtain ⟨entry, hentry, rfl⟩ := List.mem_map.mp hx
    exact mem_distinct hentry
  rw [resolve] at h
  split at h
  · cases h
  · next first variants heq =>
    rw [heq] at hmem
    cases h
    rcases winner_foldl_meet variants ⟨first, [], .newer⟩ with hw | hw
    · rw [hw]
      exact hmem first List.mem_cons_self
    · exact hmem _ (List.mem_cons_of_mem _ hw)

theorem mem_resolved {entry : Text × Resolution} (h : entry ∈ resolved records) :
    entry.2.winner ∈ records ∧ entry.2.winner.memory.name = entry.1 := by
  obtain ⟨group, hgroup, heq⟩ := List.mem_filterMap.mp h
  obtain ⟨r, hr, rfl⟩ := Option.map_eq_some_iff.mp heq
  exact mem_byName hgroup _ (winner_mem hr)

theorem nodup_resolved (records : List MemoryRecord) : ((resolved records).map Prod.fst).Nodup := by
  have hsub : ((resolved records).map Prod.fst).Sublist ((byName records).map Prod.fst) := by
    rw [resolved]
    induction byName records with
    | nil => exact List.Sublist.refl _
    | cons group groups ih =>
      rw [List.filterMap_cons]
      cases resolve group.2 with
      | none => exact ih.cons _
      | some r => exact ih.cons_cons _
  exact hsub.nodup (Assoc.nodup_fill records)

theorem mem_kept {r : MemoryRecord} (h : r ∈ (consolidateMemories records staleBefore).kept) :
    ∃ entry ∈ resolved records, entry.2.winner = r ∧ isRetired staleBefore r = false := by
  obtain ⟨entry, hentry, rfl⟩ := List.mem_map.mp ((List.mem_insertionSort _).mp h)
  obtain ⟨hmem, hstale⟩ := List.mem_filter.mp hentry
  exact ⟨entry, hmem, rfl, Bool.not_eq_true' _ |>.mp hstale⟩

/-- **What is kept was read.** -/
theorem kept_subset : (consolidateMemories records staleBefore).kept ⊆ records := by
  intro r hr
  obtain ⟨entry, hentry, rfl, -⟩ := mem_kept hr
  exact (mem_resolved hentry).1

/-- What is made of the resolutions has one entry for each name, in the order of the names. -/
theorem pairwise_sorted {α : Type} {n : α → Text} {f : Text × Resolution → α}
    (hname : ∀ entry ∈ resolved records, n (f entry) = entry.1)
    (p : Text × Resolution → Bool) :
    ((((resolved records).filter p).map f).insertionSort fun a b ↦ n a ≤ n b).Pairwise
      fun a b ↦ n a < n b := by
  let entries := ((resolved records).filter p).map f
  have hnames : entries.map n = ((resolved records).filter p).map Prod.fst := by
    rw [List.map_map]
    exact List.map_congr_left fun entry h ↦ hname entry (List.mem_filter.mp h).1
  have hnodup : (entries.map n).Nodup := by
    rw [hnames]
    exact (List.filter_sublist.map Prod.fst).nodup (nodup_resolved records)
  let le (a b : α) : Prop := n a ≤ n b
  have htrans : IsTrans α le := ⟨fun a b c ↦ le_trans (α := Text)⟩
  have htotal : Std.Total le := ⟨fun a b ↦ le_total (n a) (n b)⟩
  have hsorted : (entries.insertionSort le).Pairwise le := List.pairwise_insertionSort le entries
  have hsortedNodup : ((entries.insertionSort le).map n).Nodup :=
    ((List.perm_insertionSort le entries).map _).nodup_iff.mpr hnodup
  rw [List.Nodup, List.pairwise_map] at hsortedNodup
  exact hsorted.imp₂ (fun _ _ hle hne ↦ lt_of_le_of_ne hle hne) hsortedNodup

/-- **One memory is kept for each name**, in the order of the names. -/
theorem pairwise_kept (records : List MemoryRecord) (staleBefore : Option Millis) :
    (consolidateMemories records staleBefore).kept.Pairwise
    fun a b ↦ a.memory.name < b.memory.name :=
  pairwise_sorted (f := fun entry ↦ entry.2.winner) (fun _ h ↦ (mem_resolved h).2) _

theorem eq_of_name_eq {a b : MemoryRecord}
    (ha : a ∈ (consolidateMemories records staleBefore).kept)
    (hb : b ∈ (consolidateMemories records staleBefore).kept)
    (h : a.memory.name = b.memory.name) : a = b := by
  have hnodup : ((consolidateMemories records staleBefore).kept.map
      fun r ↦ r.memory.name).Nodup := by
    rw [List.Nodup, List.pairwise_map]
    exact (pairwise_kept records staleBefore).imp fun hlt ↦ ne_of_lt hlt
  exact List.inj_on_of_nodup_map hnodup ha hb h

end QwenHarness.Memory
