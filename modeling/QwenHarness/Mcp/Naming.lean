import Mathlib.Data.List.Chain
import QwenHarness.Policy.Paths
import QwenHarness.Table.Fresh

/-!
# The names of tools

A tool of a server is offered as `mcp__server__tool`, both parts normalized. What is normalized has
only letters, digits, hyphens and single underscores, none of them first, so the two underscores
after the server are the first two in a row after the prefix, and a name says which normalized
server it belongs to. Two servers whose names are normalized to the same part can still be offered
under one name: names are kept apart within a server only.
-/

namespace QwenHarness.Mcp

open Policy

/-! ## Segments -/

/-- `/[a-zA-Z0-9-]/`. -/
def isSafeChar (c : Char) : Bool :=
  decide ('a' ≤ c ∧ c ≤ 'z') || decide ('A' ≤ c ∧ c ≤ 'Z') || decide ('0' ≤ c ∧ c ≤ '9') ||
    decide (c = '-')

/-- Put one underscore in place of every run of characters that `p` finds. -/
def replaceRuns (p : Char → Bool) : Bool → List Char → List Char
  | _, [] => []
  | inRun, c :: cs =>
    if p c then
      if inRun then replaceRuns p true cs else '_' :: replaceRuns p true cs
    else c :: replaceRuns p false cs

/-- `.replace(/^_|_$/g, '')`. -/
def stripEnds (cs : List Char) : List Char :=
  let tail := if cs.head? = some '_' then cs.tail else cs
  if tail.getLast? = some '_' then tail.dropLast else tail

def cleaned (raw : List Char) : List Char :=
  stripEnds (replaceRuns (fun c ↦ decide (c = '_')) false
    (replaceRuns (fun c ↦ !isSafeChar c) false raw))

/-- A server or a tool as a part of a name: never empty, and at most 64 long. -/
def segment (raw : List Char) : List Char :=
  let bounded := (cleaned raw).take 64
  if 0 < bounded.length then bounded else "unnamed".toList

def normalizeSegment (raw : String) : String := .ofList (segment raw.toList)

def mcpNamePrefix : String := "mcp__"

def segmentSep : String := "__"

def toolName (server tool : String) : String :=
  mcpNamePrefix ++ normalizeSegment server ++ segmentSep ++ normalizeSegment tool

/-- No two underscores in a row. -/
def Single (cs : List Char) : Prop := cs.IsChain fun a b ↦ ¬ (a = '_' ∧ b = '_')

theorem Single.infix {cs ds : List Char} (h : Single cs) (hsub : ds <:+: cs) : Single ds :=
  List.IsChain.infix h hsub

theorem single_replaceRuns {p : Char → Bool} (hp : p '_' = true) (inRun : Bool) (cs : List Char) :
    Single (replaceRuns p inRun cs) ∧
      (inRun = true → (replaceRuns p inRun cs).head? ≠ some '_') := by
  induction cs generalizing inRun with
  | nil => exact ⟨List.isChain_nil, fun _ h ↦ by cases h⟩
  | cons c cs ih =>
    rw [replaceRuns]
    by_cases hc : p c = true
    · rw [if_pos hc]
      cases inRun with
      | true => exact ih true
      | false =>
        refine ⟨List.isChain_cons.mpr ⟨fun y hy ↦ ?_, (ih true).1⟩, fun h ↦ by cases h⟩
        rintro ⟨-, rfl⟩
        exact (ih true).2 rfl hy
    · rw [if_neg hc]
      have hne : c ≠ '_' := fun h ↦ hc (h ▸ hp)
      refine ⟨List.isChain_cons.mpr ⟨fun _ _ h ↦ hne h.1, (ih false).1⟩, fun _ h ↦ ?_⟩
      exact hne (Option.some.inj h)

/-- What is left without its ends. -/
theorem stripEnds_spec {cs : List Char} (h : Single cs) :
    Single (stripEnds cs) ∧ (stripEnds cs).head? ≠ some '_' := by
  let tail := if cs.head? = some '_' then cs.tail else cs
  have htail : Single tail ∧ tail.head? ≠ some '_' := by
    by_cases hhead : cs.head? = some '_'
    · have heq : tail = cs.tail := if_pos hhead
      obtain ⟨ds, rfl⟩ := List.head?_eq_some_iff.mp hhead
      rw [heq]
      exact ⟨h.tail, fun hd ↦ (List.isChain_cons.mp h).1 _ hd ⟨rfl, rfl⟩⟩
    · have heq : tail = cs := if_neg hhead
      rw [heq]
      exact ⟨h, hhead⟩
  have hstrip : stripEnds cs = if tail.getLast? = some '_' then tail.dropLast else tail := rfl
  rw [hstrip]
  split_ifs
  · refine ⟨htail.1.dropLast, fun hd ↦ htail.2 ?_⟩
    obtain ⟨ds, hds⟩ := List.head?_eq_some_iff.mp hd
    obtain ⟨es, hes⟩ := tail.dropLast_prefix
    rw [← hes, hds]
    rfl
  · exact htail

theorem segment_spec (raw : List Char) :
    Single (segment raw) ∧ (segment raw).head? ≠ some '_' ∧ segment raw ≠ [] := by
  have hclean := stripEnds_spec (single_replaceRuns (p := fun c ↦ decide (c = '_')) (by decide)
    false (replaceRuns (fun c ↦ !isSafeChar c) false raw)).1
  have hunfold : segment raw = if 0 < ((cleaned raw).take 64).length then (cleaned raw).take 64
      else "unnamed".toList := rfl
  rw [hunfold]
  by_cases hpos : 0 < ((cleaned raw).take 64).length
  · rw [if_pos hpos]
    refine ⟨hclean.1.take 64, fun hd ↦ hclean.2 ?_, List.ne_nil_of_length_pos hpos⟩
    obtain ⟨ds, hds⟩ := List.head?_eq_some_iff.mp hd
    obtain ⟨es, hes⟩ := List.take_prefix 64 (cleaned raw)
    change (cleaned raw).head? = some '_'
    rw [← hes, hds]
    rfl
  · rw [if_neg hpos]
    exact ⟨by unfold Single; decide, by decide, by decide⟩

/-- The first two underscores in a row end the server. -/
theorem server_unique {s s' r r' : List Char} (hs : Single s) (hs' : Single s')
    (hr : r.head? ≠ some '_') (hr' : r'.head? ≠ some '_')
    (h : s ++ '_' :: '_' :: r = s' ++ '_' :: '_' :: r') : s = s' := by
  have hlonger : ∀ {s s' r r' : List Char}, Single s' → r.head? ≠ some '_' → ∀ a,
      s' = s ++ a → '_' :: '_' :: r = a ++ '_' :: '_' :: r' → s = s' := by
    intro s s' r r' hs' hr a ha hrest
    match a, ha, hrest with
    | [], ha, _ => exact (ha.trans (List.append_nil _)).symm
    | [_], _, hrest =>
      obtain ⟨-, hr2⟩ : _ ∧ r = '_' :: r' := by simpa using hrest
      exact absurd (by rw [hr2]; rfl) hr
    | x :: y :: a, ha, hrest =>
      obtain ⟨rfl, rfl, -⟩ : '_' = x ∧ '_' = y ∧ r = a ++ '_' :: '_' :: r' := by simpa using hrest
      have hbad : Single ['_', '_'] := hs'.infix ⟨s, a, by rw [ha]; simp⟩
      exact absurd ⟨rfl, rfl⟩ (List.isChain_pair.mp hbad)
  rcases List.append_eq_append_iff.mp h with ⟨a, ha, hrest⟩ | ⟨a, ha, hrest⟩
  · exact hlonger hs' hr a ha hrest
  · exact (hlonger hs hr' a ha hrest).symm

/-! ## Assigning names -/

structure RawMcpToolRef where
  server : String
  tool : String
deriving DecidableEq, Repr

structure NamedMcpTool where
  server : String
  tool : String
  name : String
  /-- The name was taken, and another was found. -/
  renamed : Bool
deriving DecidableEq, Repr

/-- `base`, `base_2`, `base_3` and so on. -/
def numbered (base : String) (n : ℕ) : String :=
  if n = 1 then base else base ++ "_" ++ toString n

/-- By server, and within a server by tool. -/
def refBefore (a b : RawMcpToolRef) : Bool :=
  if a.server = b.server then !decide (codeUnits b.tool < codeUnits a.tool)
  else !decide (codeUnits b.server < codeUnits a.server)

/-- Give a tool the first of its names that is not taken. -/
def assignName (state : List String × List NamedMcpTool) (ref : RawMcpToolRef) :
    List String × List NamedMcpTool :=
  let base := toolName ref.server ref.tool
  let name := Fresh.firstFree (numbered base) state.1 state.1.length 1
  (name :: state.1, state.2 ++ [⟨ref.server, ref.tool, name, decide (base ∈ state.1)⟩])

/-- Assign final names to the tools of a server. The built-in names are taken from the start. -/
def assignToolNames (tools : List RawMcpToolRef) (builtinNames : List String) :
    List NamedMcpTool :=
  ((tools.mergeSort refBefore).foldl assignName (builtinNames, [])).2

theorem numbered_injective (base : String) : Function.Injective (numbered base) := by
  have hlonger : ∀ n : ℕ, base ++ "_" ++ toString n ≠ base := fun n h ↦ by
    have hlength := congrArg (fun s : String ↦ s.toList.length) h
    simp at hlength
  intro m n h
  rw [numbered, numbered] at h
  split_ifs at h with hm hn hn
  · rw [hm, hn]
  · exact absurd h.symm (hlonger n)
  · exact absurd h (hlonger m)
  · have hdigits := congrArg String.toList h
    simp only [String.toList_append, List.append_cancel_left_eq] at hdigits
    rw [Nat.toString_eq_ofList_toDigits, Nat.toString_eq_ofList_toDigits, String.toList_ofList,
      String.toList_ofList] at hdigits
    rw [← Nat.ofDigitChars_ten_toDigits (n := m), hdigits, Nat.ofDigitChars_ten_toDigits]

/-- The name is one a server with this name can have been given for a tool. -/
def NamedAfter (server name : String) : Prop :=
  ∃ rest : List Char, rest.head? ≠ some '_' ∧
    name.toList = mcpNamePrefix.toList ++ (segment server.toList ++ '_' :: '_' :: rest)

theorem namedAfter_numbered (server tool : String) (n : ℕ) :
    NamedAfter server (numbered (toolName server tool) n) := by
  obtain ⟨-, hhead, hne⟩ := segment_spec tool.toList
  obtain ⟨c, cs, hseg⟩ := List.exists_cons_of_ne_nil hne
  have hbase : (toolName server tool).toList = mcpNamePrefix.toList ++
      (segment server.toList ++ '_' :: '_' :: (c :: cs)) := by
    simp [toolName, normalizeSegment, segmentSep, hseg]
  rw [hseg] at hhead
  rw [numbered]
  split_ifs
  · exact ⟨c :: cs, hhead, hbase⟩
  · refine ⟨c :: (cs ++ "_".toList ++ (toString n).toList), hhead, ?_⟩
    rw [String.toList_append, String.toList_append, hbase]
    simp

/-- **A name tells the server** as far as normalization leaves it. -/
theorem segment_eq_of_namedAfter {server server' name : String} (h : NamedAfter server name)
    (h' : NamedAfter server' name) : normalizeSegment server = normalizeSegment server' := by
  obtain ⟨rest, hrest, heq⟩ := h
  obtain ⟨rest', hrest', heq'⟩ := h'
  have hcancel := List.append_cancel_left (heq.symm.trans heq')
  exact congrArg String.ofList
    (server_unique (segment_spec _).1 (segment_spec _).1 hrest hrest' hcancel)

/-- What holds while names are assigned. -/
structure Assigned (builtinNames : List String) (refs : List RawMcpToolRef)
    (state : List String × List NamedMcpTool) : Prop where
  taken : ∀ n, n ∈ state.1 ↔ n ∈ state.2.map NamedMcpTool.name ∨ n ∈ builtinNames
  refs : state.2.map (fun t ↦ (⟨t.server, t.tool⟩ : RawMcpToolRef)) = refs
  nodup : (state.2.map NamedMcpTool.name).Nodup
  builtin : ∀ t ∈ state.2, t.name ∉ builtinNames
  named : ∀ t ∈ state.2, NamedAfter t.server t.name

theorem Assigned.assign {builtinNames : List String} {refs : List RawMcpToolRef}
    {state : List String × List NamedMcpTool} (h : Assigned builtinNames refs state)
    (ref : RawMcpToolRef) : Assigned builtinNames (refs ++ [ref]) (assignName state ref) := by
  let base := toolName ref.server ref.tool
  let name := Fresh.firstFree (numbered base) state.1 state.1.length 1
  have hfree : name ∉ state.1 := Fresh.firstFree_not_mem (numbered_injective base) le_rfl
  rw [h.taken, not_or] at hfree
  have hstate : assignName state ref = (name :: state.1,
      state.2 ++ [⟨ref.server, ref.tool, name, decide (base ∈ state.1)⟩]) := rfl
  rw [hstate]
  refine ⟨fun n ↦ ?_, ?_, ?_, fun t ht ↦ ?_, fun t ht ↦ ?_⟩
  · rw [List.mem_cons, h.taken, List.map_append, List.mem_append, List.map_singleton,
      List.mem_singleton]
    tauto
  · rw [List.map_append, h.refs]
    rfl
  · rw [List.map_append]
    refine h.nodup.append (List.nodup_singleton _) ?_
    rw [List.map_singleton, List.disjoint_singleton]
    exact hfree.1
  · rcases List.mem_append.mp ht with ht | ht
    · exact h.builtin t ht
    · rw [List.mem_singleton.mp ht]
      exact hfree.2
  · rcases List.mem_append.mp ht with ht | ht
    · exact h.named t ht
    · rw [List.mem_singleton.mp ht]
      obtain ⟨n, -, hn⟩ : ∃ n, 1 ≤ n ∧ name = numbered base n :=
        Fresh.exists_firstFree _ _ _ _
      change NamedAfter ref.server name
      rw [hn]
      exact namedAfter_numbered _ _ _

/-- **The names of a server's tools** differ from each other and from the built-in names, and name
every tool the server has. -/
theorem assigned_assignToolNames (tools : List RawMcpToolRef) (builtinNames : List String) :
    ∃ taken, Assigned builtinNames (tools.mergeSort refBefore)
      (taken, assignToolNames tools builtinNames) := by
  have hfold : ∀ refs : List RawMcpToolRef,
      Assigned builtinNames refs (refs.foldl assignName (builtinNames, [])) := by
    intro refs
    induction refs using List.reverseRecOn with
    | nil => exact ⟨by simp, rfl, List.nodup_nil, by simp, by simp⟩
    | append_singleton refs ref ih =>
      rw [List.foldl_append]
      exact ih.assign ref
  exact ⟨_, hfold _⟩

end QwenHarness.Mcp
