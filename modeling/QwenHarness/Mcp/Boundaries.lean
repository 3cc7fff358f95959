import QwenHarness.Codec.Utf16
import QwenHarness.Mcp.Naming
import Mathlib.Data.List.Lex
import Mathlib.Data.Prod.Lex

/-!
# The boundaries in a name

The names of a list of tools are assigned in an order that only depends on the tools, so the list
may come in any order. Each name has two double underscores, one on either side of the server.

It may have a third. What is normalized is cut to 64 characters last, and the cut may leave an
underscore at the end. Behind such a server the two underscores are three, and behind such a tool
the number that tells it from another begins with a second one (`namesTools_iff`).
-/

namespace QwenHarness.Mcp

open Policy

/-! ## The order of the tools -/

theorem codeUnits_injective : Function.Injective codeUnits := by
  have hunits (c : Char) : (Utf16.ofChar c).map Fin.val =
      if c.toNat < 0x10000 then [c.toNat]
      else [0xD800 + (c.toNat - 0x10000) / 0x400, 0xDC00 + (c.toNat - 0x10000) % 0x400] := by
    have hmax : c.toNat < 0x110000 := by
      rcases c.valid with h | h
      · exact h.trans (by decide)
      · exact h.2
    rw [Utf16.ofChar]
    split
    · next hlt => exact congrArg (fun n ↦ [n]) (Nat.mod_eq_of_lt hlt)
    · refine List.cons_eq_cons.mpr ⟨Nat.mod_eq_of_lt (by omega), ?_⟩
      exact congrArg (fun n ↦ [n]) (Nat.mod_eq_of_lt (by omega))
  have hval (s : String) : codeUnits s = (Utf16.ofString s).map Fin.val := by
    rw [codeUnits, Utf16.ofString, Utf16.ofChars, List.map_flatMap]
    exact List.flatMap_congr fun c _ ↦ (hunits c).symm
  intro s t h
  rw [hval, hval] at h
  have htext := List.map_injective_iff.mpr Fin.val_injective h
  have hchars := congrArg Utf16.toChars htext
  rw [Utf16.ofString, Utf16.ofString, Utf16.toChars_ofChars, Utf16.toChars_ofChars] at hchars
  exact String.toList_inj.mp hchars

variable {a b c : RawMcpToolRef} {tools tools' refs : List RawMcpToolRef}
  {builtinNames : List String}

/-- What the tools are sorted by. -/
def sortKey (ref : RawMcpToolRef) : List ℕ ×ₗ List ℕ :=
  toLex (codeUnits ref.server, codeUnits ref.tool)

theorem refBefore_iff : refBefore a b = true ↔ sortKey a ≤ sortKey b := by
  rw [refBefore, sortKey, sortKey, Prod.Lex.toLex_le_toLex]
  by_cases hserver : a.server = b.server
  · rw [if_pos hserver, hserver, Bool.not_eq_true', decide_eq_false_iff_not, not_lt]
    simp
  · have hne : codeUnits a.server ≠ codeUnits b.server := fun h ↦ hserver (codeUnits_injective h)
    rw [if_neg hserver, Bool.not_eq_true', decide_eq_false_iff_not, not_lt, le_iff_lt_or_eq]
    simp [hne]

theorem sortKey_injective : Function.Injective sortKey := by
  intro a b h
  have hserver := congrArg (fun k ↦ (ofLex k).1) h
  have htool := congrArg (fun k ↦ (ofLex k).2) h
  obtain ⟨server, tool⟩ := a
  obtain ⟨server', tool'⟩ := b
  exact congrArg₂ _ (codeUnits_injective hserver) (codeUnits_injective htool)

theorem pairwise_sorted (tools : List RawMcpToolRef) :
    (tools.mergeSort refBefore).Pairwise fun a b ↦ sortKey a ≤ sortKey b := by
  refine (List.pairwise_mergeSort (fun a b c hab hbc ↦ ?_) (fun a b ↦ ?_) tools).imp
    refBefore_iff.mp
  · rw [refBefore_iff] at hab hbc ⊢
    exact hab.trans hbc
  · rw [Bool.or_eq_true, refBefore_iff, refBefore_iff]
    exact le_total _ _

/-- **The order of the tools does not matter.** -/
theorem assignToolNames_perm (h : tools'.Perm tools) (builtinNames : List String) :
    assignToolNames tools' builtinNames = assignToolNames tools builtinNames := by
  have hperm : (tools'.mergeSort refBefore).Perm (tools.mergeSort refBefore) :=
    (List.mergeSort_perm tools' refBefore).trans
      (h.trans (List.mergeSort_perm tools refBefore).symm)
  have hsame : tools'.mergeSort refBefore = tools.mergeSort refBefore :=
    hperm.eq_of_pairwise (fun _ _ _ _ hab hba ↦ sortKey_injective (le_antisymm hab hba))
      (pairwise_sorted tools') (pairwise_sorted tools)
  rw [assignToolNames, assignToolNames, hsame]

/-! ## Double underscores -/

/-- The name is built of the normalized server and something for the tool, and has no other
double underscores than those on either side of the server. -/
def Bounded (server name : String) : Prop :=
  ∃ tool : List Char, tool ≠ [] ∧ Single tool ∧ Single (segment server.toList) ∧
    name.toList = "mcp".toList ++ '_' :: '_' :: (segment server.toList ++ '_' :: '_' :: tool) ∧
    ∀ before after, name.toList = before ++ '_' :: '_' :: after →
      before = "mcp".toList ∨ before = "mcp__".toList ++ segment server.toList

/-- Where the first double underscore can be, and where the others. -/
theorem doubled_append {p q before after : List Char} (hp : Single p)
    (hlast : p.getLast? ≠ some '_') (hhead : q.head? ≠ some '_')
    (h : p ++ '_' :: '_' :: q = before ++ '_' :: '_' :: after) :
    before = p ∨ ∃ rest, before = p ++ '_' :: '_' :: rest ∧
      q = rest ++ '_' :: '_' :: after := by
  rcases List.append_eq_append_iff.mp h with ⟨x, hx, hrest⟩ | ⟨x, hx, hrest⟩
  · rcases x with - | ⟨u, - | ⟨v, rest⟩⟩
    · exact .inl (hx.trans (List.append_nil _))
    · obtain ⟨-, hq⟩ := List.cons_eq_cons.mp hrest
      obtain ⟨-, hq⟩ := List.cons_eq_cons.mp hq
      exact absurd (congrArg List.head? hq) hhead
    · obtain ⟨rfl, hrest'⟩ := List.cons_eq_cons.mp hrest
      obtain ⟨rfl, hq⟩ := List.cons_eq_cons.mp hrest'
      exact .inr ⟨rest, hx, hq⟩
  · rcases x with - | ⟨u, - | ⟨v, rest⟩⟩
    · exact .inl (hx.trans (List.append_nil _)).symm
    · obtain ⟨rfl, -⟩ := List.cons_eq_cons.mp hrest
      rw [hx] at hlast
      exact absurd List.getLast?_concat hlast
    · obtain ⟨rfl, hrest'⟩ := List.cons_eq_cons.mp hrest
      obtain ⟨rfl, -⟩ := List.cons_eq_cons.mp hrest'
      have hbad : Single ['_', '_'] := hp.infix ⟨before, rest, by rw [hx]; simp⟩
      exact absurd ⟨rfl, rfl⟩ (List.isChain_pair.mp hbad)

/-- The normalized segment was cut behind an underscore. -/
def CutOpen (raw : String) : Prop := (segment raw.toList).getLast? = some '_'

instance (raw : String) : Decidable (CutOpen raw) := inferInstanceAs (Decidable (_ = _))

theorem bounded_iff {server name : String} {tool : List Char} (hne : tool ≠ [])
    (hhead : tool.head? ≠ some '_')
    (hname : name.toList =
      "mcp".toList ++ '_' :: '_' :: (segment server.toList ++ '_' :: '_' :: tool)) :
    Bounded server name ↔ ¬ CutOpen server ∧ Single tool := by
  obtain ⟨hsingle, hserverHead, hserverNe⟩ := segment_spec server.toList
  constructor
  · rintro ⟨tool', hne', hsingle', -, hname', hbounds⟩
    have hcancel := List.append_cancel_left (hname.symm.trans hname')
    obtain rfl : tool = tool' := by
      have hrest := List.append_cancel_left (List.cons_eq_cons.mp
        (List.cons_eq_cons.mp hcancel).2).2
      exact (List.cons_eq_cons.mp (List.cons_eq_cons.mp hrest).2).2
    refine ⟨fun hopen ↦ ?_, hsingle'⟩
    obtain ⟨init, hinit⟩ := List.getLast?_eq_some_iff.mp hopen
    have hbefore := hbounds ("mcp__".toList ++ init) ('_' :: tool) (by
      rw [hname, hinit]
      simp)
    have hlength := hbefore.imp (congrArg List.length) (congrArg List.length)
    rw [hinit] at hlength
    simp at hlength
  · rintro ⟨hclosed, htool⟩
    refine ⟨tool, hne, htool, hsingle, hname, fun before after heq ↦ ?_⟩
    rw [hname] at heq
    have hserver : (segment server.toList ++ '_' :: '_' :: tool).head? ≠ some '_' := by
      rw [List.head?_append_of_ne_nil _ hserverNe]
      exact hserverHead
    rcases doubled_append (by unfold Single; decide) (by decide) hserver heq with
      hfirst | ⟨rest, hrest, hafter⟩
    · exact .inl hfirst
    · rcases doubled_append hsingle hclosed hhead hafter with rfl | ⟨rest', -, htool'⟩
      · refine .inr ?_
        rw [hrest]
        simp
      · have hbad : Single ['_', '_'] := htool.infix ⟨rest', after, by rw [htool']; simp⟩
        exact absurd ⟨rfl, rfl⟩ (List.isChain_pair.mp hbad)

/-! ## Numbers -/

/-- What stands for the tool in the name with a number. -/
def numberedSegment (tool : String) (n : ℕ) : List Char :=
  if n = 1 then segment tool.toList else segment tool.toList ++ '_' :: Nat.toDigits 10 n

theorem toList_numbered (server tool : String) (n : ℕ) :
    (numbered (toolName server tool) n).toList =
      "mcp".toList ++
        '_' :: '_' :: (segment server.toList ++ '_' :: '_' :: numberedSegment tool n) := by
  have hbase : (toolName server tool).toList = "mcp".toList ++
      '_' :: '_' :: (segment server.toList ++ '_' :: '_' :: segment tool.toList) := by
    simp [toolName, mcpNamePrefix, normalizeSegment, segmentSep]
  rw [numbered, numberedSegment]
  split_ifs
  · exact hbase
  · rw [String.toList_append, String.toList_append, hbase, Nat.toString_eq_ofList_toDigits]
    simp

/-- A number behind a segment that was cut open begins with a second underscore. -/
theorem single_numberedSegment {tool : String} {n : ℕ} :
    Single (numberedSegment tool n) ↔ n = 1 ∨ ¬ CutOpen tool := by
  obtain ⟨hsingle, -, -⟩ := segment_spec tool.toList
  rw [numberedSegment]
  split_ifs with hn
  · exact iff_of_true hsingle (.inl hn)
  · have hdigits : Single ('_' :: Nat.toDigits 10 n) := by
      have hnone : ∀ x ∈ Nat.toDigits 10 n, x ≠ '_' := by
        rintro x hx rfl
        exact Nat.underscore_not_in_toDigits hx
      refine List.isChain_cons.mpr ⟨fun y hy h ↦ hnone y (List.mem_of_mem_head? hy) h.2, ?_⟩
      refine List.Pairwise.isChain (List.pairwise_of_forall_mem_list ?_)
      exact fun a ha _ _ h ↦ hnone a ha h.1
    rw [Single, List.isChain_append, or_iff_right hn]
    constructor
    · rintro ⟨-, -, hjoin⟩ hopen
      exact hjoin '_' hopen '_' rfl ⟨rfl, rfl⟩
    · intro hclosed
      refine ⟨hsingle, hdigits, fun x hx y hy h ↦ hclosed ?_⟩
      rw [h.1] at hx
      exact hx

theorem bounded_numbered {server tool : String} {n : ℕ} :
    Bounded server (numbered (toolName server tool) n) ↔
      ¬ CutOpen server ∧ (n = 1 ∨ ¬ CutOpen tool) := by
  obtain ⟨-, hhead, hne⟩ := segment_spec tool.toList
  have hstart : numberedSegment tool n ≠ [] ∧ (numberedSegment tool n).head? ≠ some '_' := by
    rw [numberedSegment]
    split_ifs
    · exact ⟨hne, hhead⟩
    · refine ⟨List.append_ne_nil_of_left_ne_nil hne _, ?_⟩
      rwa [List.head?_append_of_ne_nil _ hne]
  rw [bounded_iff hstart.1 hstart.2 (toList_numbered server tool n), single_numberedSegment]

/-! ## Which names get a number -/

def baseName (ref : RawMcpToolRef) : String := toolName ref.server ref.tool

/-- The name of a tool ends as its segment does. -/
theorem cutOpen_iff (ref : RawMcpToolRef) :
    CutOpen ref.tool ↔ (baseName ref).toList.getLast? = some '_' := by
  obtain ⟨-, -, hne⟩ := segment_spec ref.tool.toList
  have hlist : (baseName ref).toList = ("mcp".toList ++
      '_' :: '_' :: (segment ref.server.toList ++ ['_', '_'])) ++ segment ref.tool.toList := by
    have hone := toList_numbered ref.server ref.tool 1
    rw [numberedSegment, if_pos rfl] at hone
    refine hone.trans ?_
    simp
  rw [CutOpen, hlist, List.getLast?_append]
  cases hlast : (segment ref.tool.toList).getLast? with
  | none => exact absurd (List.getLast?_eq_none_iff.mp hlast) hne
  | some c => rfl

/-- A name that ends with an underscore has no number. -/
theorem eq_one_of_getLast? {base : String} {n : ℕ}
    (h : (numbered base n).toList.getLast? = some '_') : n = 1 := by
  by_contra hn
  rw [numbered, if_neg hn, String.toList_append, Nat.toString_eq_ofList_toDigits,
    String.toList_ofList, List.getLast?_append] at h
  cases hlast : (Nat.toDigits 10 n).getLast? with
  | none => exact Nat.toDigits_ne_nil (List.getLast?_eq_none_iff.mp hlast)
  | some c =>
    rw [hlast, Option.some_or] at h
    have hmem := List.mem_of_getLast? hlast
    rw [Option.some.inj h] at hmem
    exact Nat.underscore_not_in_toDigits hmem

/-- A name has a number if and only if it was taken without one. -/
theorem firstFree_numbered (base : String) (taken : List String) :
    ∃ n, Fresh.firstFree (numbered base) taken taken.length 1 = numbered base n ∧
      (n = 1 ↔ base ∉ taken) := by
  have hfree := Fresh.firstFree_not_mem (n := 1) (numbered_injective base) (le_refl taken.length)
  obtain ⟨n, -, heq⟩ := Fresh.exists_firstFree (numbered base) taken taken.length 1
  refine ⟨n, heq, fun hn ↦ ?_, fun hbase ↦ ?_⟩
  · rw [heq, hn] at hfree
    exact hfree
  · have hfirst : Fresh.firstFree (numbered base) taken taken.length 1 = numbered base 1 := by
      cases taken with
      | nil => rfl
      | cons name names =>
        rw [List.length_cons, Fresh.firstFree]
        exact if_neg hbase
    exact numbered_injective base (heq.symm.trans hfirst)

/-- What holds of the numbers while names are assigned. -/
structure Counted (builtinNames : List String) (refs : List RawMcpToolRef)
    (state : List String × List NamedMcpTool) : Prop where
  numbers : ∀ t ∈ state.2, ∃ n, t.name = numbered (toolName t.server t.tool) n ∧
    (n = 1 ↔ t.renamed = false)
  /-- A name that ends with an underscore is taken by a tool whose name it is. -/
  taken : ∀ name : String, name.toList.getLast? = some '_' →
    (name ∈ state.1 ↔ name ∈ builtinNames ∨ name ∈ refs.map baseName)
  renamed : (∀ t ∈ state.2, CutOpen t.tool → t.renamed = false) ↔
    (∀ ref ∈ refs, CutOpen ref.tool → baseName ref ∉ builtinNames) ∧
      refs.Pairwise fun a b ↦ CutOpen b.tool → baseName a ≠ baseName b

theorem Counted.assign {state : List String × List NamedMcpTool}
    (h : Counted builtinNames refs state) (ref : RawMcpToolRef) :
    Counted builtinNames (refs ++ [ref]) (assignName state ref) := by
  obtain ⟨n, hname, hn⟩ := firstFree_numbered (baseName ref) state.1
  have hstate : assignName state ref = (numbered (baseName ref) n :: state.1,
      state.2 ++ [⟨ref.server, ref.tool, numbered (baseName ref) n,
        decide (baseName ref ∈ state.1)⟩]) := by
    rw [← hname]
    rfl
  rw [hstate]
  refine ⟨fun t ht ↦ ?_, fun name hlast ↦ ?_, ?_⟩
  · rcases List.mem_append.mp ht with ht | ht
    · exact h.numbers t ht
    · rw [List.mem_singleton.mp ht]
      exact ⟨n, rfl, hn.trans (decide_eq_false_iff_not).symm⟩
  · rw [List.mem_cons, List.map_append, List.mem_append, List.map_singleton, List.mem_singleton]
    have hold := h.taken name hlast
    constructor
    · rintro (rfl | hmem)
      · rw [eq_one_of_getLast? hlast]
        exact .inr (.inr rfl)
      · exact (hold.mp hmem).imp_right .inl
    · rintro (hbuiltin | hrefs | rfl)
      · exact .inr (hold.mpr (.inl hbuiltin))
      · exact .inr (hold.mpr (.inr hrefs))
      · by_cases hmem : baseName ref ∈ state.1
        · exact .inr hmem
        · rw [hn.mpr hmem]
          exact .inl rfl
  · have hlast : (∀ t ∈ state.2 ++ [⟨ref.server, ref.tool, numbered (baseName ref) n,
        decide (baseName ref ∈ state.1)⟩], CutOpen t.tool → t.renamed = false) ↔
        (∀ t ∈ state.2, CutOpen t.tool → t.renamed = false) ∧
          (CutOpen ref.tool → baseName ref ∉ state.1) := by
      rw [List.forall_mem_append, List.forall_mem_singleton, decide_eq_false_iff_not]
    have hfree : (CutOpen ref.tool → baseName ref ∉ state.1) ↔
        (CutOpen ref.tool → baseName ref ∉ builtinNames) ∧
          ∀ a ∈ refs, CutOpen ref.tool → baseName a ≠ baseName ref := by
      constructor
      · intro hnew
        refine ⟨fun hopen hbuiltin ↦ hnew hopen ?_, fun a ha hopen hsame ↦ hnew hopen ?_⟩
        · exact (h.taken _ ((cutOpen_iff ref).mp hopen)).mpr (.inl hbuiltin)
        · refine (h.taken _ ((cutOpen_iff ref).mp hopen)).mpr (.inr ?_)
          exact List.mem_map.mpr ⟨a, ha, hsame⟩
      · rintro ⟨hbuiltin, hrefs⟩ hopen hmem
        rcases (h.taken _ ((cutOpen_iff ref).mp hopen)).mp hmem with hmem | hmem
        · exact hbuiltin hopen hmem
        · obtain ⟨a, ha, hsame⟩ := List.mem_map.mp hmem
          exact hrefs a ha hopen hsame
    rw [hlast, h.renamed, hfree, List.forall_mem_append, List.forall_mem_singleton,
      List.pairwise_append]
    constructor
    · rintro ⟨⟨hbuiltin, hpairwise⟩, hbuiltin', hnew⟩
      refine ⟨⟨hbuiltin, hbuiltin'⟩, hpairwise, List.pairwise_singleton _ _, fun a ha b hb ↦ ?_⟩
      rw [List.mem_singleton.mp hb]
      exact hnew a ha
    · rintro ⟨⟨hbuiltin, hbuiltin'⟩, hpairwise, -, hnew⟩
      refine ⟨⟨hbuiltin, hpairwise⟩, hbuiltin', fun a ha ↦ ?_⟩
      exact hnew a ha ref (List.mem_singleton.mpr rfl)

theorem counted_assignToolNames (tools : List RawMcpToolRef) (builtinNames : List String) :
    ∃ taken, Counted builtinNames (tools.mergeSort refBefore)
      (taken, assignToolNames tools builtinNames) := by
  have hfold : ∀ refs : List RawMcpToolRef,
      Counted builtinNames refs (refs.foldl assignName (builtinNames, [])) := by
    intro refs
    induction refs using List.reverseRecOn with
    | nil => exact ⟨by simp, by simp, by simp⟩
    | append_singleton refs ref ih =>
      rw [List.foldl_append]
      exact ih.assign ref
  exact ⟨_, hfold _⟩

/-! ## The names of a list of tools -/

/-- **What the names are to be.** -/
structure NamesTools (tools : List RawMcpToolRef) (builtinNames : List String) : Prop where
  /-- Whatever names are taken, the search for a name ends, with the first one that is free. -/
  ends : ∀ (ref : RawMcpToolRef) (taken : List String), ∃ n, 1 ≤ n ∧
    Fresh.firstFree (numbered (baseName ref)) taken taken.length 1 = numbered (baseName ref) n ∧
    numbered (baseName ref) n ∉ taken ∧
    ∀ k, 1 ≤ k → k < n → numbered (baseName ref) k ∈ taken
  /-- Every tool has one name. -/
  refs : ((assignToolNames tools builtinNames).map fun t ↦
    (⟨t.server, t.tool⟩ : RawMcpToolRef)).Perm tools
  distinct : ((assignToolNames tools builtinNames).map NamedMcpTool.name).Nodup
  builtin : ∀ t ∈ assignToolNames tools builtinNames, t.name ∉ builtinNames
  order : ∀ tools', tools'.Perm tools →
    assignToolNames tools' builtinNames = assignToolNames tools builtinNames
  bounded : ∀ t ∈ assignToolNames tools builtinNames, Bounded t.server t.name

/-- No server is cut open, and the name of no tool that is cut open needs a number. -/
structure Uncut (tools : List RawMcpToolRef) (builtinNames : List String) : Prop where
  servers : ∀ ref ∈ tools, ¬ CutOpen ref.server
  builtin : ∀ ref ∈ tools, CutOpen ref.tool → baseName ref ∉ builtinNames
  once : tools.Pairwise fun a b ↦ CutOpen b.tool → baseName a ≠ baseName b

theorem search_ends (base : String) (taken : List String) : ∃ n, 1 ≤ n ∧
    Fresh.firstFree (numbered base) taken taken.length 1 = numbered base n ∧
    numbered base n ∉ taken ∧ ∀ k, 1 ≤ k → k < n → numbered base k ∈ taken := by
  obtain ⟨n, hn, heq, hfirst⟩ := Fresh.exists_firstFree_first (numbered base) taken
    taken.length 1
  have hfree := Fresh.firstFree_not_mem (n := 1) (numbered_injective base) (le_refl taken.length)
  rw [heq] at hfree
  exact ⟨n, hn, heq, hfree, hfirst⟩

/-- A tool that is cut open may be offered under its name without a number. -/
theorem bounded_iff_renamed {t : NamedMcpTool} {n : ℕ}
    (hname : t.name = numbered (toolName t.server t.tool) n) (hn : n = 1 ↔ t.renamed = false) :
    Bounded t.server t.name ↔
      ¬ CutOpen t.server ∧ (CutOpen t.tool → t.renamed = false) := by
  rw [hname, bounded_numbered, hn, or_comm, ← imp_iff_not_or]

/-- Which of two tools with one name comes first makes no difference to either of them. -/
theorem once_symm (h : CutOpen b.tool → baseName a ≠ baseName b) (hopen : CutOpen a.tool) :
    baseName b ≠ baseName a := by
  intro hsame
  rw [cutOpen_iff, ← hsame, ← cutOpen_iff] at hopen
  exact h hopen hsame.symm

theorem refs_perm (tools : List RawMcpToolRef) (builtinNames : List String) :
    ((assignToolNames tools builtinNames).map fun t ↦
      (⟨t.server, t.tool⟩ : RawMcpToolRef)).Perm tools := by
  obtain ⟨taken, hassigned⟩ := assigned_assignToolNames tools builtinNames
  exact (List.Perm.of_eq hassigned.refs).trans (List.mergeSort_perm tools refBefore)

/-- Every name has its two double underscores if and only if the tools are not cut open. -/
theorem forall_bounded_iff (tools : List RawMcpToolRef) (builtinNames : List String) :
    (∀ t ∈ assignToolNames tools builtinNames, Bounded t.server t.name) ↔
      Uncut tools builtinNames := by
  obtain ⟨taken, hcounted⟩ := counted_assignToolNames tools builtinNames
  have hperm := List.mergeSort_perm tools refBefore
  have hrefs := refs_perm tools builtinNames
  have hbounded : (∀ t ∈ assignToolNames tools builtinNames, Bounded t.server t.name) ↔
      ∀ t ∈ assignToolNames tools builtinNames,
        ¬ CutOpen t.server ∧ (CutOpen t.tool → t.renamed = false) := by
    refine forall₂_congr fun t ht ↦ ?_
    obtain ⟨n, hname, hn⟩ := hcounted.numbers t ht
    exact bounded_iff_renamed hname hn
  rw [hbounded]
  constructor
  · intro hall
    obtain ⟨hbuiltin, honce⟩ := hcounted.renamed.mp fun t ht ↦ (hall t ht).2
    refine ⟨fun ref href ↦ ?_, fun ref href ↦ hbuiltin ref (hperm.mem_iff.mpr href),
      (hperm.pairwise_iff once_symm).mp honce⟩
    obtain ⟨t, ht, rfl⟩ := List.mem_map.mp (hrefs.mem_iff.mpr href)
    exact (hall t ht).1
  · intro h
    have hrenamed := hcounted.renamed.mpr
      ⟨fun ref href ↦ h.builtin ref (hperm.mem_iff.mp href),
        (hperm.pairwise_iff once_symm).mpr h.once⟩
    refine fun t ht ↦ ⟨h.servers ⟨t.server, t.tool⟩ ?_, hrenamed t ht⟩
    exact hrefs.mem_iff.mp (List.mem_map.mpr ⟨t, ht, rfl⟩)

/-- **The names are what they are to be** if and only if no server is cut open and no tool that is
cut open has to share its name. -/
theorem namesTools_iff (tools : List RawMcpToolRef) (builtinNames : List String) :
    NamesTools tools builtinNames ↔ Uncut tools builtinNames := by
  obtain ⟨taken, hassigned⟩ := assigned_assignToolNames tools builtinNames
  refine ⟨fun h ↦ (forall_bounded_iff tools builtinNames).mp h.bounded, fun h ↦ ?_⟩
  exact ⟨fun ref taken ↦ search_ends _ taken, refs_perm tools builtinNames, hassigned.nodup,
    hassigned.builtin, fun _ hperm ↦ assignToolNames_perm hperm builtinNames,
    (forall_bounded_iff tools builtinNames).mpr h⟩

/-- Two tools whose names are the same up to a character past the 64th. -/
theorem not_namesTools_cut : ¬ ∀ tools builtinNames, NamesTools tools builtinNames := by
  intro h
  let tool (last : Char) : String := .ofList (List.replicate 63 'a' ++ ['.', last])
  have hbounded := (h [⟨"srv", tool 'b'⟩, ⟨"srv", tool 'c'⟩] []).bounded
  have honce := ((forall_bounded_iff _ _).mp hbounded).once
  rw [List.pairwise_pair] at honce
  revert honce
  decide

end QwenHarness.Mcp
