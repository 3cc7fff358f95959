import QwenHarness.Memory.Dream

/-!
# A dream that stops

A dream may stop anywhere, by an exception or a crash. What it keeps is read before anything is
removed; but a file that is not named after a kept memory is removed before that memory is written
again, and a file that is named after another kept memory may be replaced before. So a dream loses
nothing, wherever it stops, exactly if each kept memory has a shelter: a file that holds it, is not
removed, and is not replaced before the memory is written again (`keepsAll_iff_sheltered`).
-/

namespace QwenHarness.Memory

open Utf16

/-! ## What is asked -/

/-- The memory can be read from the directory. -/
def Readable (d : Directory) (m : Memory) : Prop :=
  ∃ entry ∈ d.entries, ∃ file ∈ d.lookup entry, parseMemory file.text = .ok m

/-- **Nothing kept is lost.** -/
def KeepsAll (o : RunDreamOptions) (w : DreamWorld) : Prop := ∀ r ∈ kept o w, Readable w.dir r.memory

/-- A step of the dream, whose model rewrites nothing. -/
def Plain : DreamMove → Prop
  | .dream (.result r) _ => r.memories = none
  | .dream _ _ => True
  | _ => False

variable {o : RunDreamOptions} {d dir : Directory} {gone : List Text}
  {records done todo : List MemoryRecord} {r : MemoryRecord}

/-- What is read of an entry. -/
def recordAt (d : Directory) (entry : Text) : Option MemoryRecord :=
  match d.lookup entry with
  | some file =>
    match parseMemory file.text with
    | .ok m => some ⟨m, entry, file.mtime⟩
    | .error _ => none
  | none => none

/-- What is read if the reads of these entries succeed. -/
def recordsOf (d : Directory) (entries : List Text) : List MemoryRecord :=
  entries.filterMap (recordAt d)

/-- Enough for a dream to run. -/
def Voluminous (records : List MemoryRecord) : Prop :=
  DREAM_MIN_CANDIDATES ≤ (candidates records).count ∨ DREAM_MIN_BYTES ≤ (candidates records).bytes

/-- What is kept of the records. -/
def keptOf (o : RunDreamOptions) (records : List MemoryRecord) : List MemoryRecord :=
  (consolidateMemories records o.staleBefore).kept

/-- The files that a dream removes. -/
def removedOf (o : RunDreamOptions) (records : List MemoryRecord) : List Text :=
  removed records ((keptOf o records).map fun r ↦ r.memory)

/-- A kept memory has a shelter: a file that holds it and is not removed. If the file is replaced,
then not before the memory has been written again, and what is written can be read back. -/
def Sheltered (o : RunDreamOptions) (d : Directory) (records : List MemoryRecord)
    (r : MemoryRecord) : Prop :=
  ∃ entry ∈ d.entries, ∃ file ∈ d.lookup entry, parseMemory file.text = .ok r.memory ∧
    entry ∉ removedOf o records ∧
    ∀ k ∈ keptOf o records, entry = fileName k.memory.name →
      r.memory.name ≤ k.memory.name ∧ parseMemory (o.redactor.fileText r.memory) = .ok r.memory

theorem recordAt_of_none {entry : Text} (h : d.lookup entry = none) : recordAt d entry = none := by
  simp only [recordAt, h]

theorem recordAt_of_ok {entry : Text} {file : MemoryFile} {m : Memory}
    (h : d.lookup entry = some file) (hparse : parseMemory file.text = .ok m) :
    recordAt d entry = some ⟨m, entry, file.mtime⟩ := by
  simp only [recordAt, h, hparse]

theorem recordAt_of_error {entry : Text} {file : MemoryFile} {e : FormatError}
    (h : d.lookup entry = some file) (hparse : parseMemory file.text = .error e) :
    recordAt d entry = none := by
  simp only [recordAt, h, hparse]

/-! ## Names of files -/

theorem mem_entries {d : Directory} {entry : Text} :
    entry ∈ d.entries ↔ entry ∈ d ∧ isMemoryFile entry = true := by
  rw [Directory.entries, List.mem_filter, List.mem_insertionSort, AList.mem_keys]

theorem mem_entries_of_lookup {d : Directory} {entry : Text} {file : MemoryFile}
    (h : file ∈ d.lookup entry) (hentry : isMemoryFile entry = true) : entry ∈ d.entries := by
  refine mem_entries.mpr ⟨?_, hentry⟩
  rw [← AList.lookup_isSome, Option.isSome_iff_exists]
  exact ⟨file, h⟩

theorem MemoryFrontmatter.fileName_ne_index (f : MemoryFrontmatter) :
    fileName f.name ≠ MEMORY_INDEX_FILENAME := by
  have hindex : MEMORY_INDEX_FILENAME = ofString "MEMORY" ++ markdownSuffix := by decide
  rw [hindex, fileName]
  intro h
  have hname : f.name = ofString "MEMORY" := List.append_cancel_right h
  have hunit : (0x4D : CodeUnit) ∈ f.name := by
    rw [hname]
    decide
  rcases f.unit_of_mem_name hunit with h | h | h
  · exact absurd h (by decide)
  · exact absurd h (by decide)
  · exact absurd h (by decide)

theorem MemoryFrontmatter.isMemoryFile_fileName (f : MemoryFrontmatter) :
    isMemoryFile (fileName f.name) = true := by
  rw [isMemoryFile, Bool.and_eq_true, decide_eq_true_iff]
  exact ⟨List.isSuffixOf_iff_suffix.mpr (List.suffix_append _ _), f.fileName_ne_index⟩

theorem fileName_injective {a b : Text} (h : fileName a = fileName b) : a = b :=
  List.append_cancel_right h

/-! ## How far a dream has got -/

/-- The directory once some files are gone and some memories are written again. -/
structure Rewritten (o : RunDreamOptions) (d : Directory) (gone : List Text)
    (done : List MemoryRecord) (dir : Directory) : Prop where
  written : ∀ k ∈ done, ∃ file ∈ dir.lookup (fileName k.memory.name),
    file.text = o.redactor.fileText k.memory
  absent : ∀ entry ∈ gone, (∀ k ∈ done, entry ≠ fileName k.memory.name) → dir.lookup entry = none
  rest : ∀ entry, isMemoryFile entry = true → entry ∉ gone →
    (∀ k ∈ done, entry ≠ fileName k.memory.name) → dir.lookup entry = d.lookup entry

/-- **A shelter holds**, however far the dream has got. -/
theorem Sheltered.readable (h : Sheltered o d records r) (hr : r ∈ keptOf o records)
    (hkept : keptOf o records = done ++ todo) (hgone : gone ⊆ removedOf o records)
    (hdir : Rewritten o d gone done dir) : Readable dir r.memory := by
  obtain ⟨entry, hentry, file, hfile, hparse, hremoved, hshelter⟩ := h
  by_cases hdone : ∃ k ∈ done, entry = fileName k.memory.name
  · -- The shelter has been replaced: the memory has been written again by then.
    obtain ⟨k, hk, heq⟩ := hdone
    obtain ⟨hle, hback⟩ := hshelter k (hkept ▸ List.mem_append_left _ hk) heq
    have hrdone : r ∈ done := by
      rw [hkept] at hr
      refine (List.mem_append.mp hr).resolve_right fun htodo ↦ ?_
      have hpair := pairwise_kept records o.staleBefore
      rw [← keptOf, hkept, List.pairwise_append] at hpair
      exact absurd (hpair.2.2 k hk r htodo) (not_lt_of_ge hle)
    obtain ⟨file, hfile, htext⟩ := hdir.written r hrdone
    exact ⟨_, mem_entries_of_lookup hfile r.memory.isMemoryFile_fileName, file, hfile,
      by rw [htext, hback]⟩
  · have hentryFile := (mem_entries.mp hentry).2
    have hlookup := hdir.rest entry hentryFile (fun hmem ↦ hremoved (hgone hmem))
      fun k hk heq ↦ hdone ⟨k, hk, heq⟩
    have hfile' : file ∈ dir.lookup entry := by rw [hlookup]; exact hfile
    exact ⟨entry, mem_entries_of_lookup hfile' hentryFile, file, hfile', hparse⟩

/-! ## What a dream alone has done -/

/-- The dream has read these records, and the directory is as it found it. -/
structure Reading (d : Directory) (records : List MemoryRecord) (todo : List Text)
    (w : DreamWorld) : Prop where
  dir : w.dir = d
  listed : w.listed = none
  read : ∃ before es, d.entries = before ++ todo ∧ es.Sublist before ∧ records = recordsOf d es

/-- The dream knows what it keeps; some files are gone and some memories are written again. -/
structure WritingBack (o : RunDreamOptions) (d : Directory) (gone : List Text)
    (done todo : List MemoryRecord) (w : DreamWorld) : Prop where
  listed : ∃ es, es.Sublist d.entries ∧ w.listed = some (recordsOf d es) ∧
    Voluminous (recordsOf d es)
  kept_eq : kept o w = done ++ todo
  gone_subset : gone ⊆ removedOf o (w.listed.getD [])
  dir : Rewritten o d gone done w.dir

/-- Where a dream stands that nobody else has written beside. -/
def Stands (o : RunDreamOptions) (d : Directory) (w : DreamWorld) : Prop :=
  match w.stage with
  | .listing => w.dir = d ∧ w.listed = none
  | .reading records todo => Reading d records todo w
  | .stating records entry text todo =>
    Reading d records (entry :: todo) w ∧ ∃ file ∈ d.lookup entry, file.text = text
  | .locking _ | .renewing _ | .summarizing _ => WritingBack o d [] [] (kept o w) w
  | .renewingAgain _ survivors =>
    WritingBack o d [] [] (kept o w) w ∧ survivors = (kept o w).map fun r ↦ r.memory
  | .removing _ paths survivors => ∃ gone, WritingBack o d gone [] (kept o w) w ∧
    survivors = (kept o w).map (fun r ↦ r.memory) ∧
    removedOf o (w.listed.getD []) = gone ++ paths
  | .writing _ step memories survivors => ∃ done todo,
    WritingBack o d (removedOf o (w.listed.getD [])) done todo w ∧
    survivors = (kept o w).map (fun r ↦ r.memory) ∧
    -- While the lock is released, the memory has been written.
    (if step = .releasing then memories.tail else memories) = todo.map fun r ↦ r.memory
  | .indexing _ _ => ∃ gone done todo, WritingBack o d gone done todo w
  | .ended _ => (w.dir = d ∧ w.listed = none) ∨ ∃ gone done todo, WritingBack o d gone done todo w

variable {w : DreamWorld} {a : Answer} {now : Millis}

theorem rewritten_nil (o : RunDreamOptions) (d : Directory) : Rewritten o d [] [] d where
  written _ h := absurd h List.not_mem_nil
  absent _ h := absurd h List.not_mem_nil
  rest _ _ _ _ := rfl

theorem stands_start (o : RunDreamOptions) (d : Directory) : Stands o d (.start d) := ⟨rfl, rfl⟩

/-- A dream that ends leaves the directory as it was. -/
theorem Stands.finish (h : Stands o d w) (outcome : DreamOutcome) :
    Stands o d (w.finish outcome) := by
  rw [Stands] at h
  split at h
  · exact .inl h
  · exact .inl ⟨h.dir, h.listed⟩
  · exact .inl ⟨h.1.dir, h.1.listed⟩
  · exact .inr ⟨_, _, _, h.listed, h.kept_eq, h.gone_subset, h.dir⟩
  · exact .inr ⟨_, _, _, h.listed, h.kept_eq, h.gone_subset, h.dir⟩
  · exact .inr ⟨_, _, _, h.listed, h.kept_eq, h.gone_subset, h.dir⟩
  · exact .inr ⟨_, _, _, h.1.listed, h.1.kept_eq, h.1.gone_subset, h.1.dir⟩
  · obtain ⟨gone, h, -⟩ := h
    exact .inr ⟨_, _, _, h.listed, h.kept_eq, h.gone_subset, h.dir⟩
  · obtain ⟨done, todo, h, -⟩ := h
    exact .inr ⟨_, _, _, h.listed, h.kept_eq, h.gone_subset, h.dir⟩
  · obtain ⟨gone, done, todo, h⟩ := h
    exact .inr ⟨_, _, _, h.listed, h.kept_eq, h.gone_subset, h.dir⟩
  · rcases h with h | ⟨gone, done, todo, h⟩
    · exact .inl h
    · exact .inr ⟨_, _, _, h.listed, h.kept_eq, h.gone_subset, h.dir⟩

/-- An entry whose read fails is left out. -/
theorem Reading.skip {entry : Text} {todo : List Text} (h : Reading d records (entry :: todo) w) :
    Reading d records todo (w.setStage (.reading records todo)) := by
  obtain ⟨hdir, hlisted, before, es, hentries, hsub, hrecords⟩ := h
  refine ⟨hdir, hlisted, before ++ [entry], es, ?_, hsub.trans (List.sublist_append_left _ _),
    hrecords⟩
  rw [hentries, List.append_assoc, List.singleton_append]

theorem stands_fail (lockError : Bool) (h : Stands o d w) : Stands o d (fail lockError w) := by
  rw [fail]
  split
  · next hs =>
    rw [Stands, hs] at h
    exact h.skip
  · next hs =>
    rw [Stands, hs] at h
    exact h.1.skip
  · split <;> exact h.finish _
  · split <;> exact h.finish _
  · exact h.finish _
  · exact h.finish _
  · exact h.finish _
  · exact h.finish _
  · exact h.finish _
  · split
    · exact h
    · exact h.finish _
  all_goals exact h

theorem voluminous_of_isDreamEligible {state : DreamState}
    (h : isDreamEligible state (candidates records) now = none) : Voluminous records := by
  rw [isDreamEligible] at h
  split at h
  · cases h
  · dsimp only at h
    split at h
    · cases h
    · split at h
      · next hvolume => exact hvolume
      · cases h

theorem recordsOf_concat (d : Directory) (es : List Text) (entry : Text) :
    recordsOf d (es ++ [entry]) = recordsOf d es ++ (recordAt d entry).toList := by
  rw [recordsOf, List.filterMap_append]
  rfl

theorem Reading.read_entry {entry : Text} {file : MemoryFile} {m : Memory} {todo : List Text}
    (h : Reading d records (entry :: todo) w) (hfile : file ∈ d.lookup entry)
    (hparse : parseMemory file.text = .ok m) :
    Reading d (records ++ [⟨m, entry, file.mtime⟩]) todo
      (w.setStage (.reading (records ++ [⟨m, entry, file.mtime⟩]) todo)) := by
  obtain ⟨hdir, hlisted, before, es, hentries, hsub, rfl⟩ := h
  refine ⟨hdir, hlisted, before ++ [entry], es ++ [entry], ?_, hsub.append (List.Sublist.refl _), ?_⟩
  · rw [hentries, List.append_assoc, List.singleton_append]
  · have hrecord : recordAt d entry = some ⟨m, entry, file.mtime⟩ := by
      exact recordAt_of_ok hfile hparse
    rw [recordsOf_concat, hrecord, Option.toList_some]

theorem isMemoryFile_of_mem_removedOf {es : List Text} {entry : Text}
    (hes : es.Sublist d.entries) (h : entry ∈ removedOf o (recordsOf d es)) :
    isMemoryFile entry = true := by
  obtain ⟨r, hr, rfl⟩ := List.mem_map.mp (List.mem_filter.mp h).1
  obtain ⟨e, he, hrecord⟩ := List.mem_filterMap.mp hr
  rw [recordAt] at hrecord
  split at hrecord
  · split at hrecord
    · cases hrecord
      exact (mem_entries.mp (hes.subset he)).2
    · cases hrecord
  · cases hrecord

/-- One more file is removed. -/
theorem Rewritten.erase {path : Text} (h : Rewritten o d gone [] dir) :
    Rewritten o d (gone ++ [path]) [] (dir.erase path) where
  written _ hk := absurd hk List.not_mem_nil
  absent entry hentry hdone := by
    by_cases hpath : entry = path
    · rw [hpath, AList.lookup_erase]
    · rw [AList.lookup_erase_ne hpath]
      refine h.absent entry ((List.mem_append.mp hentry).resolve_right fun hmem ↦ ?_) hdone
      exact hpath (List.mem_singleton.mp hmem)
  rest entry hfile hentry hdone := by
    rw [List.mem_append, not_or, List.mem_singleton] at hentry
    rw [AList.lookup_erase_ne hentry.2]
    exact h.rest entry hfile hentry.1 hdone

/-- One more memory is written again. -/
theorem Rewritten.insert (h : Rewritten o d gone done dir)
    (hr : ∀ k ∈ done, k.memory.name ≠ r.memory.name) : Rewritten o d gone (done ++ [r])
      (dir.insert (fileName r.memory.name) ⟨o.redactor.fileText r.memory, now⟩) where
  written k hk := by
    rcases List.mem_append.mp hk with hk | hk
    · obtain ⟨file, hfile, htext⟩ := h.written k hk
      have hne : fileName k.memory.name ≠ fileName r.memory.name :=
        fun heq ↦ hr k hk (fileName_injective heq)
      exact ⟨file, (AList.lookup_insert_ne hne).trans hfile, htext⟩
    · rw [List.mem_singleton.mp hk]
      exact ⟨_, AList.lookup_insert _, rfl⟩
  absent entry hentry hdone := by
    rw [AList.lookup_insert_ne (hdone r (List.mem_append_right _ List.mem_cons_self))]
    exact h.absent entry hentry fun k hk ↦ hdone k (List.mem_append_left _ hk)
  rest entry hfile hentry hdone := by
    rw [AList.lookup_insert_ne (hdone r (List.mem_append_right _ List.mem_cons_self))]
    exact h.rest entry hfile hentry fun k hk ↦ hdone k (List.mem_append_left _ hk)

/-- The index is no memory. -/
theorem Rewritten.insert_index {file : MemoryFile} (h : Rewritten o d gone done dir)
    (hgone : ∀ entry ∈ gone, isMemoryFile entry = true) :
    Rewritten o d gone done (dir.insert MEMORY_INDEX_FILENAME file) := by
  have hne {entry : Text} (hfile : isMemoryFile entry = true) : entry ≠ MEMORY_INDEX_FILENAME := by
    rw [isMemoryFile, Bool.and_eq_true, decide_eq_true_iff] at hfile
    exact hfile.2
  refine ⟨fun k hk ↦ ?_, fun entry hentry hdone ↦ ?_, fun entry hfile hentry hdone ↦ ?_⟩
  · obtain ⟨file, hfile, htext⟩ := h.written k hk
    exact ⟨file, (AList.lookup_insert_ne k.memory.fileName_ne_index).trans hfile, htext⟩
  · rw [AList.lookup_insert_ne (hne (hgone entry hentry))]
    exact h.absent entry hentry hdone
  · rw [AList.lookup_insert_ne (hne hfile)]
    exact h.rest entry hfile hentry hdone

theorem Stands.measure (h : Reading d records [] w) : Stands o d (measure o records now w) := by
  obtain ⟨hdir, hlisted, before, es, hentries, hsub, rfl⟩ := h
  rw [Memory.measure]
  split
  · exact .inl ⟨hdir, hlisted⟩
  · next heligible =>
    rw [List.append_nil] at hentries
    have hes : es.Sublist d.entries := hentries ▸ hsub
    exact ⟨⟨es, hes, rfl, voluminous_of_isDreamEligible heligible⟩, rfl, List.nil_subset _,
      by change Rewritten o d [] [] w.dir; rw [hdir]; exact rewritten_nil o d⟩

theorem Stands.judge {result : DreamModelResult} {deadline : Millis}
    (h : WritingBack o d [] [] (kept o w) w) (hplain : result.memories = none) :
    Stands o d (judge o result deadline now w) := by
  have hfinal : finalMemories (kept o w) result = some ((kept o w).map fun r ↦ r.memory) := by
    rw [finalMemories, hplain]
  rw [Memory.judge, hfinal]
  dsimp only
  split
  · exact .inr ⟨_, _, _, h.listed, h.kept_eq, h.gone_subset, h.dir⟩
  · exact ⟨⟨h.listed, h.kept_eq, h.gone_subset, h.dir⟩, rfl⟩

/-- The memories are written in the order of their names. -/
theorem WritingBack.name_lt {a b : MemoryRecord} (h : WritingBack o d gone done todo w)
    (ha : a ∈ done) (hb : b ∈ todo) : a.memory.name < b.memory.name := by
  have hpair := pairwise_kept (w.listed.getD []) o.staleBefore
  rw [← kept, h.kept_eq, List.pairwise_append] at hpair
  exact hpair.2.2 a ha b hb

theorem WritingBack.isMemoryFile_of_mem_gone (h : WritingBack o d gone done todo w) :
    ∀ entry ∈ gone, isMemoryFile entry = true := by
  intro entry hentry
  obtain ⟨es, hes, hlisted, -⟩ := h.listed
  have hmem := h.gone_subset hentry
  rw [hlisted] at hmem
  exact isMemoryFile_of_mem_removedOf hes hmem

theorem stands_proceed (h : Stands o d w) : Stands o d (proceed o now w) := by
  rw [proceed]
  split
  · next hs =>
    rw [Stands, hs] at h
    exact ⟨h.1, h.2, [], [], by rw [h.1]; rfl, List.Sublist.refl _, rfl⟩
  · next hs =>
    rw [Stands, hs] at h
    exact Stands.measure h
  · next hs =>
    rw [Stands, hs] at h
    split
    · next file hfile =>
      rw [h.dir] at hfile
      exact ⟨⟨h.dir, h.listed, h.read⟩, file, hfile, rfl⟩
    · exact h.skip
  · next records entry text todo hs =>
    rw [Stands, hs] at h
    obtain ⟨h, file, hfile, rfl⟩ := h
    split
    · next file' m hfile' hparse =>
      rw [h.dir] at hfile'
      obtain rfl := Option.some.inj (hfile.symm.trans hfile')
      exact h.read_entry hfile hparse
    · exact h.skip
  · next hs =>
    rw [Stands, hs] at h
    exact ⟨h.listed, h.kept_eq, h.gone_subset, h.dir⟩
  · next hs =>
    split
    · exact h.finish _
    · rw [Stands, hs] at h
      exact ⟨h.listed, h.kept_eq, h.gone_subset, h.dir⟩
  · exact h
  · next summary survivors hs =>
    rw [Stands, hs] at h
    obtain ⟨h, rfl⟩ := h
    exact ⟨[], ⟨h.listed, h.kept_eq, h.gone_subset, h.dir⟩, rfl, rfl⟩
  · next summary survivors hs =>
    rw [Stands, hs] at h
    obtain ⟨gone, h, hsurvivors, hgone⟩ := h
    rw [List.append_nil] at hgone
    refine ⟨[], kept o w, ⟨h.listed, h.kept_eq, List.Subset.refl _, ?_⟩, hsurvivors, hsurvivors⟩
    change Rewritten o d (removedOf o (w.listed.getD [])) [] w.dir
    rw [hgone]
    exact h.dir
  · next summary path paths survivors hs =>
    rw [Stands, hs] at h
    obtain ⟨gone, h, hsurvivors, hgone⟩ := h
    have hpaths : removedOf o (w.listed.getD []) = gone ++ [path] ++ paths := by
      rw [hgone, List.append_assoc, List.singleton_append]
    refine ⟨gone ++ [path], ⟨h.listed, h.kept_eq, ?_, h.dir.erase⟩, hsurvivors, hpaths⟩
    change gone ++ [path] ⊆ removedOf o (w.listed.getD [])
    rw [hpaths]
    exact List.subset_append_left _ _
  · next hs =>
    rw [Stands, hs] at h
    obtain ⟨done, todo, h, -⟩ := h
    exact ⟨_, done, todo, h.listed, h.kept_eq, h.gone_subset, h.dir⟩
  · next summary step m memories survivors hs =>
    rw [Stands, hs] at h
    obtain ⟨done, todo, h, hsurvivors, htodo⟩ := h
    cases step with
    | locking => exact ⟨done, todo, ⟨h.listed, h.kept_eq, h.gone_subset, h.dir⟩, hsurvivors, htodo⟩
    | temporary =>
      exact ⟨done, todo, ⟨h.listed, h.kept_eq, h.gone_subset, h.dir⟩, hsurvivors, htodo⟩
    | replacing =>
      rcases todo with - | ⟨r, todo⟩
      · cases htodo
      · obtain ⟨rfl, hrest⟩ := List.cons.inj (htodo : m :: memories = r.memory :: todo.map _)
        refine ⟨done ++ [r], todo, ⟨h.listed, ?_, h.gone_subset, ?_⟩, hsurvivors, hrest⟩
        · exact h.kept_eq.trans (by rw [List.append_assoc, List.singleton_append])
        · exact h.dir.insert fun k hk ↦ ne_of_lt (h.name_lt hk List.mem_cons_self)
    | releasing =>
      exact ⟨done, todo, ⟨h.listed, h.kept_eq, h.gone_subset, h.dir⟩, hsurvivors, htodo⟩
  · next step content hs =>
    rw [Stands, hs] at h
    obtain ⟨gone, done, todo, h⟩ := h
    cases step with
    | temporary => exact ⟨gone, done, todo, h.listed, h.kept_eq, h.gone_subset, h.dir⟩
    | replacing =>
      exact .inr ⟨gone, done, todo, h.listed, h.kept_eq, h.gone_subset,
        h.dir.insert_index h.isMemoryFile_of_mem_gone⟩
    | _ => exact .inr ⟨gone, done, todo, h.listed, h.kept_eq, h.gone_subset, h.dir⟩
  · exact h

/-- **Where a dream alone stands**, after any step. -/
theorem stands_dreamMove {move : DreamMove} (h : Stands o d w) (hplain : Plain move) :
    Stands o d (dreamMove o move w) := by
  cases move with
  | call => exact hplain.elim
  | step => exact hplain.elim
  | dream a now =>
    cases a with
    | done => exact stands_proceed h
    | lockError => exact stands_fail true h
    | threw => exact stands_fail false h
    | result result =>
      change Stands o d (dreamStep o (.result result) now w)
      unfold dreamStep
      split
      · next hr hs =>
        cases hr
        rw [Stands, hs] at h
        exact Stands.judge h hplain
      · exact h
      · exact absurd ‹_› (by simp)
      · exact absurd ‹_› (by simp)
      · exact absurd ‹_› (by simp)

/-- **A run of the dream alone.** -/
theorem stands_run {moves : List DreamMove} (hplain : ∀ move ∈ moves, Plain move)
    (h : Stands o d w) : Stands o d (Run.run (dreamMove o) moves w) := by
  induction moves generalizing w with
  | nil => exact h
  | cons move moves ih =>
    rw [List.forall_mem_cons] at hplain
    exact ih hplain.2 (stands_dreamMove h hplain.1)

/-! ## Nothing is lost -/

/-- Whether what the dream keeps has a shelter, whatever of the directory it reads. -/
def SheltersAll (o : RunDreamOptions) (d : Directory) : Prop :=
  ∀ es : List Text, es.Sublist d.entries → Voluminous (recordsOf d es) →
    ∀ r ∈ keptOf o (recordsOf d es), Sheltered o d (recordsOf d es) r

theorem WritingBack.keepsAll (h : WritingBack o d gone done todo w) (hall : SheltersAll o d) :
    KeepsAll o w := by
  obtain ⟨es, hes, hlisted, hvolume⟩ := h.listed
  have hkept : kept o w = keptOf o (recordsOf d es) := by rw [kept, hlisted]; rfl
  have hgone : gone ⊆ removedOf o (recordsOf d es) := by
    have := h.gone_subset
    rwa [hlisted] at this
  intro r hr
  rw [hkept] at hr
  exact (hall es hes hvolume r hr).readable hr (hkept.symm.trans h.kept_eq) hgone h.dir

theorem keepsAll_of_listed (h : w.listed = none) : KeepsAll o w := by
  intro r hr
  have hmem := kept_subset hr
  rw [h] at hmem
  exact absurd hmem List.not_mem_nil

theorem Stands.keepsAll (h : Stands o d w) (hall : SheltersAll o d) : KeepsAll o w := by
  rw [Stands] at h
  split at h
  · exact keepsAll_of_listed h.2
  · exact keepsAll_of_listed h.listed
  · exact keepsAll_of_listed h.1.listed
  · exact h.keepsAll hall
  · exact h.keepsAll hall
  · exact h.keepsAll hall
  · exact h.1.keepsAll hall
  · obtain ⟨gone, h, -⟩ := h
    exact h.keepsAll hall
  · obtain ⟨done, todo, h, -⟩ := h
    exact h.keepsAll hall
  · obtain ⟨gone, done, todo, h⟩ := h
    exact h.keepsAll hall
  · rcases h with h | ⟨gone, done, todo, h⟩
    · exact keepsAll_of_listed h.2
    · exact h.keepsAll hall

/-! ## Where a dream may stop -/

/-- A run of the dream alone leads from one state to another. -/
def Leads (o : RunDreamOptions) (w w' : DreamWorld) : Prop :=
  ∃ moves, (∀ move ∈ moves, Plain move) ∧ Run.run (dreamMove o) moves w = w'

theorem Leads.refl (w : DreamWorld) : Leads o w w := ⟨[], List.forall_mem_nil _, rfl⟩

theorem Leads.trans {w' w'' : DreamWorld} (h : Leads o w w') (h' : Leads o w' w'') :
    Leads o w w'' := by
  obtain ⟨moves, hplain, rfl⟩ := h
  obtain ⟨moves', hplain', rfl⟩ := h'
  refine ⟨moves ++ moves', ?_, Run.run_append _ _ _⟩
  exact List.forall_mem_append.mpr ⟨hplain, hplain'⟩

theorem leads_done (w : DreamWorld) (now : Millis) : Leads o w (proceed o now w) :=
  ⟨[.dream .done now], by simp [Plain], rfl⟩

theorem leads_threw (w : DreamWorld) : Leads o w (fail false w) :=
  ⟨[.dream .threw 0], by simp [Plain], rfl⟩

/-- An entry is read. -/
theorem leads_entry {entry : Text} {todo : List Text}
    (hs : w.stage = .reading records (entry :: todo)) :
    Leads o w (w.setStage (.reading (records ++ (recordAt w.dir entry).toList) todo)) := by
  cases hfile : w.dir.lookup entry with
  | none =>
    have hread : proceed o 0 w = w.setStage (.reading records todo) := by
      simp only [proceed, hs, hfile]
    rw [recordAt_of_none hfile, Option.toList_none, List.append_nil, ← hread]
    exact leads_done w 0
  | some file =>
    have hread : proceed o 0 w = w.setStage (.stating records entry file.text todo) := by
      simp only [proceed, hs, hfile]
    refine (leads_done w 0).trans ?_
    rw [hread]
    cases hparse : parseMemory file.text with
    | error e =>
      have hstat : proceed o 0 (w.setStage (.stating records entry file.text todo)) =
          w.setStage (.reading records todo) := by
        simp only [proceed, DreamWorld.setStage, hfile, hparse]
      rw [recordAt_of_error hfile hparse, Option.toList_none, List.append_nil, ← hstat]
      exact leads_done _ 0
    | ok m =>
      have hstat : proceed o 0 (w.setStage (.stating records entry file.text todo)) =
          w.setStage (.reading (records ++ [⟨m, entry, file.mtime⟩]) todo) := by
        simp only [proceed, DreamWorld.setStage, hfile, hparse]
      rw [recordAt_of_ok hfile hparse, Option.toList_some, ← hstat]
      exact leads_done _ 0

/-- The reads of these entries succeed, and the others fail. -/
theorem leads_read {es todo : List Text} (h : es.Sublist todo) (w : DreamWorld)
    (records : List MemoryRecord) (hs : w.stage = .reading records todo) :
    Leads o w (w.setStage (.reading (records ++ recordsOf w.dir es) [])) := by
  induction h generalizing w records with
  | slnil =>
    refine ⟨[], List.forall_mem_nil _, ?_⟩
    rw [recordsOf, List.filterMap_nil, List.append_nil, ← hs]
    rfl
  | @cons es todo entry hsub ih =>
    have hstep : fail false w = w.setStage (.reading records todo) := by rw [fail, hs]
    have hleads := leads_threw (o := o) w
    rw [hstep] at hleads
    exact hleads.trans (ih _ records rfl)
  | @cons_cons es todo entry hsub ih =>
    have hrecords : recordsOf w.dir (entry :: es) =
        (recordAt w.dir entry).toList ++ recordsOf w.dir es := by
      rw [recordsOf, List.filterMap_cons, recordsOf]
      cases recordAt w.dir entry <;> rfl
    rw [hrecords, ← List.append_assoc]
    exact (leads_entry hs).trans (ih _ _ rfl)

theorem exists_isDreamEligible (state : DreamState) (hvolume : Voluminous records) :
    ∃ now, isDreamEligible state (candidates records) now = none := by
  refine ⟨state.lastConsolidationAt.getD 0 + DREAM_MAX_AGE_MS, ?_⟩
  have hage : ∀ last ∈ state.lastConsolidationAt,
      state.lastConsolidationAt.getD 0 + DREAM_MAX_AGE_MS - last = DREAM_MAX_AGE_MS := by
    intro last hlast
    rw [hlast, Option.getD_some, add_sub_cancel_left]
  have hinterval : ¬DREAM_MAX_AGE_MS < DREAM_MIN_INTERVAL_MS := by decide +kernel
  have hwithin : ¬(state.lastConsolidationAt.any fun last ↦
      state.lastConsolidationAt.getD 0 + DREAM_MAX_AGE_MS - last < DREAM_MIN_INTERVAL_MS) = true := by
    rw [Option.any_eq_true]
    rintro ⟨last, hlast, h⟩
    rw [hage last hlast, decide_eq_true_iff] at h
    exact hinterval h
  have htrigger : (state.lastConsolidationAt.all fun last ↦
      DREAM_MAX_AGE_MS ≤ state.lastConsolidationAt.getD 0 + DREAM_MAX_AGE_MS - last) = true := by
    rw [Option.all_eq_true]
    intro last hlast
    rw [hage last hlast, decide_eq_true_iff]
  rw [isDreamEligible, if_neg hwithin]
  dsimp only
  rw [htrigger, Bool.not_true, Bool.and_false, if_neg Bool.false_ne_true]
  exact if_pos hvolume

theorem leads_of_proceed {w w' : DreamWorld} (now : Millis) (h : proceed o now w = w') :
    Leads o w w' := h ▸ leads_done w now

/-- With enough candidates the gates open at some time, and the dream gets to what it removes. -/
theorem leads_removing (hs : w.stage = .reading records []) (hvolume : Voluminous records) :
    Leads o w { w with
      listed := some records
      stage := .removing [] (removedOf o records) ((keptOf o records).map fun r ↦ r.memory) } := by
  obtain ⟨now, hnow⟩ := exists_isDreamEligible o.state hvolume
  have hlate : ¬now + DREAM_WALL_MS < now :=
    not_lt_of_ge (le_add_of_nonneg_right (by decide +kernel))
  let listed := { w with stage := .locking (now + DREAM_WALL_MS), listed := some records }
  let survivors := (keptOf o records).map fun r ↦ r.memory
  have hmeasure : Leads o w listed := leads_of_proceed now (by
    simp only [proceed, hs, measure, hnow, listed])
  have hlock : Leads o listed (listed.setStage (.renewing (now + DREAM_WALL_MS))) :=
    leads_done listed now
  have hrenew : Leads o (listed.setStage (.renewing (now + DREAM_WALL_MS)))
      (listed.setStage (.summarizing (now + DREAM_WALL_MS))) :=
    leads_of_proceed now (if_neg hlate)
  have hsummarize : Leads o (listed.setStage (.summarizing (now + DREAM_WALL_MS)))
      (listed.setStage (.renewingAgain [] survivors)) :=
    ⟨[.dream (.result ⟨[], none⟩) now], List.forall_mem_singleton.mpr rfl, if_neg hlate⟩
  exact hmeasure.trans (hlock.trans (hrenew.trans (hsummarize.trans (leads_done _ now))))

/-- All files are removed that are to be removed. -/
theorem leads_writing {summary : Text} {paths : List Text} {survivors : List Memory}
    (hs : w.stage = .removing summary paths survivors) : ∃ w', Leads o w w' ∧
      w'.stage = .writing summary .locking survivors survivors ∧ w'.listed = w.listed := by
  induction paths generalizing w with
  | nil =>
    have hstep : proceed o 0 w = w.setStage (.writing summary .locking survivors survivors) := by
      simp only [proceed, hs]
    exact ⟨_, leads_of_proceed 0 hstep, rfl, rfl⟩
  | cons path paths ih =>
    have hstep : proceed o 0 w =
        { w with dir := w.dir.erase path, stage := .removing summary paths survivors } := by
      simp only [proceed, hs]
    obtain ⟨w', hleads, hstage, hlisted⟩ := ih (w := { w with
      dir := w.dir.erase path, stage := .removing summary paths survivors }) rfl
    exact ⟨w', (leads_of_proceed 0 hstep).trans hleads, hstage, hlisted⟩

/-- One memory is written again: the four steps of `writeMemory`. -/
theorem leads_write {summary : Text} {m : Memory} {memories survivors : List Memory}
    (hs : w.stage = .writing summary .locking (m :: memories) survivors) : ∃ w', Leads o w w' ∧
      w'.stage = .writing summary .locking memories survivors ∧ w'.listed = w.listed := by
  let replaced := w.dir.insert (fileName m.name) ⟨o.redactor.fileText m, 0⟩
  have hlock : proceed o 0 w =
      w.setStage (.writing summary .temporary (m :: memories) survivors) := by
    simp only [proceed, hs, advanceWrite, DreamWorld.setStage]
  have hwrite := leads_done (o := o)
    (w.setStage (.writing summary .temporary (m :: memories) survivors)) 0
  have hreplace := leads_done (o := o)
    (w.setStage (.writing summary .replacing (m :: memories) survivors)) 0
  have hrelease := leads_done (o := o) { w with
    dir := replaced, stage := .writing summary .releasing (m :: memories) survivors } 0
  exact ⟨{ w with dir := replaced, stage := .writing summary .locking memories survivors },
    (leads_of_proceed 0 hlock).trans (hwrite.trans (hreplace.trans hrelease)), rfl, rfl⟩

/-- The first memories are written again. -/
theorem leads_written {summary : Text} {first memories survivors : List Memory}
    (hs : w.stage = .writing summary .locking (first ++ memories) survivors) :
    ∃ w', Leads o w w' ∧ w'.stage = .writing summary .locking memories survivors ∧
      w'.listed = w.listed := by
  induction first generalizing w with
  | nil => exact ⟨w, Leads.refl w, hs, rfl⟩
  | cons m first ih =>
    obtain ⟨w', hleads, hstage, hlisted⟩ := leads_write (o := o) hs
    obtain ⟨w'', hleads', hstage', hlisted'⟩ := ih hstage
    exact ⟨w'', hleads.trans hleads', hstage', hlisted'.trans hlisted⟩

/-- **A dream may stop** when it has removed everything and written back the first of what it
keeps. -/
theorem exists_stop {es : List Text} (hes : es.Sublist d.entries)
    (hvolume : Voluminous (recordsOf d es)) (hkept : keptOf o (recordsOf d es) = done ++ todo) :
    ∃ moves, (∀ move ∈ moves, Plain move) ∧
      WritingBack o d (removedOf o (recordsOf d es)) done todo
        (Run.run (dreamMove o) moves (.start d)) := by
  have hread := leads_read (o := o) hes (readDirectory (.start d)) [] rfl
  have hremove := leads_removing (o := o) (w := (readDirectory (.start d)).setStage
    (.reading ([] ++ recordsOf d es) [])) rfl hvolume
  obtain ⟨w, hwrite, hstage, hlisted⟩ := leads_writing (o := o) (w := { (readDirectory (.start d)) with
      listed := some (recordsOf d es)
      stage := .removing [] (removedOf o (recordsOf d es))
        ((keptOf o (recordsOf d es)).map fun r ↦ r.memory) }) rfl
  rw [hkept, List.map_append] at hstage
  obtain ⟨w', hwritten, hstage', hlisted'⟩ := leads_written (o := o) hstage
  obtain ⟨moves, hplain, rfl⟩ :=
    (leads_done (DreamWorld.start d) 0).trans (hread.trans (hremove.trans (hwrite.trans hwritten)))
  refine ⟨moves, hplain, ?_⟩
  have hstands := stands_run hplain (stands_start o d)
  rw [Stands, hstage'] at hstands
  obtain ⟨done', todo', h, -, htodo⟩ := hstands
  have hlistedAll := hlisted'.trans hlisted
  have hkept' : done' ++ todo' = done ++ todo := by
    rw [← h.kept_eq, ← hkept, kept, hlistedAll]
    rfl
  have hlength : todo'.length = todo.length := by
    have := congrArg List.length htodo
    rw [if_neg (by decide), List.length_map, List.length_map] at this
    exact this.symm
  obtain ⟨rfl, rfl⟩ := List.append_inj' hkept' hlength
  rwa [hlistedAll] at h

/-- A memory whose every stop is survived has a shelter. -/
theorem sheltered_of_keepsAll
    (h : ∀ moves, (∀ move ∈ moves, Plain move) → KeepsAll o (Run.run (dreamMove o) moves (.start d)))
    {es : List Text} (hes : es.Sublist d.entries) (hvolume : Voluminous (recordsOf d es))
    (hr : r ∈ keptOf o (recordsOf d es)) : Sheltered o d (recordsOf d es) r := by
  have hkeptOf {done todo : List MemoryRecord} {w : DreamWorld} {gone : List Text}
      (hback : WritingBack o d gone done todo w)
      (heq : keptOf o (recordsOf d es) = done ++ todo) : r ∈ kept o w := by
    rw [hback.kept_eq, ← heq]
    exact hr
  -- Everything is written back: the memory is in its own file, or in one that is never touched.
  obtain ⟨moves, hplain, hend⟩ := exists_stop hes hvolume (List.append_nil _).symm
  obtain ⟨entry, hentry, file, hfile, hparse⟩ :=
    h moves hplain r (hkeptOf hend (List.append_nil _).symm)
  obtain ⟨hmem, hentryFile⟩ := mem_entries.mp hentry
  have hpresent {gone : List Text} {done : List MemoryRecord} {dir : Directory} {e : Text}
      {f : MemoryFile} (hdir : Rewritten o d gone done dir) (hf : f ∈ dir.lookup e)
      (hfree : ∀ k ∈ done, e ≠ fileName k.memory.name) : e ∉ gone := by
    intro hgone
    rw [hdir.absent e hgone hfree] at hf
    cases hf
  by_cases hown : ∃ k ∈ keptOf o (recordsOf d es), entry = fileName k.memory.name
  · obtain ⟨k, hk, rfl⟩ := hown
    have hback : parseMemory (o.redactor.fileText r.memory) = .ok r.memory := by
      obtain ⟨file', hfile', htext⟩ := hend.dir.written k hk
      obtain rfl := Option.some.inj (hfile.symm.trans hfile')
      rw [htext] at hparse
      obtain rfl := eq_of_name_eq hk hr (o.redactor.keepsName _ _ hparse).symm
      exact hparse
    -- It is its turn to be written.
    obtain ⟨done, todo, hsplit⟩ := List.append_of_mem hr
    obtain ⟨moves, hplain, hmid⟩ := exists_stop hes hvolume hsplit
    obtain ⟨entry, hentry, file, hfile, hparse⟩ := h moves hplain r (hkeptOf hmid hsplit)
    obtain ⟨-, hentryFile⟩ := mem_entries.mp hentry
    have hfree : ∀ k ∈ done, entry ≠ fileName k.memory.name := by
      rintro k hk rfl
      obtain ⟨file', hfile', htext⟩ := hmid.dir.written k hk
      obtain rfl := Option.some.inj (hfile.symm.trans hfile')
      rw [htext] at hparse
      have hname := o.redactor.keepsName _ _ hparse
      exact absurd (hmid.name_lt hk List.mem_cons_self) (by rw [hname]; exact lt_irrefl _)
    have hgone := hpresent hmid.dir hfile hfree
    have hlookup := hmid.dir.rest entry hentryFile hgone hfree
    have hfile' : file ∈ d.lookup entry := by rw [← hlookup]; exact hfile
    refine ⟨entry, mem_entries_of_lookup hfile' hentryFile, file, hfile', hparse, hgone, ?_⟩
    intro k hk heq
    rw [hsplit] at hk
    rcases List.mem_append.mp hk with hk | hk
    · exact absurd heq (hfree k hk)
    · refine ⟨?_, hback⟩
      rcases List.mem_cons.mp hk with rfl | hk
      · exact le_refl _
      · have hpair := pairwise_kept (recordsOf d es) o.staleBefore
        rw [← keptOf, hsplit, List.pairwise_append, List.pairwise_cons] at hpair
        exact le_of_lt (hpair.2.1.1 k hk)
  · have hfree : ∀ k ∈ keptOf o (recordsOf d es), entry ≠ fileName k.memory.name :=
      fun k hk heq ↦ hown ⟨k, hk, heq⟩
    have hgone := hpresent hend.dir hfile hfree
    have hlookup := hend.dir.rest entry hentryFile hgone hfree
    have hfile' : file ∈ d.lookup entry := by rw [← hlookup]; exact hfile
    exact ⟨entry, mem_entries_of_lookup hfile' hentryFile, file, hfile', hparse, hgone,
      fun k hk heq ↦ absurd heq (hfree k hk)⟩

variable (o d) in
/-- **Nothing kept is lost**, wherever a dream stops, exactly if what it keeps has a shelter,
whatever of the directory it manages to read. -/
theorem keepsAll_iff_sheltersAll :
    (∀ moves, (∀ move ∈ moves, Plain move) →
      KeepsAll o (Run.run (dreamMove o) moves (.start d))) ↔ SheltersAll o d :=
  ⟨fun h _ hes hvolume _ hr ↦ sheltered_of_keepsAll h hes hvolume hr,
    fun hall _ hplain ↦ (stands_run hplain (stands_start o d)).keepsAll hall⟩

/-! ## A memory that is lost -/

instance (d : Directory) (m : Memory) : Decidable (Readable d m) :=
  inferInstanceAs (Decidable
    (∃ entry ∈ d.entries, ∃ file ∈ d.lookup entry, parseMemory file.text = .ok m))

instance (w : DreamWorld) : Decidable (KeepsAll o w) :=
  inferInstanceAs (Decidable (∀ r ∈ kept o w, Readable w.dir r.memory))

/-- The memory `z` is in the file `x.md`. -/
private def misnamed : Directory :=
  ("x", "z") :: (["a", "b", "c", "d", "e", "f", "g", "h", "i"].map fun name ↦ (name, name))
  |>.foldr (fun entry d ↦ d.insert (fileName (ofString entry.1))
      ⟨ofString ("---
name: " ++ entry.2 ++ "
description: note
type: user
---
"), 0⟩) ∅

/-- The dream stops when it has removed `x.md`. -/
private def removesFirst : List DreamMove :=
  List.replicate 24 (.dream .done 0) ++
    [.dream (.result ⟨[], none⟩) 0, .dream .done 0, .dream .done 0]

/-- **A kept memory is lost** if the dream stops before it has written it again. -/
theorem not_keepsAll_misnamed : ¬∀ (o : RunDreamOptions) (d : Directory) (moves : List DreamMove),
    (∀ move ∈ moves, Plain move) → KeepsAll o (Run.run (dreamMove o) moves (.start d)) := by
  intro h
  have hlost : ¬ KeepsAll ⟨.none, ⟨0, none⟩, none⟩
      (Run.run (dreamMove ⟨.none, ⟨0, none⟩, none⟩) removesFirst (.start misnamed)) := by
    -- the parts of the texts that are the same for all the files are spelled out once
    simp only [misnamed, Utf16.ofString, String.toList_append, String.reduceToList]
    decide +kernel
  refine absurd (h ⟨.none, ⟨0, none⟩, none⟩ misnamed removesFirst ?_) hlost
  simp [removesFirst, Plain]

end QwenHarness.Memory
