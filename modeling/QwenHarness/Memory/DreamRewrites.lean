import QwenHarness.Codec.Delimited
import QwenHarness.Codec.Quote
import QwenHarness.Memory.DreamStops

/-!
# A dream whose model rewrites the memories

What the model is shown is cut to the tokens it may read, from the end. If it answers with another
memory set, that set replaces everything that was read: a file that is not named after one of its
memories is removed, whether the model was shown what it holds or not.

So after a dream that commits, a memory that was cut off is still there if and only if the answer
has it as it was, or it stands in a file that the dream has neither read nor written
(`keepsUnseen_iff`).
-/

namespace QwenHarness.Memory

open Codec Utf16

/-! ## What the model is shown -/

def DREAM_MAX_INPUT_TOKENS : ℕ := 64000

/-- Where the memories are: their scope, and the path of a file of the directory. -/
structure DreamPlace where
  scope : Text
  path : Text → Text

/-- `JSON.stringify` of an object, of spelled fields. -/
def jsonObject (fields : List (String × Text)) : Text :=
  let spelled := fields.map fun field ↦ quote (ofString field.1) ++ ofString ":" ++ field.2
  ofString "\x7b" ++ (ofString ",").intercalate spelled ++ ofString "\x7d"

/-- `JSON.stringify` of an array, of spelled items. -/
def jsonArray (items : List Text) : Text :=
  ofString "[" ++ (ofString ",").intercalate items ++ ofString "]"

def memoryJson (m : Memory) : Text :=
  jsonObject [("name", quote m.name), ("description", quote m.description),
    ("type", quote m.type.text), ("body", quote m.body)]

def DreamPlace.provenance (place : DreamPlace) (entry : Text) : Text :=
  jsonObject [("scope", quote place.scope), ("path", quote (place.path entry))]

def ResolvedBy.text : ResolvedBy → Text
  | newer => ofString "newer"
  | moreSpecific => ofString "more-specific"

def MemoryConflict.json (place : DreamPlace) (c : MemoryConflict) : Text :=
  jsonObject [("name", quote c.name), ("winner", place.provenance c.winner),
    ("losers", jsonArray (c.losers.map place.provenance)),
    ("resolvedBy", quote c.resolvedBy.text)]

structure DreamModelInput where
  memories : List Memory
  conflicts : List MemoryConflict
  maxOutputTokens : ℕ

/-- What the tokens of an input are counted of. -/
def serialize (place : DreamPlace) (conflicts : List MemoryConflict) (memories : List Memory) :
    Text :=
  jsonObject [("memories", jsonArray (memories.map memoryJson)),
    ("conflicts", jsonArray (conflicts.map (MemoryConflict.json place)))]

/-- Drop the last memory until the others fit, at most so many times. -/
def trimTo (fits : List Memory → Bool) : ℕ → List Memory → List Memory
  | 0, memories => memories
  | n + 1, memories =>
    if memories.isEmpty || fits memories then memories else trimTo fits n memories.dropLast

/-- The input, and how many tokens it has. -/
def buildModelInput (place : DreamPlace) (kept : List MemoryRecord)
    (conflicts : List MemoryConflict) : DreamModelInput × ℕ :=
  let memories := kept.map fun r ↦ r.memory
  let fits (list : List Memory) : Bool :=
    decide (estimateTokens (serialize place conflicts list) ≤ DREAM_MAX_INPUT_TOKENS)
  let trimmed := trimTo fits memories.length memories
  (⟨trimmed, conflicts, DREAM_MAX_OUTPUT_TOKENS⟩,
    estimateTokens (serialize place conflicts trimmed))

/-! ## What is asked -/

variable (o : RunDreamOptions) (place : DreamPlace)

/-- What the model is shown of what the dream has read. -/
def shown (w : DreamWorld) : List Memory :=
  (buildModelInput place (kept o w)
    (consolidateMemories (w.listed.getD []) o.staleBefore).conflicts).1.memories

/-- **What the model was not shown is still there**, and what was committed has one memory for
each name. -/
structure KeepsUnseen (r : DreamModelResult) (w : DreamWorld) : Prop where
  unseen : ∀ k ∈ kept o w, k.memory ∉ shown o place w → Readable w.dir k.memory
  single : ∀ committed, finalMemories (kept o w) r = some committed →
    ∀ m ∈ committed, ∀ m' ∈ committed, m.name = m'.name → m = m'

/-- The survivor whose text a file has in the end. -/
def lastFor (survivors : List Memory) (entry : Text) : Option Memory :=
  survivors.reverse.find? fun m ↦ fileName m.name = entry

/-- The survivors have the memory: it can be read back from what is written last under its name. -/
def Returned (survivors : List Memory) (m : Memory) : Prop :=
  ∃ s, lastFor survivors (fileName s.name) = some s ∧
    parseMemory (o.redactor.fileText s) = .ok m

/-- The memory stands in a file that the dream has not read, and that no survivor is named after. -/
def Aside (d : Directory) (records : List MemoryRecord) (survivors : List Memory) (m : Memory) :
    Prop :=
  ∃ entry ∈ d.entries, (∀ r ∈ records, r.path ≠ entry) ∧
    (∀ s ∈ survivors, fileName s.name ≠ entry) ∧
    ∃ file ∈ d.lookup entry, parseMemory file.text = .ok m

/-- Two proposals of one name say the same. -/
def MemoryProposal.Agree (p p' : MemoryProposal) : Prop :=
  p.name = p'.name → p.description = p'.description ∧ p.type = p'.type ∧
    stripNewlines p.body = stripNewlines p'.body

/-- The answer leaves out nothing that was not shown, and does not contradict itself. -/
structure Returns (d : Directory) (proposals : List MemoryProposal) (w : DreamWorld) : Prop where
  unseen : ∀ k ∈ kept o w, k.memory ∉ shown o place w →
    ∀ survivors, proposals.mapM MemoryProposal.validate = some survivors →
      Returned o survivors k.memory ∨ Aside d (w.listed.getD []) survivors k.memory
  agree : ∀ p ∈ proposals, ∀ p' ∈ proposals, p.Agree p'

/-! ## The files of a dream alone -/

/-- A step of the dream, whose model gives this answer. -/
def AnsweredWith (r : DreamModelResult) : DreamMove → Prop
  | .dream (.result r') _ => r' = r
  | .dream _ _ => True
  | _ => False

/-- The text of a file. -/
def textOf (d : Directory) (entry : Text) : Option Text := (d.lookup entry).map MemoryFile.text

/-- The text of a file once some files are gone and some survivors are written. -/
def textAfter (d : Directory) (gone : List Text) (done : List Memory) (entry : Text) :
    Option Text :=
  match lastFor done entry with
  | some m => some (o.redactor.fileText m)
  | none => if gone.contains entry then none else textOf d entry

/-- How far a dream alone has got with the files. -/
structure Committing (d : Directory) (r : DreamModelResult) (gone : List Text)
    (done survivors : List Memory) (w : DreamWorld) : Prop where
  listed : ∃ es, es.Sublist d.entries ∧ w.listed = some (recordsOf d es)
  final : finalMemories (kept o w) r = some survivors
  texts : ∀ entry, entry ≠ MEMORY_INDEX_FILENAME →
    textOf w.dir entry = textAfter o d gone done entry

/-- Where a dream alone stands. -/
def Commits (d : Directory) (r : DreamModelResult) (w : DreamWorld) : Prop :=
  match w.stage with
  | .listing => w.dir = d ∧ w.listed = none
  | .reading records todo => Reading d records todo w
  | .stating records entry text todo =>
    Reading d records (entry :: todo) w ∧ ∃ file ∈ d.lookup entry, file.text = text
  | .locking _ | .renewing _ | .summarizing _ =>
    w.dir = d ∧ ∃ es, es.Sublist d.entries ∧ w.listed = some (recordsOf d es)
  | .renewingAgain _ survivors => Committing o d r [] [] survivors w
  | .removing _ paths survivors => ∃ gone, Committing o d r gone [] survivors w ∧
    removed (w.listed.getD []) survivors = gone ++ paths
  | .writing _ step todo survivors => ∃ done,
    Committing o d r (removed (w.listed.getD []) survivors) done survivors w ∧
      -- While the lock is released, the memory has been written.
      survivors = done ++ if step = .releasing then todo.tail else todo
  | .indexing _ _ | .ended (.returned .ok) => ∃ survivors,
    Committing o d r (removed (w.listed.getD []) survivors) survivors survivors w
  | .ended _ => True

variable {o} {d : Directory} {r : DreamModelResult} {w : DreamWorld} {now : Millis}

theorem commits_start (d : Directory) (r : DreamModelResult) : Commits o d r (.start d) :=
  ⟨rfl, rfl⟩

theorem commits_fail (lockError : Bool) (h : Commits o d r w) :
    Commits o d r (fail lockError w) := by
  rw [fail]
  split
  · next hs =>
    rw [Commits, hs] at h
    exact h.skip
  · next hs =>
    rw [Commits, hs] at h
    exact h.1.skip
  · split <;> exact trivial
  · split <;> exact trivial
  · exact trivial
  · exact trivial
  · exact trivial
  · exact trivial
  · exact trivial
  · split
    · exact h
    · exact trivial
  all_goals exact h

theorem Commits.measure {records : List MemoryRecord} (h : Reading d records [] w) :
    Commits o d r (measure o records now w) := by
  obtain ⟨hdir, -, before, es, hentries, hsub, rfl⟩ := h
  rw [Memory.measure]
  split
  · exact trivial
  · rw [List.append_nil] at hentries
    exact ⟨hdir, es, hentries ▸ hsub, rfl⟩

theorem Commits.judge {deadline : Millis} (hdir : w.dir = d)
    (hlisted : ∃ es, es.Sublist d.entries ∧ w.listed = some (recordsOf d es)) :
    Commits o d r (judge o r deadline now w) := by
  rw [Memory.judge]
  split
  · exact trivial
  · next survivors hfinal =>
    split
    · exact trivial
    · exact ⟨hlisted, hfinal, fun entry _ ↦ congrArg (fun d ↦ textOf d entry) hdir⟩

theorem lastFor_concat (done : List Memory) (m : Memory) (entry : Text) :
    lastFor (done ++ [m]) entry =
      if fileName m.name = entry then some m else lastFor done entry := by
  rw [lastFor, List.reverse_append, List.reverse_singleton, List.singleton_append, List.find?_cons]
  by_cases hname : fileName m.name = entry
  · rw [decide_eq_true hname, if_pos hname]
  · rw [decide_eq_false hname, if_neg hname]
    rfl

/-- One more file is removed. -/
theorem Committing.erase {gone : List Text} {survivors : List Memory} {path : Text}
    (h : Committing o d r gone [] survivors w) (stage : DreamStage) :
    Committing o d r (gone ++ [path]) [] survivors
      { w with dir := w.dir.erase path, stage := stage } := by
  refine ⟨h.listed, h.final, fun entry hindex ↦ ?_⟩
  change textOf (w.dir.erase path) entry =
    if (gone ++ [path]).contains entry then none else textOf d entry
  have hold : textOf w.dir entry = if gone.contains entry then none else textOf d entry :=
    h.texts entry hindex
  simp only [List.contains_iff_mem] at hold ⊢
  by_cases hpath : entry = path
  · rw [hpath, if_pos (List.mem_append_right _ (List.mem_singleton.mpr rfl)), textOf,
      AList.lookup_erase, Option.map_none]
  · rw [textOf, AList.lookup_erase_ne hpath, ← textOf, hold]
    refine if_congr ?_ rfl rfl
    rw [List.mem_append, List.mem_singleton, or_iff_left hpath]

/-- One more survivor is written. -/
theorem Committing.insert {gone : List Text} {done survivors : List Memory} {m : Memory}
    (h : Committing o d r gone done survivors w) (stage : DreamStage) :
    Committing o d r gone (done ++ [m]) survivors
      { w with
        dir := w.dir.insert (fileName m.name) ⟨o.redactor.fileText m, now⟩, stage := stage } := by
  refine ⟨h.listed, h.final, fun entry hindex ↦ ?_⟩
  change textOf (w.dir.insert (fileName m.name) ⟨o.redactor.fileText m, now⟩) entry = _
  rw [textAfter, lastFor_concat]
  by_cases hname : fileName m.name = entry
  · rw [if_pos hname, ← hname, textOf, AList.lookup_insert]
    rfl
  · rw [if_neg hname, ← textAfter, textOf, AList.lookup_insert_ne (Ne.symm hname)]
    exact h.texts entry hindex

/-- The index is no memory. -/
theorem Committing.insert_index {gone : List Text} {done survivors : List Memory}
    {file : MemoryFile} (h : Committing o d r gone done survivors w) (stage : DreamStage) :
    Committing o d r gone done survivors
      { w with dir := w.dir.insert MEMORY_INDEX_FILENAME file, stage := stage } := by
  refine ⟨h.listed, h.final, fun entry hindex ↦ ?_⟩
  change textOf (w.dir.insert MEMORY_INDEX_FILENAME file) entry = _
  rw [textOf, AList.lookup_insert_ne hindex]
  exact h.texts entry hindex

/-- Only the files and what was read matter. -/
theorem Committing.setStage {gone : List Text} {done survivors : List Memory}
    (h : Committing o d r gone done survivors w) (stage : DreamStage) :
    Committing o d r gone done survivors (w.setStage stage) := ⟨h.listed, h.final, h.texts⟩

theorem commits_proceed (h : Commits o d r w) : Commits o d r (proceed o now w) := by
  rw [proceed]
  split
  · next hs =>
    rw [Commits, hs] at h
    exact ⟨h.1, h.2, [], [], by rw [h.1]; rfl, List.Sublist.refl _, rfl⟩
  · next hs =>
    rw [Commits, hs] at h
    exact Commits.measure h
  · next hs =>
    rw [Commits, hs] at h
    split
    · next file hfile =>
      rw [h.dir] at hfile
      exact ⟨⟨h.dir, h.listed, h.read⟩, file, hfile, rfl⟩
    · exact h.skip
  · next records entry text todo hs =>
    rw [Commits, hs] at h
    obtain ⟨h, file, hfile, rfl⟩ := h
    split
    · next file' m hfile' hparse =>
      rw [h.dir] at hfile'
      obtain rfl := Option.some.inj (hfile.symm.trans hfile')
      exact h.read_entry hfile hparse
    · exact h.skip
  · next hs =>
    rw [Commits, hs] at h
    exact h
  · next hs =>
    rw [Commits, hs] at h
    split
    · exact trivial
    · exact h
  · exact h
  · next summary survivors hs =>
    rw [Commits, hs] at h
    exact ⟨[], h.setStage _, rfl⟩
  · next summary survivors hs =>
    rw [Commits, hs] at h
    obtain ⟨gone, h, hgone⟩ := h
    rw [List.append_nil] at hgone
    refine ⟨[], ?_, rfl⟩
    change Committing o d r (removed (w.listed.getD []) survivors) [] survivors _
    rw [hgone]
    exact h.setStage _
  · next summary path paths survivors hs =>
    rw [Commits, hs] at h
    obtain ⟨gone, h, hgone⟩ := h
    refine ⟨gone ++ [path], h.erase _, ?_⟩
    rw [List.append_assoc, List.singleton_append]
    exact hgone
  · next summary step survivors hs =>
    rw [Commits, hs] at h
    obtain ⟨done, h, hsurvivors⟩ := h
    have hdone : survivors = done := by
      rw [hsurvivors]
      cases step <;> exact List.append_nil _
    rw [← hdone] at h
    exact ⟨survivors, h.setStage _⟩
  · next summary step m todo survivors hs =>
    rw [Commits, hs] at h
    obtain ⟨done, h, hsurvivors⟩ := h
    cases step with
    | locking => exact ⟨done, h.setStage _, hsurvivors⟩
    | temporary => exact ⟨done, h.setStage _, hsurvivors⟩
    | replacing =>
      refine ⟨done ++ [m], h.insert _, hsurvivors.trans ?_⟩
      rw [List.append_assoc, List.singleton_append]
      rfl
    | releasing => exact ⟨done, h.setStage _, hsurvivors⟩
  · next step content hs =>
    rw [Commits, hs] at h
    obtain ⟨survivors, h⟩ := h
    cases step with
    | replacing => exact ⟨survivors, h.insert_index _⟩
    | _ => exact ⟨survivors, h.setStage _⟩
  · exact h

/-- **Where a dream alone stands**, after any step. -/
theorem commits_dreamMove {move : DreamMove} (h : Commits o d r w) (hr : AnsweredWith r move) :
    Commits o d r (dreamMove o move w) := by
  cases move with
  | call => exact hr.elim
  | step => exact hr.elim
  | dream a now =>
    cases a with
    | done => exact commits_proceed h
    | lockError => exact commits_fail true h
    | threw => exact commits_fail false h
    | result result =>
      obtain rfl : result = r := hr
      change Commits o d result (dreamStep o (.result result) now w)
      unfold dreamStep
      split
      · next hanswer hs =>
        cases hanswer
        rw [Commits, hs] at h
        exact Commits.judge h.1 h.2
      · exact h
      · exact absurd ‹_› (by simp)
      · exact absurd ‹_› (by simp)
      · exact absurd ‹_› (by simp)

theorem commits_run {moves : List DreamMove} (hr : ∀ move ∈ moves, AnsweredWith r move)
    (h : Commits o d r w) : Commits o d r (Run.run (dreamMove o) moves w) := by
  induction moves generalizing w with
  | nil => exact h
  | cons move moves ih =>
    rw [List.forall_mem_cons] at hr
    exact ih hr.2 (commits_dreamMove h hr.1)

/-! ## What is on disk in the end -/

theorem lastFor_eq_none_iff {survivors : List Memory} {entry : Text} :
    lastFor survivors entry = none ↔ ∀ s ∈ survivors, fileName s.name ≠ entry := by
  rw [lastFor, List.find?_eq_none]
  simp

theorem fileName_of_lastFor {survivors : List Memory} {entry : Text} {s : Memory}
    (h : lastFor survivors entry = some s) : fileName s.name = entry := by
  have hname := List.find?_some h
  exact of_decide_eq_true hname

/-- What is removed was read and is named after no survivor. -/
theorem mem_removed_iff {records : List MemoryRecord} {survivors : List Memory} {entry : Text} :
    entry ∈ removed records survivors ↔
      (∃ r ∈ records, r.path = entry) ∧ ∀ s ∈ survivors, fileName s.name ≠ entry := by
  rw [removed, List.mem_filter, List.mem_map, Bool.not_eq_true', ← Bool.not_eq_true,
    List.contains_iff_mem, List.mem_map]
  refine and_congr_right fun _ ↦ ⟨fun h s hs hname ↦ h ⟨s, hs, hname⟩, fun h ↦ ?_⟩
  rintro ⟨s, hs, hname⟩
  exact h s hs hname

theorem textOf_eq_some_iff {text entry : Text} :
    textOf d entry = some text ↔ ∃ file ∈ d.lookup entry, file.text = text :=
  Option.map_eq_some_iff

theorem ne_index_of_isMemoryFile {entry : Text} (h : isMemoryFile entry = true) :
    entry ≠ MEMORY_INDEX_FILENAME := by
  rw [isMemoryFile, Bool.and_eq_true, decide_eq_true_iff] at h
  exact h.2

/-- A file that stands aside is as it was. -/
theorem Committing.textOf_aside {survivors : List Memory}
    (h : Committing o d r (removed (w.listed.getD []) survivors) survivors survivors w)
    {entry : Text} (hfile : isMemoryFile entry = true)
    (hlast : lastFor survivors entry = none) :
    textOf w.dir entry =
      if ∃ r ∈ w.listed.getD [], r.path = entry then none else textOf d entry := by
  rw [h.texts entry (ne_index_of_isMemoryFile hfile), textAfter, hlast]
  refine if_congr ?_ rfl rfl
  rw [List.contains_iff_mem, mem_removed_iff, and_iff_left (lastFor_eq_none_iff.mp hlast)]

/-- **What can be read in the end** is what the survivors have, and what stands aside. -/
theorem Committing.readable_iff {survivors : List Memory}
    (h : Committing o d r (removed (w.listed.getD []) survivors) survivors survivors w)
    (m : Memory) :
    Readable w.dir m ↔ Returned o survivors m ∨ Aside d (w.listed.getD []) survivors m := by
  constructor
  · rintro ⟨entry, hentry, file, hfile, hparse⟩
    have hmemory := (mem_entries.mp hentry).2
    have htext := textOf_eq_some_iff.mpr ⟨file, hfile, rfl⟩
    cases hlast : lastFor survivors entry with
    | some s =>
      refine .inl ⟨s, ?_, ?_⟩
      · rw [fileName_of_lastFor hlast, hlast]
      · rw [h.texts entry (ne_index_of_isMemoryFile hmemory), textAfter, hlast] at htext
        rwa [Option.some.inj htext]
    | none =>
      rw [h.textOf_aside hmemory hlast] at htext
      split at htext
      · cases htext
      · next hread =>
        obtain ⟨old, hold, heq⟩ := textOf_eq_some_iff.mp htext
        refine .inr ⟨entry, mem_entries_of_lookup hold hmemory, fun r hr hpath ↦ ?_,
          lastFor_eq_none_iff.mp hlast, old, hold, by rwa [heq]⟩
        exact hread ⟨r, hr, hpath⟩
  · rintro (⟨s, hlast, hparse⟩ | ⟨entry, hentry, hread, hnames, file, hfile, hparse⟩)
    · have htext := h.texts (fileName s.name) s.fileName_ne_index
      rw [textAfter, hlast] at htext
      obtain ⟨file, hfile, heq⟩ := textOf_eq_some_iff.mp htext
      exact ⟨_, mem_entries_of_lookup hfile s.isMemoryFile_fileName, file, hfile, by rwa [heq]⟩
    · have hmemory := (mem_entries.mp hentry).2
      have hunread : ¬ ∃ r ∈ w.listed.getD [], r.path = entry := by
        rintro ⟨r, hr, hpath⟩
        exact hread r hr hpath
      have htext := h.textOf_aside hmemory (lastFor_eq_none_iff.mpr hnames)
      rw [if_neg hunread, textOf_eq_some_iff.mpr ⟨file, hfile, rfl⟩] at htext
      obtain ⟨file', hfile', heq⟩ := textOf_eq_some_iff.mp htext
      exact ⟨entry, mem_entries_of_lookup hfile' hmemory, file', hfile', by rwa [heq]⟩

/-! ## Proposals of one name -/

theorem MemoryType.text_injective : Function.Injective MemoryType.text := by
  intro type type' h
  have hback := congrArg MemoryType.ofText h
  rw [MemoryType.ofText_text, MemoryType.ofText_text] at hback
  exact Option.some.inj hback

theorem of_safeParse {name description type : Text} {f : MemoryFrontmatter}
    (h : safeParse name description type = some f) :
    f.name = name ∧ f.description = description ∧ f.type.text = type := by
  rw [safeParse] at h
  split at h
  · cases h
  · next type' htype =>
    have htext := List.find?_some htype
    split at h
    · split at h
      · cases h
        exact ⟨rfl, rfl, of_decide_eq_true htext⟩
      · cases h
    · cases h

/-- A proposal is validated as it is, but for the newlines at its end. -/
theorem of_validate {p : MemoryProposal} {m : Memory} (h : p.validate = some m) :
    m.name = p.name ∧ m.description = p.description ∧ m.type.text = p.type ∧
      m.body = stripNewlines p.body := by
  obtain ⟨f, hf, rfl⟩ := Option.map_eq_some_iff.mp h
  obtain ⟨hname, hdescription, htype⟩ := of_safeParse hf
  exact ⟨hname, hdescription, htype, rfl⟩

theorem memory_eq_of_fields {m m' : Memory} (hname : m.name = m'.name)
    (hdescription : m.description = m'.description) (htype : m.type = m'.type)
    (hbody : m.body = m'.body) : m = m' := by
  obtain ⟨⟨name, description, type, hn, hd⟩, body⟩ := m
  obtain ⟨⟨name', description', type', hn', hd'⟩, body'⟩ := m'
  obtain rfl : name = name' := hname
  obtain rfl : description = description' := hdescription
  obtain rfl : type = type' := htype
  obtain rfl : body = body' := hbody
  rfl

/-- Proposals agree if what they are validated to does. -/
theorem agree_iff {p p' : MemoryProposal} {m m' : Memory} (h : p.validate = some m)
    (h' : p'.validate = some m') : p.Agree p' ↔ (m.name = m'.name → m = m') := by
  obtain ⟨hname, hdescription, htype, hbody⟩ := of_validate h
  obtain ⟨hname', hdescription', htype', hbody'⟩ := of_validate h'
  rw [MemoryProposal.Agree, ← hname, ← hname', ← hdescription, ← hdescription', ← htype, ← htype',
    ← hbody, ← hbody']
  refine imp_congr_right fun hsame ↦ ⟨?_, ?_⟩
  · rintro ⟨hdesc, htext, htail⟩
    exact memory_eq_of_fields hsame hdesc (MemoryType.text_injective htext) htail
  · rintro rfl
    exact ⟨rfl, rfl, rfl⟩

theorem forall₂_validate {proposals : List MemoryProposal} {survivors : List Memory}
    (h : proposals.mapM MemoryProposal.validate = some survivors) :
    List.Forall₂ (fun p m ↦ p.validate = some m) proposals survivors := by
  induction proposals generalizing survivors with
  | nil =>
    rw [List.mapM_nil] at h
    cases h
    exact .nil
  | cons p proposals ih =>
    rw [List.mapM_cons] at h
    obtain ⟨m, hm, hrest⟩ := Option.bind_eq_some_iff.mp h
    obtain ⟨ms, hms, heq⟩ := Option.bind_eq_some_iff.mp hrest
    cases heq
    exact .cons hm (ih hms)

/-- **The proposals agree** if and only if the survivors have one memory for each name. -/
theorem forall_agree_iff {proposals : List MemoryProposal} {survivors : List Memory}
    (h : proposals.mapM MemoryProposal.validate = some survivors) :
    (∀ p ∈ proposals, ∀ p' ∈ proposals, p.Agree p') ↔
      ∀ m ∈ survivors, ∀ m' ∈ survivors, m.name = m'.name → m = m' := by
  have hall := forall₂_validate h
  constructor
  · intro hagree m hm m' hm'
    obtain ⟨p, hp, hvalid⟩ := exists_of_forall₂ hall.flip hm
    obtain ⟨p', hp', hvalid'⟩ := exists_of_forall₂ hall.flip hm'
    exact (agree_iff hvalid hvalid').mp (hagree p hp p' hp')
  · intro hsingle p hp p' hp'
    obtain ⟨m, hm, hvalid⟩ := exists_of_forall₂ hall hp
    obtain ⟨m', hm', hvalid'⟩ := exists_of_forall₂ hall hp'
    exact (agree_iff hvalid hvalid').mpr (hsingle m hm m' hm')

/-! ## The rewrite -/

/-- **A memory that the model was not shown is still there**, and no two committed memories of one
name differ, if and only if the answer has it as it was, or it stands in a file of its own, and
the answer does not contradict itself. -/
theorem keepsUnseen_iff (o : RunDreamOptions) (place : DreamPlace) (d : Directory)
    (r : DreamModelResult) (proposals : List MemoryProposal) (moves : List DreamMove)
    (hproposals : r.memories = some proposals) (hr : ∀ move ∈ moves, AnsweredWith r move)
    (hend : (Run.run (dreamMove o) moves (.start d)).stage = .ended (.returned .ok)) :
    KeepsUnseen o place r (Run.run (dreamMove o) moves (.start d)) ↔
      Returns o place d proposals (Run.run (dreamMove o) moves (.start d)) := by
  have hrun := commits_run (o := o) hr (commits_start d r)
  generalize Run.run (dreamMove o) moves (.start d) = w at hrun hend ⊢
  rw [Commits, hend] at hrun
  obtain ⟨survivors, h⟩ := hrun
  have hfinal : finalMemories (kept o w) r = proposals.mapM MemoryProposal.validate := by
    rw [finalMemories, hproposals]
  have hvalid := hfinal.symm.trans h.final
  constructor
  · rintro ⟨hunseen, hsingle⟩
    refine ⟨fun k hk hcut survivors' hvalid' ↦ ?_, ?_⟩
    · obtain rfl := Option.some.inj (hvalid.symm.trans hvalid')
      exact (h.readable_iff k.memory).mp (hunseen k hk hcut)
    · exact (forall_agree_iff hvalid).mpr (hsingle survivors h.final)
  · rintro ⟨hunseen, hagree⟩
    refine ⟨fun k hk hcut ↦ ?_, fun committed hcommitted ↦ ?_⟩
    · exact (h.readable_iff k.memory).mpr (hunseen k hk hcut survivors hvalid)
    · obtain rfl := Option.some.inj (h.final.symm.trans hcommitted)
      exact (forall_agree_iff hvalid).mp hagree

/-- The dream has committed. -/
def DreamStage.isCommitted : DreamStage → Bool
  | .ended (.returned .ok) => true
  | _ => false

theorem DreamStage.isCommitted_iff {stage : DreamStage} :
    stage.isCommitted = true ↔ stage = .ended (.returned .ok) := by
  rw [DreamStage.isCommitted.eq_def]
  split
  · exact iff_of_true rfl rfl
  · next hne => exact iff_of_false Bool.false_ne_true hne

/-- Ten memories, each in a file of its name. -/
private def tenMemories : Directory :=
  ["a", "b", "c", "d", "e", "f", "g", "h", "i", "j"].foldr (fun name d ↦
    d.insert (fileName (ofString name)) ⟨ofString ("---
name: " ++ name ++ "
description: note
type: user
---
"), 0⟩) ∅

private def rewritten (bodies : List String) : List MemoryProposal :=
  bodies.map fun body ↦ ⟨ofString "a", ofString "note", ofString "user", ofString body⟩

/-- The dream of the ten memories, until it has written the answer and the index. -/
private def rewriting (bodies : List String) : List DreamMove :=
  List.replicate 24 (.dream .done 0) ++
    .dream (.result ⟨[], some (rewritten bodies)⟩) 0 :: List.replicate 24 (.dream .done 0)

private theorem answeredWith_rewriting (bodies : List String) :
    ∀ move ∈ rewriting bodies, AnsweredWith ⟨[], some (rewritten bodies)⟩ move := by
  simp [rewriting, AnsweredWith]

private def afterRewriting (bodies : List String) : DreamWorld :=
  Run.run (dreamMove ⟨.none, ⟨0, none⟩, none⟩) (rewriting bodies) (.start tenMemories)

/-- The model was shown all the ten, and makes one of them. -/
theorem keepsUnseen_tenMemories :
    KeepsUnseen ⟨.none, ⟨0, none⟩, none⟩ ⟨[], id⟩ ⟨[], some (rewritten ["all"])⟩
      (afterRewriting ["all"]) := by
  have hend : (afterRewriting ["all"]).stage.isCommitted = true := by
    simp only [afterRewriting, tenMemories, ofString, String.toList_append, String.reduceToList]
    decide +kernel
  have hshown : ∀ k ∈ kept ⟨.none, ⟨0, none⟩, none⟩ (afterRewriting ["all"]),
      k.memory ∈ shown ⟨.none, ⟨0, none⟩, none⟩ ⟨[], id⟩ (afterRewriting ["all"]) := by
    simp only [afterRewriting, tenMemories, ofString, String.toList_append, String.reduceToList]
    decide +kernel
  refine (keepsUnseen_iff ⟨.none, ⟨0, none⟩, none⟩ ⟨[], id⟩ tenMemories
    ⟨[], some (rewritten ["all"])⟩ (rewritten ["all"]) (rewriting ["all"]) rfl
    (answeredWith_rewriting ["all"]) (DreamStage.isCommitted_iff.mp hend)).mpr
    ⟨fun k hk hcut ↦ absurd (hshown k hk) hcut, fun p hp p' hp' ↦ ?_⟩
  obtain rfl := List.mem_singleton.mp hp
  obtain rfl := List.mem_singleton.mp hp'
  exact fun _ ↦ ⟨rfl, rfl, rfl⟩

/-- **Two memories of one name are committed**, of which the second is written over the first. -/
theorem not_keepsUnseen_two : ¬∀ (o : RunDreamOptions) (place : DreamPlace) (d : Directory)
    (r : DreamModelResult) (proposals : List MemoryProposal) (moves : List DreamMove),
    r.memories = some proposals → (∀ move ∈ moves, AnsweredWith r move) →
    (Run.run (dreamMove o) moves (.start d)).stage = .ended (.returned .ok) →
    KeepsUnseen o place r (Run.run (dreamMove o) moves (.start d)) := by
  intro h
  have hend : (afterRewriting ["this", "that"]).stage.isCommitted = true := by
    simp only [afterRewriting, tenMemories, ofString, String.toList_append, String.reduceToList]
    decide +kernel
  have hkeeps := h ⟨.none, ⟨0, none⟩, none⟩ ⟨[], id⟩ tenMemories _ (rewritten ["this", "that"])
    (rewriting ["this", "that"]) rfl (answeredWith_rewriting _) (DreamStage.isCommitted_iff.mp hend)
  have hvalid : ((rewritten ["this", "that"]).mapM MemoryProposal.validate).isSome = true := by
    simp only [rewritten, ofString, String.reduceToList]
    decide +kernel
  obtain ⟨survivors, hsurvivors⟩ := Option.isSome_iff_exists.mp hvalid
  have hagree := (forall_agree_iff hsurvivors).mpr (hkeeps.single survivors hsurvivors)
  have hsame := hagree _ List.mem_cons_self _ (List.mem_cons_of_mem _ List.mem_cons_self) rfl
  exact absurd hsame.2.2 (by decide)

end QwenHarness.Memory
