import Mathlib.Data.List.AList
import Mathlib.Data.Rat.Lemmas
import QwenHarness.Memory.Consolidation
import QwenHarness.Run.Along

/-!
# The dream

A dream reads the memories of a directory, asks a model for a summary of them, and writes back the
ones it keeps: it removes every file it has read that is not named after one of them, rewrites them
one by one, and writes the index last. Every call it awaits may throw, and other writers may write
to the same directory between any two of its steps. A step says what the program does once the call
it awaits has been answered.

What a lock file answers is up to the environment here: the lock of a file is taken for one write,
and the lock of the dream is known to dreams only.
-/

namespace QwenHarness.Memory

open Utf16

/-! ## The directory -/

structure MemoryFile where
  text : Text
  mtime : Millis
deriving DecidableEq

/-- The files of a directory by name. Temporary files and lock files have names of their own and
are no memories; they are left out. -/
abbrev Directory := AList fun _ : Text ↦ MemoryFile

def MEMORY_INDEX_FILENAME : Text := ofString "MEMORY.md"

def markdownSuffix : Text := ofString ".md"

/-- The file a memory of this name is written to. -/
def fileName (name : Text) : Text := name ++ markdownSuffix

def isMemoryFile (entry : Text) : Bool :=
  markdownSuffix.isSuffixOf entry && decide (entry ≠ MEMORY_INDEX_FILENAME)

/-- What `listMemories` goes through. -/
def Directory.entries (d : Directory) : List Text :=
  (d.keys.insertionSort (· ≤ ·)).filter isMemoryFile

/-- What the store does to a text before it writes it. It puts a marker where it takes something
out, and no name holds the marker; so a memory that can still be read has the name it had. -/
structure StoreRedactor where
  redact : Text → Text
  keepsName : ∀ m m' : Memory, parseMemory (redact (serializeMemory m)) = .ok m' → m'.name = m.name

/-- A store without a redactor. -/
def StoreRedactor.none : StoreRedactor where
  redact := id
  keepsName m m' h := by
    rw [id, parseMemory_serializeMemory] at h
    cases h
    rfl

/-- What `writeMemory` puts into the file. -/
def StoreRedactor.fileText (r : StoreRedactor) (m : Memory) : Text := r.redact (serializeMemory m)

/-! ## The run -/

structure MemoryProposal where
  name : Text
  description : Text
  type : Text
  body : Text

/-- What the model returns: a summary and, if it likes, another memory set. -/
structure DreamModelResult where
  summary : Text
  memories : Option (List MemoryProposal)

inductive DreamOutcomeReason
  | ineligible (reason : DreamIneligibleReason)
  | ok
  | schemaCheckFailed
  | wallTimeExceeded
  | leaseLost
  | lockUnavailable
deriving DecidableEq

inductive DreamOutcome
  | returned (reason : DreamOutcomeReason)
  | threw
deriving DecidableEq

structure RunDreamOptions where
  redactor : StoreRedactor
  state : DreamState
  staleBefore : Option Millis

/-- Where a write of a file stands. -/
inductive WriteStep
  | locking
  | temporary
  | replacing
  | releasing
deriving DecidableEq

/-- What a dream awaits, with what it has in hand. -/
inductive DreamStage
  | listing
  | reading (records : List MemoryRecord) (todo : List Text)
  | stating (records : List MemoryRecord) (entry text : Text) (todo : List Text)
  | locking (deadline : Millis)
  | renewing (deadline : Millis)
  | summarizing (deadline : Millis)
  | renewingAgain (summary : Text) (memories : List Memory)
  | removing (summary : Text) (paths : List Text) (memories : List Memory)
  | writing (summary : Text) (step : WriteStep) (todo memories : List Memory)
  | indexing (step : WriteStep) (content : Text)
  | ended (outcome : DreamOutcome)

def DreamStage.isEnded : DreamStage → Bool
  | .ended _ => true
  | _ => false

/-- How an awaited call is answered. -/
inductive Answer
  | done
  /-- A `MemoryLockError` is thrown. -/
  | lockError
  /-- Anything else is thrown. -/
  | threw
  | result (r : DreamModelResult)

/-- A call of `writeMemory` by another writer. A memory that does not satisfy the schema is refused
before anything is done, and is no call. -/
inductive CallState
  | running (step : WriteStep)
  | returned
  | threw
deriving DecidableEq

def CallState.isRunning : CallState → Bool
  | .running _ => true
  | _ => false

structure WriteCall where
  memory : Memory
  state : CallState
deriving DecidableEq

/-- The directory with the dream and the other writers. The last two fields are known to nobody. -/
structure DreamWorld where
  dir : Directory
  stage : DreamStage
  /-- What `listMemories` has returned to the dream. -/
  listed : Option (List MemoryRecord)
  calls : List WriteCall
  /-- The call of another writer that was the last to put its file under the name. -/
  last : Text → Option ℕ
  /-- The calls that had ended when the dream read the directory. -/
  ended : Option (List ℕ)

/-- A dream that is called. -/
def DreamWorld.start (d : Directory) : DreamWorld :=
  ⟨d, .listing, none, [], fun _ ↦ none, none⟩

/-! ## The steps of the dream -/

/-- How much there is to consolidate. -/
def candidates (records : List MemoryRecord) : DreamCandidateSummary :=
  ⟨records.length, (records.map fun r ↦ (bytes r.memory.body).length).sum⟩

/-- `MemoryFrontmatterSchema.safeParse` of a proposal, and its body. -/
def MemoryProposal.validate (p : MemoryProposal) : Option Memory :=
  (safeParse p.name p.description p.type).map fun frontmatter ↦
    { frontmatter with body := stripNewlines p.body }

/-- The final memory set: what the model has rewritten, or what is kept. -/
def finalMemories (kept : List MemoryRecord) (r : DreamModelResult) : Option (List Memory) :=
  match r.memories with
  | some proposals => proposals.mapM MemoryProposal.validate
  | none => some (kept.map fun r ↦ r.memory)

/-- The files that were read and are not named after a survivor. -/
def removed (records : List MemoryRecord) (survivors : List Memory) : List Text :=
  (records.map fun r ↦ r.path).filter fun path ↦
    !(survivors.map fun m ↦ fileName m.name).contains path

/-- No more bytes than so many tokens have. -/
def capTokens (text : Text) (maxTokens : ℕ) : Text :=
  if estimateTokens text ≤ maxTokens then text
  else ofChars (Utf8.decode ((bytes text).take (maxTokens * 4)))

/-- The content of the index. -/
def buildIndex (memories : List Memory) (summary : Text) : Text :=
  let heading := [ofString "# Memory index", []]
  let paragraph := if trim summary ≠ [] then [trim summary, []] else []
  let list :=
    if memories.isEmpty then [ofString "_No memories yet._", []]
    else memories.map (fun m ↦ ofString "- **" ++ m.name ++ ofString "** (" ++ m.type.text ++
      ofString "): " ++ m.description) ++ [[]]
  [newline].intercalate (heading ++ paragraph ++ list)

namespace DreamWorld

variable (o : RunDreamOptions) (w : DreamWorld)

def setStage (stage : DreamStage) : DreamWorld := { w with stage := stage }

def finish (outcome : DreamOutcome) : DreamWorld := w.setStage (.ended outcome)

def returns (reason : DreamOutcomeReason) : DreamWorld := w.finish (.returned reason)

def throws : DreamWorld := w.finish .threw

end DreamWorld

variable (o : RunDreamOptions)

/-- The directory is read, and the calls that have ended by now are noted. -/
def readDirectory (w : DreamWorld) : DreamWorld :=
  { w with
    stage := .reading [] w.dir.entries
    ended := some ((List.range w.calls.length).filter fun i ↦
      !w.calls[i]?.any fun c ↦ c.state.isRunning) }

/-- Everything has been read. The gates, at the time `now`. -/
def measure (records : List MemoryRecord) (now : Millis) (w : DreamWorld) : DreamWorld :=
  match isDreamEligible o.state (candidates records) now with
  | some reason => w.returns (.ineligible reason)
  | none => { w with stage := .locking (now + DREAM_WALL_MS), listed := some records }

/-- What `consolidateMemories` keeps of what the dream has read. -/
def kept (w : DreamWorld) : List MemoryRecord :=
  (consolidateMemories (w.listed.getD []) o.staleBefore).kept

/-- The model has answered. Its memory set has to satisfy the schema, and the deadline is checked
once more. -/
def judge (r : DreamModelResult) (deadline now : Millis) (w : DreamWorld) : DreamWorld :=
  match finalMemories (kept o w) r with
  | none => w.returns .schemaCheckFailed
  | some memories =>
    if deadline < now then w.returns .wallTimeExceeded
    else w.setStage (.renewingAgain (capTokens r.summary DREAM_MAX_OUTPUT_TOKENS) memories)

/-- The next of `writeMemory`, for a file and its text: what becomes of the directory, and the
step after it, if there is one. -/
def advanceWrite (path text : Text) (now : Millis) (d : Directory) :
    WriteStep → Directory × Option WriteStep
  | .locking => (d, some .temporary)
  | .temporary => (d, some .replacing)
  | .replacing => (d.insert path ⟨text, now⟩, some .releasing)
  -- `release` throws nothing.
  | .releasing => (d, none)

/-- The dream goes on after the call it awaits has returned. -/
def proceed (now : Millis) (w : DreamWorld) : DreamWorld :=
  match w.stage with
  | .listing => readDirectory w
  | .reading records [] => measure o records now w
  | .reading records (entry :: todo) =>
    match w.dir.lookup entry with
    | some file => w.setStage (.stating records entry file.text todo)
    | none => w.setStage (.reading records todo)
  | .stating records entry text todo =>
    match w.dir.lookup entry, parseMemory text with
    | some file, .ok m => w.setStage (.reading (records ++ [⟨m, entry, file.mtime⟩]) todo)
    | _, _ => w.setStage (.reading records todo)
  | .locking deadline => w.setStage (.renewing deadline)
  | .renewing deadline =>
    if deadline < now then w.returns .wallTimeExceeded else w.setStage (.summarizing deadline)
  | .summarizing _ => w
  | .renewingAgain summary memories =>
    w.setStage (.removing summary (removed (w.listed.getD []) memories) memories)
  | .removing summary [] memories => w.setStage (.writing summary .locking memories memories)
  | .removing summary (path :: paths) memories =>
    { w with dir := w.dir.erase path, stage := .removing summary paths memories }
  | .writing summary _ [] memories =>
    w.setStage (.indexing .temporary (o.redactor.redact (buildIndex memories summary)))
  | .writing summary step (m :: todo) memories =>
    let (dir, next) := advanceWrite (fileName m.name) (o.redactor.fileText m) now w.dir step
    match next with
    | some step => { w with dir := dir, stage := .writing summary step (m :: todo) memories }
    | none => { w with dir := dir, stage := .writing summary .locking todo memories }
  | .indexing step content =>
    let (dir, next) := advanceWrite MEMORY_INDEX_FILENAME content now w.dir step
    match next with
    | some .replacing => { w with dir := dir, stage := .indexing .replacing content }
    | _ => { w with dir := dir, stage := .ended (.returned .ok) }
  | .ended _ => w

/-- The call the dream awaits has thrown. An entry that cannot be read is left out, and a lock that
is not to be had ends the dream; anything else is thrown on, once the lock is released. -/
def fail (lockError : Bool) (w : DreamWorld) : DreamWorld :=
  match w.stage with
  | .reading records (_ :: todo) => w.setStage (.reading records todo)
  | .stating records _ _ todo => w.setStage (.reading records todo)
  | .locking _ => if lockError then w.returns .lockUnavailable else w.throws
  | .renewingAgain _ _ => if lockError then w.returns .leaseLost else w.throws
  | .listing | .renewing _ | .summarizing _ | .removing _ (_ :: _) _ | .indexing _ _ => w.throws
  | .writing _ step (_ :: _) _ =>
    match step with
    | .releasing => w
    | _ => w.throws
  -- Nothing is awaited there.
  | .reading _ [] | .removing _ [] _ | .writing _ _ [] _ | .ended _ => w

/-- The next step of the dream. -/
def dreamStep (a : Answer) (now : Millis) (w : DreamWorld) : DreamWorld :=
  match a, w.stage with
  | .result r, .summarizing deadline => judge o r deadline now w
  | .result _, _ => w
  | .done, _ => proceed o now w
  | .lockError, _ => fail true w
  | .threw, _ => fail false w

/-! ## Other writers -/

def WriteCall.fileText (c : WriteCall) : Text := o.redactor.fileText c.memory

/-- The next step of a call of `writeMemory`, if what it awaits returns (`ok`) or throws. -/
def callStep (i : ℕ) (ok : Bool) (now : Millis) (w : DreamWorld) : DreamWorld :=
  match w.calls[i]? with
  | some ⟨m, .running step⟩ =>
    if !ok && decide (step ≠ .releasing) then
      { w with calls := w.calls.set i ⟨m, .threw⟩ }
    else
      let path := fileName m.name
      let (dir, next) := advanceWrite path (o.redactor.fileText m) now w.dir step
      { w with
        dir := dir
        last := if step = .replacing then Function.update w.last path (some i) else w.last
        calls := w.calls.set i ⟨m, match next with
          | some step => .running step
          | none => .returned⟩ }
  | _ => w

inductive DreamMove
  | dream (a : Answer) (now : Millis)
  /-- Another writer calls `writeMemory`. -/
  | call (m : Memory)
  | step (i : ℕ) (ok : Bool) (now : Millis)

def dreamMove : DreamMove → DreamWorld → DreamWorld
  | .dream a now, w => dreamStep o a now w
  | .call m, w => { w with calls := w.calls ++ [⟨m, .running .locking⟩] }
  | .step i ok now, w => callStep o i ok now w

/-! ## What a step touches -/

/-- The file that a step of the dream removes or replaces. -/
def touched : Answer → DreamStage → Option Text
  | .done, .removing _ (path :: _) _ => some path
  | .done, .writing _ .replacing (m :: _) _ => some (fileName m.name)
  | .done, .indexing .replacing _ => some MEMORY_INDEX_FILENAME
  | _, _ => none

section Steps

variable {o} {a : Answer} {now : Millis} {w : DreamWorld}

theorem lookup_advanceWrite {path path' text : Text} {d : Directory} {step : WriteStep}
    (h : step = .replacing → path' ≠ path) :
    (advanceWrite path text now d step).1.lookup path' = d.lookup path' := by
  cases step with
  | replacing => exact AList.lookup_insert_ne (h rfl)
  | _ => rfl

theorem dir_fail (lockError : Bool) : (fail lockError w).dir = w.dir := by
  rw [fail]
  repeat' split
  all_goals rfl

theorem dir_measure (records : List MemoryRecord) : (measure o records now w).dir = w.dir := by
  rw [measure]
  split <;> rfl

theorem dir_judge (r : DreamModelResult) (deadline : Millis) :
    (judge o r deadline now w).dir = w.dir := by
  rw [judge]
  repeat' split
  all_goals rfl

/-- **A step leaves every other file as it is.** -/
theorem lookup_dreamStep {path : Text} (h : touched a w.stage ≠ some path) :
    (dreamStep o a now w).dir.lookup path = w.dir.lookup path := by
  cases a with
  | lockError => exact congrArg (AList.lookup path) (dir_fail true)
  | threw => exact congrArg (AList.lookup path) (dir_fail false)
  | result r =>
    unfold dreamStep
    split
    · exact congrArg (AList.lookup path) (dir_judge _ _)
    · rfl
    · exact absurd ‹_› (by simp)
    · exact absurd ‹_› (by simp)
    · exact absurd ‹_› (by simp)
  | done =>
    change (proceed o now w).dir.lookup path = _
    rw [proceed]
    split
    · rfl
    · exact congrArg (AList.lookup path) (dir_measure _)
    · split <;> rfl
    · split <;> rfl
    · rfl
    · split <;> rfl
    · rfl
    · rfl
    · rfl
    · next hstage =>
      rw [hstage, touched] at h
      exact AList.lookup_erase_ne fun heq ↦ h (congrArg some heq.symm)
    · rfl
    · next summary step m todo memories hstage =>
      have hne : step = .replacing → path ≠ fileName m.name := by
        rintro rfl rfl
        rw [hstage, touched] at h
        exact h rfl
      dsimp only
      split <;> exact lookup_advanceWrite hne
    · next step content hstage =>
      have hne : step = .replacing → path ≠ MEMORY_INDEX_FILENAME := by
        rintro rfl rfl
        rw [hstage, touched] at h
        exact h rfl
      dsimp only
      split <;> exact lookup_advanceWrite hne
    · rfl

/-- Whether the dream has read the directory, where it still matters. -/
def Begun (w : DreamWorld) : Prop :=
  match w.stage with
  | .listing => w.ended = none
  | .ended _ => True
  | _ => w.ended ≠ none

/-- What a step of the dream leaves of the other writers, and what it knows of them. -/
structure Onward (w w' : DreamWorld) : Prop where
  last : w'.last = w.last
  calls : w'.calls = w.calls
  begun : Begun w → Begun w'
  ended : w.stage ≠ .listing → w'.ended = w.ended

theorem Onward.refl (w : DreamWorld) : Onward w w := ⟨rfl, rfl, id, fun _ ↦ rfl⟩

theorem onward_finish (outcome : DreamOutcome) : Onward w (w.finish outcome) :=
  ⟨rfl, rfl, fun _ ↦ trivial, fun _ ↦ rfl⟩

/-- A stage that is neither the first nor the last. -/
def Midway : DreamStage → Prop
  | .listing | .ended _ => False
  | _ => True

theorem begun_iff_of_midway (h : Midway w.stage) : Begun w ↔ w.ended ≠ none := by
  rw [Begun]
  split
  · next hs => rw [hs] at h; exact h.elim
  · next hs => rw [hs] at h; exact h.elim
  · exact Iff.rfl

theorem onward_of_midway {w' : DreamWorld} (h : Midway w.stage) (h' : Midway w'.stage)
    (hlast : w'.last = w.last) (hcalls : w'.calls = w.calls) (hended : w'.ended = w.ended) :
    Onward w w' := by
  refine ⟨hlast, hcalls, ?_, fun _ ↦ hended⟩
  rw [begun_iff_of_midway h, begun_iff_of_midway h', hended]
  exact id

theorem onward_measure (records : List MemoryRecord) (h : Midway w.stage) :
    Onward w (measure o records now w) := by
  rw [measure]
  split
  · exact onward_finish _
  · exact onward_of_midway h trivial rfl rfl rfl

theorem onward_judge (r : DreamModelResult) (deadline : Millis) (h : Midway w.stage) :
    Onward w (judge o r deadline now w) := by
  rw [judge]
  split
  · exact onward_finish _
  · split
    · exact onward_finish _
    · exact onward_of_midway h trivial rfl rfl rfl

theorem onward_fail (lockError : Bool) : Onward w (fail lockError w) := by
  rw [fail]
  repeat' split
  all_goals
    first
      | exact onward_finish _
      | exact Onward.refl w
      | exact onward_of_midway (by rw [‹w.stage = _›]; trivial) trivial rfl rfl rfl

theorem onward_proceed : Onward w (proceed o now w) := by
  rw [proceed]
  split
  · next hs => exact ⟨rfl, rfl, fun _ ↦ Option.some_ne_none _, fun h ↦ absurd hs h⟩
  · next hs => exact onward_measure _ (by rw [hs]; trivial)
  all_goals
    first
      | exact Onward.refl w
      | skip
  all_goals
    have hmid : Midway w.stage := by rw [‹w.stage = _›]; trivial
    repeat' split
  all_goals
    first
      | exact onward_of_midway hmid trivial rfl rfl rfl
      | exact ⟨rfl, rfl, fun _ ↦ trivial, fun _ ↦ rfl⟩

theorem onward_dreamStep (a : Answer) (now : Millis) (w : DreamWorld) :
    Onward w (dreamStep o a now w) := by
  cases a with
  | lockError => exact onward_fail true
  | threw => exact onward_fail false
  | done => exact onward_proceed
  | result r =>
    unfold dreamStep
    split
    · next hs => exact onward_judge _ _ (by rw [hs]; trivial)
    · exact Onward.refl w
    · exact absurd ‹_› (by simp)
    · exact absurd ‹_› (by simp)
    · exact absurd ‹_› (by simp)

/-- A step that touches a file is made after the directory has been read. -/
theorem midway_of_touched {path : Text} (h : touched a w.stage = some path) : Midway w.stage := by
  cases hs : w.stage with
  | listing => rw [hs] at h; cases a <;> cases h
  | ended => rw [hs] at h; cases a <;> cases h
  | _ => trivial

end Steps

end QwenHarness.Memory

/-!
## Writes while a dream runs

A dream removes and rewrites the files it has read, and takes no lock that would keep another writer
from them in the meantime. So a memory that is written while the dream waits for its model may be
removed, or replaced by what the dream has read before. No write is lost as long as the dream does
not touch a file that was written since: `upToDate_of_spares`.
-/

namespace QwenHarness.Memory

open Utf16

variable (o : RunDreamOptions)

/-- A call that had not ended when the dream read the directory. -/
def Late (w : DreamWorld) (i : ℕ) : Prop := ∃ es ∈ w.ended, i ∉ es

/-- The file holds what the call writes. -/
def OnDisk (w : DreamWorld) (path : Text) (c : WriteCall) : Prop :=
  ∃ file ∈ w.dir.lookup path, file.text = c.fileText o

/-- **No write is lost.** What was written under a name last, by a call that had not ended when the
dream read the directory, is on disk. -/
def UpToDate (w : DreamWorld) : Prop :=
  ∀ path, ∀ i ∈ w.last path, Late w i → ∀ c ∈ w.calls[i]?, OnDisk o w path c

/-- The dream and all calls have ended. -/
def Finished (w : DreamWorld) : Prop :=
  w.stage.isEnded = true ∧ ∀ c ∈ w.calls, c.state.isRunning = false

/-- The dream touches no file that such a call has written. -/
def Spares : DreamMove → DreamWorld → Prop
  | .dream a _, w => ∀ path ∈ touched a w.stage, ∀ i ∈ w.last path, ¬ Late w i
  | _, _ => True

instance (w : DreamWorld) (i : ℕ) : Decidable (Late w i) :=
  inferInstanceAs (Decidable (∃ es ∈ w.ended, i ∉ es))

instance (w : DreamWorld) (path : Text) (c : WriteCall) : Decidable (OnDisk o w path c) :=
  inferInstanceAs (Decidable (∃ file ∈ w.dir.lookup path, file.text = c.fileText o))

instance (w : DreamWorld) : Decidable (Finished w) :=
  inferInstanceAs (Decidable (w.stage.isEnded = true ∧ ∀ c ∈ w.calls, c.state.isRunning = false))

instance : ∀ move w, Decidable (Spares move w)
  | .dream a _, w =>
    inferInstanceAs (Decidable (∀ path ∈ touched a w.stage, ∀ i ∈ w.last path, ¬ Late w i))
  | .call _, _ => .isTrue trivial
  | .step _ _ _, _ => .isTrue trivial

/-! ## The invariant -/

/-- What is known in every state of a run. -/
structure Tracked (w : DreamWorld) : Prop where
  begun : Begun w
  /-- A file is written by calls for a memory of its name. -/
  written : ∀ path, ∀ i ∈ w.last path, ∃ c ∈ w.calls[i]?, path = fileName c.memory.name
  /-- Before the directory is read, every call may turn out to be late. -/
  onDisk : ∀ path, ∀ i ∈ w.last path, (w.ended = none ∨ Late w i) →
    ∀ c ∈ w.calls[i]?, OnDisk o w path c

variable {o} {w : DreamWorld}

theorem tracked_start (d : Directory) : Tracked o (.start d) where
  begun := rfl
  written _ _ h := by cases h
  onDisk _ _ h := by cases h

theorem Tracked.upToDate (h : Tracked o w) : UpToDate o w :=
  fun path i hi hlate ↦ h.onDisk path i hi (.inr hlate)

theorem Tracked.dreamStep {a : Answer} {now : Millis} (h : Tracked o w)
    (hspares : Spares (.dream a now) w) : Tracked o (dreamStep o a now w) := by
  have hon := onward_dreamStep (o := o) a now w
  refine ⟨hon.begun h.begun, ?_, ?_⟩
  · rw [hon.last, hon.calls]
    exact h.written
  · intro path i hi hlate c hc
    rw [hon.last] at hi
    rw [hon.calls] at hc
    have hbefore : w.ended = none ∨ Late w i := by
      by_cases hs : w.stage = .listing
      · exact .inl (by have := h.begun; rwa [Begun, hs] at this)
      · rwa [Late, hon.ended hs] at hlate
    have huntouched : touched a w.stage ≠ some path := by
      intro ht
      have hmid := midway_of_touched ht
      rcases hbefore with hnone | hlate
      · exact (begun_iff_of_midway hmid).mp h.begun hnone
      · exact hspares path ht i hi hlate
    obtain ⟨file, hfile, htext⟩ := h.onDisk path i hi hbefore c hc
    exact ⟨file, (lookup_dreamStep huntouched).trans hfile, htext⟩

theorem Tracked.call {m : Memory} (h : Tracked o w) :
    Tracked o { w with calls := w.calls ++ [⟨m, .running .locking⟩] } := by
  have hcall {path : Text} {i : ℕ} (hi : i ∈ w.last path) :
      (w.calls ++ [⟨m, .running .locking⟩])[i]? = w.calls[i]? := by
    obtain ⟨c, hc, -⟩ := h.written path i hi
    exact List.getElem?_append_left (List.getElem?_eq_some_iff.mp hc).1
  refine ⟨h.begun, ?_, ?_⟩
  · intro path i hi
    rw [hcall hi]
    exact h.written path i hi
  · intro path i hi hlate c hc
    rw [hcall hi] at hc
    exact h.onDisk path i hi hlate c hc

section Calls

variable {i j : ℕ} {m : Memory} {state state' : CallState} {c : WriteCall}

theorem exists_of_mem_set (hi : w.calls[i]? = some ⟨m, state⟩)
    (hc : c ∈ (w.calls.set i ⟨m, state'⟩)[j]?) : ∃ c' ∈ w.calls[j]?, c'.memory = c.memory := by
  by_cases hij : i = j
  · subst hij
    rw [List.getElem?_set_self (List.getElem?_eq_some_iff.mp hi).1] at hc
    cases hc
    exact ⟨_, hi, rfl⟩
  · rw [List.getElem?_set_ne hij] at hc
    exact ⟨c, hc, rfl⟩

theorem exists_mem_set (hi : w.calls[i]? = some ⟨m, state⟩) (hc : c ∈ w.calls[j]?) :
    ∃ c' ∈ (w.calls.set i ⟨m, state'⟩)[j]?, c'.memory = c.memory := by
  by_cases hij : i = j
  · subst hij
    obtain rfl := Option.some.inj (hi.symm.trans hc)
    exact ⟨_, List.getElem?_set_self (List.getElem?_eq_some_iff.mp hi).1, rfl⟩
  · rw [List.getElem?_set_ne hij]
    exact ⟨c, hc, rfl⟩

/-- A call that goes on. -/
theorem Tracked.setCall (h : Tracked o w) (hi : w.calls[i]? = some ⟨m, state⟩)
    (state' : CallState) : Tracked o { w with calls := w.calls.set i ⟨m, state'⟩ } := by
  refine ⟨h.begun, ?_, ?_⟩
  · intro path j hj
    obtain ⟨c, hc, hpath⟩ := h.written path j hj
    obtain ⟨c', hc', hmemory⟩ := exists_mem_set hi hc
    exact ⟨c', hc', by rw [hpath, hmemory]⟩
  · intro path j hj hlate c hc
    obtain ⟨c', hc', hmemory⟩ := exists_of_mem_set hi hc
    obtain ⟨file, hfile, htext⟩ := h.onDisk path j hj hlate c' hc'
    exact ⟨file, hfile, by rw [htext, WriteCall.fileText, hmemory, ← WriteCall.fileText]⟩

/-- A call that puts its file under the name: it is the last to do so. -/
theorem Tracked.replace {now : Millis} (h : Tracked o w)
    (hi : w.calls[i]? = some ⟨m, state⟩) : Tracked o { w with
      dir := w.dir.insert (fileName m.name) ⟨o.redactor.fileText m, now⟩
      last := Function.update w.last (fileName m.name) (some i) } := by
  refine ⟨h.begun, ?_, ?_⟩
  · intro path j hj
    by_cases hpath : path = fileName m.name
    · subst hpath
      change j ∈ Function.update w.last (fileName m.name) (some i) (fileName m.name) at hj
      rw [Function.update_self] at hj
      obtain rfl := Option.some.inj hj
      exact ⟨_, hi, rfl⟩
    · change j ∈ Function.update w.last (fileName m.name) (some i) path at hj
      rw [Function.update_of_ne hpath] at hj
      exact h.written path j hj
  · intro path j hj hlate c hc
    by_cases hpath : path = fileName m.name
    · subst hpath
      change j ∈ Function.update w.last (fileName m.name) (some i) (fileName m.name) at hj
      rw [Function.update_self] at hj
      obtain rfl := Option.some.inj hj
      obtain rfl := Option.some.inj (hi.symm.trans hc)
      exact ⟨_, AList.lookup_insert _, rfl⟩
    · change j ∈ Function.update w.last (fileName m.name) (some i) path at hj
      rw [Function.update_of_ne hpath] at hj
      obtain ⟨file, hfile, htext⟩ := h.onDisk path j hj hlate c hc
      exact ⟨file, (AList.lookup_insert_ne hpath).trans hfile, htext⟩

theorem Tracked.callStep {ok : Bool} {now : Millis} (h : Tracked o w) :
    Tracked o (callStep o i ok now w) := by
  rw [Memory.callStep]
  split
  · next m step hi =>
    split
    · exact h.setCall hi _
    · cases step with
      | replacing => exact (h.replace hi).setCall hi _
      | locking => exact h.setCall hi _
      | temporary => exact h.setCall hi _
      | releasing => exact h.setCall hi _
  · exact h

end Calls

/-- A move keeps what is known, if the dream spares what was written. -/
theorem Tracked.dreamMove {move : DreamMove} (h : Tracked o w) (hspares : Spares move w) :
    Tracked o (dreamMove o move w) := by
  cases move with
  | dream a now => exact h.dreamStep hspares
  | call m => exact h.call
  | step i ok now => exact h.callStep

theorem isMemoryName_a : isMemoryName (ofString "a") = true := by decide

theorem isMemoryName_k : isMemoryName (ofString "k") = true := by decide

theorem isDescription_note : isDescription (ofString "note") = true := by decide

private def noteA : Memory :=
  ⟨⟨ofString "a", ofString "note", .user, isMemoryName_a, isDescription_note⟩, ofString "new"⟩

private def noteK : Memory :=
  ⟨⟨ofString "k", ofString "note", .user, isMemoryName_k, isDescription_note⟩, ofString "new"⟩

/-- As many memories as a dream needs to run. -/
private def tenNotes : Directory :=
  ["a", "b", "c", "d", "e", "f", "g", "h", "i", "j"].foldr
    (fun name d ↦ d.insert (fileName (ofString name))
      ⟨ofString ("---
name: " ++ name ++ "
description: note
type: user
---
old
"), 0⟩) ∅

private def neverDreamt : RunDreamOptions := ⟨.none, ⟨0, none⟩, none⟩

/-- Another writer writes a memory while the dream waits for its model. -/
private def writeMeanwhile (m : Memory) : List DreamMove :=
  List.replicate 24 (.dream .done 0) ++
    .call m :: (List.replicate 4 (.step 0 true 0) ++
      .dream (.result ⟨[], none⟩) 0 :: List.replicate 45 (.dream .done 0))

end QwenHarness.Memory
