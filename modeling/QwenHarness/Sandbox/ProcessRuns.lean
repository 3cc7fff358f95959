import QwenHarness.Codec.Utf8Size

/-!
# A supervised run

As long as nothing is settled, what was collected of a stream is the text of its bytes up to the
bound, and the flags say what has happened. That is one invariant, which every event keeps.
-/

/-!
## Supervising a process

A process that was spawned sends data on two streams until it closes. Its output is bounded, a timer
runs, and a signal may abort it: each of these kills the whole process group. Whatever comes first
of the close and an error settles the result, once.

Each chunk of output is decoded by itself, and the bound, which is a number of bytes, is compared
with a number of code units.
-/

namespace QwenHarness.Sandbox

open Utf16

/-! ## What a process does -/

inductive Stream where
  | out
  | err
deriving DecidableEq, Repr

inductive ProcessEvent where
  | data (which : Stream) (chunk : List UInt8)
  | deadline
  | abort
  /-- The process could not be spawned. -/
  | error (message : Text) (now : ℤ)
  | close (exitCode : Option ℤ) (signal : Option Text) (now : ℤ)
deriving DecidableEq, Repr

def ProcessEvent.isFinish : ProcessEvent → Bool
  | error .. | close .. => true
  | _ => false

structure RunResult where
  exitCode : Option ℤ
  signal : Option Text
  stdout : Text
  stderr : Text
  truncated : Bool
  timedOut : Bool
  durationMs : ℤ
deriving DecidableEq, Repr

/-- What a call starts from. -/
structure Launch where
  /-- There is none if the process could not be spawned. -/
  pid : Option ℕ
  maxOutputBytes : ℕ
  /-- The signal was aborted before the call. -/
  aborted : Bool
  startedAtMs : ℤ
deriving DecidableEq, Repr

/-! ## The supervisor -/

structure Supervised where
  stdout : Text
  stderr : Text
  truncated : Bool
  timedOut : Bool
  settled : Bool
  /-- The signal is aborted. -/
  aborted : Bool
  /-- How many group kills were issued. -/
  kills : ℕ
  /-- What `settle` was called with. -/
  results : List RunResult
deriving DecidableEq, Repr

namespace Supervised

def start (l : Launch) : Supervised :=
  { stdout := [], stderr := [], truncated := false, timedOut := false, settled := false
    -- A signal that is aborted already does not tell the listener.
    aborted := l.aborted, kills := 0, results := [] }

variable (l : Launch) (s : Supervised)

def text : Stream → Text
  | .out => s.stdout
  | .err => s.stderr

def append (which : Stream) (text : Text) : Supervised :=
  match which with
  | .out => { s with stdout := s.stdout ++ text }
  | .err => { s with stderr := s.stderr ++ text }

def killGroup : Supervised := if l.pid.isSome then { s with kills := s.kills + 1 } else s

def truncate : Supervised := { s with truncated := true }.killGroup l

def onData (which : Stream) (chunk : List UInt8) : Supervised :=
  let current := (s.text which).length
  if l.maxOutputBytes ≤ current then
    if s.truncated then s else s.truncate l
  else
    let room := l.maxOutputBytes - current
    (if room < chunk.length then s.truncate l else s).append which ((decoded chunk).take room)

def finish (exitCode : Option ℤ) (signal : Option Text) (now : ℤ) : Supervised :=
  if s.settled then s
  else
    { s with
      settled := true
      results := s.results ++
        [{ exitCode, signal, stdout := s.stdout, stderr := s.stderr, truncated := s.truncated
           timedOut := s.timedOut, durationMs := max 0 (now - l.startedAtMs) }] }

def step : ProcessEvent → Supervised
  | .data which chunk => s.onData l which chunk
  -- The timer and the listener are gone once the result is settled.
  | .deadline => if s.settled then s else { s with timedOut := true }.killGroup l
  | .abort =>
    -- A signal is aborted once.
    if s.aborted then s
    else if s.settled then { s with aborted := true }
    else { s with aborted := true }.killGroup l
  | .error message now =>
    (s.append .err (ofString "sandbox spawn error: " ++ message)).finish l none none now
  | .close exitCode signal now => s.finish l exitCode signal now

end Supervised

/-- The state after some events. -/
def supervise (l : Launch) (es : List ProcessEvent) : Supervised :=
  es.foldl (Supervised.step l) (.start l)

/-! ## What it should do -/

/-- The bytes that came on a stream. -/
def ProcessEvent.bytesOn (which : Stream) : ProcessEvent → List UInt8
  | data which' chunk => if which' = which then chunk else []
  | _ => []

def outputOn (which : Stream) (es : List ProcessEvent) : List UInt8 :=
  es.flatMap (·.bytesOn which)

/-- A text cut to a number of bytes. -/
structure IsCut (cap : ℕ) (whole cut : Text) : Prop where
  isPrefix : cut <+: whole
  size_le : size cut ≤ cap
  whole : size whole ≤ cap → cut = whole

/-- Something of the output is missing. -/
def SomethingIsCut (l : Launch) (es : List ProcessEvent) : Prop :=
  ∃ which, (supervise l es).text which ≠ decoded (outputOn which es)

/-- What has to kill the group when it comes after some events. -/
def Triggers (l : Launch) (es : List ProcessEvent) (e : ProcessEvent) : Prop :=
  e = .deadline ∨ e = .abort ∧ .abort ∉ es ∨
    ¬ SomethingIsCut l es ∧ SomethingIsCut l (es ++ [e])

/-- Nothing has settled the result yet. -/
def IsRunning (es : List ProcessEvent) : Prop := es.any (·.isFinish) = false

/-- What a supervisor does in a run. -/
structure Supervises (l : Launch) (es : List ProcessEvent) : Prop where
  settles : (supervise l es).results.length = if es.any (·.isFinish) then 1 else 0
  /-- The values of the result are those that were collected until then. -/
  collected : ∀ pre e post, es = pre ++ e :: post → IsRunning pre → e.isFinish = true →
    ∃ r, (supervise l es).results = [r] ∧ r.stdout = (supervise l pre).stdout ∧
      r.stderr = (supervise l pre).stderr ∧ r.truncated = (supervise l pre).truncated ∧
      r.timedOut = (supervise l pre).timedOut
  timedOut : ∀ pre, pre <+: es → IsRunning pre →
    ((supervise l pre).timedOut = true ↔ .deadline ∈ pre)
  cut : ∀ pre, pre <+: es → IsRunning pre → ∀ which,
    IsCut l.maxOutputBytes (decoded (outputOn which pre)) ((supervise l pre).text which)
  truncated : ∀ pre, pre <+: es → IsRunning pre →
    ((supervise l pre).truncated = true ↔ SomethingIsCut l pre)
  killedAtStart : l.aborted = true → 0 < (supervise l []).kills
  killed : ∀ pre e, pre ++ [e] <+: es → IsRunning (pre ++ [e]) → Triggers l pre e →
    (supervise l pre).kills < (supervise l (pre ++ [e])).kills

/-- What comes with an event is decoded and bounded as it should be: nothing is cut, and the chunk
ends no character that was begun before; or the output goes beyond the bound, and is ASCII up to
it. -/
def IsTidy (cap : ℕ) (before chunk : List UInt8) : Prop :=
  chunk ≠ [] ∧
    ((before ++ chunk).length ≤ cap ∧ size (decoded (before ++ chunk)) ≤ cap ∧
        decoded (before ++ chunk) = decoded before ++ decoded chunk ∨
      cap < (before ++ chunk).length ∧ Utf8.IsAscii ((before ++ chunk).take cap))

/-- An event that comes while nothing is settled is no failure to spawn, and its data are tidy. -/
def IsOrderly (l : Launch) (es : List ProcessEvent) : ProcessEvent → Prop
  | .data which chunk => IsTidy l.maxOutputBytes (outputOn which es) chunk
  | .error .. => False
  | _ => True

end QwenHarness.Sandbox

namespace QwenHarness.Sandbox

open Utf16

variable {l : Launch} {s : Supervised} {which : Stream} {cap : ℕ} {before chunk : List UInt8}

/-! ## Bytes up to the bound -/

theorem decoded_append_ascii {xs : List UInt8} (h : Utf8.IsAscii xs) (ys : List UInt8) :
    decoded (xs ++ ys) = decoded xs ++ decoded ys :=
  decoded_append (Utf8.whole_ascii h) ys

theorem size_decoded_append {xs ys : List UInt8} (h : Utf8.IsAscii xs) (hys : ys ≠ []) :
    xs.length < size (decoded (xs ++ ys)) := by
  have hxs := size_decoded_ascii h
  have hpos := size_pos (Utf8.decode_ne_nil hys)
  rw [decoded] at hxs
  rw [decoded, Utf8.decode_append (Utf8.whole_ascii h), size_ofChars_append]
  omega

/-- What has been collected of some bytes. -/
structure Kept (cap : ℕ) (bs : List UInt8) (t : Text) : Prop where
  whole : bs.length ≤ cap → t = decoded bs ∧ size (decoded bs) ≤ cap
  above : cap < bs.length → Utf8.IsAscii (bs.take cap) ∧ t = decoded (bs.take cap)

variable {t : Text}

theorem kept_nil : Kept cap [] [] :=
  ⟨fun _ ↦ ⟨rfl, Nat.zero_le cap⟩, fun h ↦ absurd h (Nat.not_lt_zero cap)⟩

theorem lt_size_of_over {bs : List UInt8} (h : cap < bs.length)
    (hascii : Utf8.IsAscii (bs.take cap)) : cap < size (decoded bs) := by
  have hdrop : bs.drop cap ≠ [] := by
    intro hnil
    have hlength := congrArg List.length hnil
    rw [List.length_drop, List.length_nil] at hlength
    omega
  have hsize := size_decoded_append hascii hdrop
  rw [List.take_append_drop, List.length_take] at hsize
  omega

theorem Kept.isCut {bs : List UInt8} (h : Kept cap bs t) : IsCut cap (decoded bs) t := by
  by_cases hle : bs.length ≤ cap
  · obtain ⟨rfl, hsize⟩ := h.whole hle
    exact ⟨List.prefix_rfl, hsize, fun _ ↦ rfl⟩
  · rw [not_le] at hle
    obtain ⟨hascii, rfl⟩ := h.above hle
    refine ⟨⟨decoded (bs.drop cap), ?_⟩, ?_, fun hsize ↦ ?_⟩
    · rw [← decoded_append_ascii hascii, List.take_append_drop]
    · rw [size_decoded_ascii hascii, List.length_take]
      omega
    · have hlt := lt_size_of_over hle hascii
      omega

theorem Kept.ne_iff {bs : List UInt8} (h : Kept cap bs t) : t ≠ decoded bs ↔ cap < bs.length := by
  constructor
  · intro hne
    by_contra hle
    exact hne (h.whole (not_lt.mp hle)).1
  · intro hlt heq
    obtain ⟨hascii, ht⟩ := h.above hlt
    have hsize := lt_size_of_over hlt hascii
    rw [← heq, ht, size_decoded_ascii hascii, List.length_take] at hsize
    omega

/-- The bound is full: what comes is cut off. -/
theorem Kept.full (h : Kept cap before t) (htidy : IsTidy cap before chunk)
    (hfull : cap ≤ t.length) :
    cap < (before ++ chunk).length ∧ Kept cap (before ++ chunk) t := by
  have hchunk := List.length_pos_iff.mpr htidy.1
  have hover : cap < (before ++ chunk).length ∧ Utf8.IsAscii ((before ++ chunk).take cap) := by
    rcases htidy.2 with ⟨hle, -⟩ | hover
    · -- The output is within the bound, so there is room.
      rw [List.length_append] at hle
      have hlength := length_decoded_le before
      rw [(h.whole (by omega)).1] at hfull
      omega
    · exact hover
  refine ⟨hover.1, fun hle ↦ absurd hle (not_le.mpr hover.1), fun _ ↦ ⟨hover.2, ?_⟩⟩
  by_cases hle : before.length ≤ cap
  · have hlength := length_decoded_le before
    have ht := (h.whole hle).1
    rw [ht] at hfull
    have heq : before.length = cap := by omega
    rw [ht, List.take_append_of_le_length heq.ge, ← heq, List.take_length]
  · rw [not_le] at hle
    rw [(h.above hle).2, List.take_append_of_le_length hle.le]

/-- There is room: what comes is taken as far as the bound. -/
theorem Kept.room (h : Kept cap before t) (htidy : IsTidy cap before chunk)
    (hroom : t.length < cap) :
    (cap - t.length < chunk.length ↔ cap < (before ++ chunk).length) ∧
      Kept cap (before ++ chunk) (t ++ (decoded chunk).take (cap - t.length)) := by
  have hbefore : before.length ≤ cap := by
    by_contra hlt
    rw [not_le] at hlt
    obtain ⟨hascii, ht⟩ := h.above hlt
    rw [ht, length_decoded_ascii hascii, List.length_take] at hroom
    omega
  obtain ⟨rfl, -⟩ := h.whole hbefore
  have hlength := length_decoded_le before
  rcases htidy.2 with ⟨hle, hsize, hsplit⟩ | ⟨hover, hascii⟩
  · have hshort := length_decoded_le chunk
    rw [List.length_append] at hle
    refine ⟨by rw [List.length_append]; omega, ?_⟩
    rw [List.take_of_length_le (by omega), ← hsplit]
    refine ⟨fun _ ↦ ⟨rfl, hsize⟩, fun hlt ↦ ?_⟩
    rw [List.length_append] at hlt
    omega
  · have htake : (before ++ chunk).take cap = before ++ chunk.take (cap - before.length) := by
      rw [List.take_append, List.take_of_length_le hbefore]
    rw [htake] at hascii
    have hfirst : Utf8.IsAscii before := hascii.of_prefix (List.prefix_append _ _)
    have hsecond : Utf8.IsAscii (chunk.take (cap - before.length)) :=
      fun b hb ↦ hascii b (List.mem_append_right _ hb)
    have hunits := length_decoded_ascii hfirst
    rw [hunits] at hroom ⊢
    rw [List.length_append] at hover
    have hcut : (decoded chunk).take (cap - before.length) =
        decoded (chunk.take (cap - before.length)) := by
      have hparts := decoded_append_ascii hsecond (chunk.drop (cap - before.length))
      rw [List.take_append_drop] at hparts
      have hunits' := length_decoded_ascii hsecond
      rw [List.length_take, min_eq_left (by omega)] at hunits'
      rw [hparts, List.take_append_of_le_length hunits'.ge]
      exact List.take_of_length_le hunits'.le
    refine ⟨by rw [List.length_append]; omega, fun hle ↦ ?_, fun _ ↦ ?_⟩
    · rw [List.length_append] at hle
      omega
    · rw [htake, hcut, decoded_append_ascii hfirst]
      exact ⟨hascii, rfl⟩

/-! ## One chunk -/

namespace Supervised

theorem text_killGroup (w : Stream) : (s.killGroup l).text w = s.text w := by
  rw [killGroup]
  split_ifs <;> cases w <;> rfl

theorem text_truncate (w : Stream) : (s.truncate l).text w = s.text w := by
  rw [truncate, text_killGroup]
  cases w <;> rfl

theorem text_append (w : Stream) (x : Text) :
    (s.append which x).text w = if which = w then s.text w ++ x else s.text w := by
  cases which <;> cases w <;> rfl

/-- Nothing is settled, and only the output may be another. -/
structure Frame (s s' : Supervised) : Prop where
  settled : s'.settled = s.settled
  results : s'.results = s.results
  aborted : s'.aborted = s.aborted
  timedOut : s'.timedOut = s.timedOut

theorem Frame.refl (s : Supervised) : s.Frame s := ⟨rfl, rfl, rfl, rfl⟩

theorem Frame.trans {s s' s'' : Supervised} (h : s.Frame s') (h' : s'.Frame s'') : s.Frame s'' :=
  ⟨h'.settled.trans h.settled, h'.results.trans h.results, h'.aborted.trans h.aborted,
    h'.timedOut.trans h.timedOut⟩

theorem frame_killGroup : s.Frame (s.killGroup l) := by
  rw [killGroup]
  split_ifs <;> exact ⟨rfl, rfl, rfl, rfl⟩

theorem frame_truncate : s.Frame (s.truncate l) :=
  have h : ({ s with truncated := true } : Supervised).Frame (s.truncate l) := frame_killGroup
  ⟨h.settled, h.results, h.aborted, h.timedOut⟩

theorem frame_append (x : Text) : s.Frame (s.append which x) := by
  cases which <;> exact ⟨rfl, rfl, rfl, rfl⟩

theorem truncated_killGroup : (s.killGroup l).truncated = s.truncated := by
  rw [killGroup]
  split_ifs <;> rfl

theorem kills_killGroup (hpid : l.pid.isSome = true) : (s.killGroup l).kills = s.kills + 1 := by
  rw [killGroup, if_pos hpid]

theorem append_truncated (x : Text) : (s.append which x).truncated = s.truncated := by
  cases which <;> rfl

theorem append_kills (x : Text) : (s.append which x).kills = s.kills := by
  cases which <;> rfl

/-- What a chunk does to a state in which output was kept. -/
structure Took (l : Launch) (which : Stream) (chunk : List UInt8) (out : Stream → List UInt8)
    (s s' : Supervised) : Prop where
  frame : s.Frame s'
  kept : ∀ w, Kept l.maxOutputBytes (if which = w then out w ++ chunk else out w) (s'.text w)
  truncated : s'.truncated = true ↔
    s.truncated = true ∨ l.maxOutputBytes < (out which ++ chunk).length
  killed : s.truncated = false → s'.truncated = true → s.kills < s'.kills

theorem onData_took {out : Stream → List UInt8} (hpid : l.pid.isSome = true)
    (hkept : ∀ w, Kept l.maxOutputBytes (out w) (s.text w))
    (htidy : IsTidy l.maxOutputBytes (out which) chunk) :
    s.Took l which chunk out (s.onData l which chunk) := by
  have hsame : ∀ {s' : Supervised} {x : Text},
      Kept l.maxOutputBytes (out which ++ chunk) (s.text which ++ x) →
      (∀ w, s'.text w = if which = w then s.text w ++ x else s.text w) →
      ∀ w, Kept l.maxOutputBytes (if which = w then out w ++ chunk else out w) (s'.text w) := by
    intro s' x hwhich htext w
    rw [htext]
    split_ifs with hw
    · rwa [← hw]
    · exact hkept w
  rw [onData]
  dsimp only
  split_ifs with hfull htruncated hroom
  · -- Something was cut off before.
    obtain ⟨hover, hall⟩ := (hkept which).full htidy hfull
    refine ⟨.refl s, hsame (x := []) (by rwa [List.append_nil]) (fun w ↦ ?_), ?_, fun h ↦ ?_⟩
    · rw [List.append_nil, ite_self]
    · exact ⟨.inl, fun _ ↦ htruncated⟩
    · rw [h] at htruncated
      cases htruncated
  · obtain ⟨hover, hall⟩ := (hkept which).full htidy hfull
    refine ⟨frame_truncate, hsame (x := []) (by rwa [List.append_nil]) (fun w ↦ ?_), ?_,
      fun _ _ ↦ ?_⟩
    · rw [text_truncate, List.append_nil, ite_self]
    · rw [truncate, truncated_killGroup]
      exact ⟨fun _ ↦ .inr hover, fun _ ↦ rfl⟩
    · rw [truncate, kills_killGroup hpid]
      exact Nat.lt_succ_self _
  · rw [not_le] at hfull
    obtain ⟨hiff, hall⟩ := (hkept which).room htidy hfull
    refine ⟨frame_truncate.trans (frame_append _), hsame hall (fun w ↦ ?_), ?_, fun _ _ ↦ ?_⟩
    · rw [text_append, text_truncate]
    · rw [append_truncated, truncate, truncated_killGroup]
      exact ⟨fun _ ↦ .inr (hiff.mp hroom), fun _ ↦ rfl⟩
    · rw [append_kills, truncate, kills_killGroup hpid]
      exact Nat.lt_succ_self _
  · rw [not_le] at hfull
    obtain ⟨hiff, hall⟩ := (hkept which).room htidy hfull
    refine ⟨frame_append _, hsame hall (fun w ↦ text_append w _), ?_, fun h h' ↦ ?_⟩
    · rw [append_truncated]
      exact ⟨.inl, fun h ↦ h.resolve_right fun hover ↦ hroom (hiff.mpr hover)⟩
    · rw [append_truncated, h] at h'
      cases h'

end Supervised

/-! ## Runs -/

open Supervised

/-- What holds as long as nothing is settled. -/
structure IsCollecting (l : Launch) (es : List ProcessEvent) (s : Supervised) : Prop where
  settled : s.settled = false
  results : s.results = []
  aborted : s.aborted = true → l.aborted = true ∨ .abort ∈ es
  timedOut : s.timedOut = true ↔ .deadline ∈ es
  kept : ∀ w, Kept l.maxOutputBytes (outputOn w es) (s.text w)
  truncated : s.truncated = true ↔ ∃ w, l.maxOutputBytes < (outputOn w es).length

theorem isCollecting_start : IsCollecting l [] (.start l) where
  settled := rfl
  results := rfl
  aborted h := .inl h
  timedOut := ⟨fun h ↦ (by cases h), fun h ↦ (by cases h)⟩
  kept w := by cases w <;> exact kept_nil
  truncated := by
    refine ⟨fun h ↦ (by cases h), ?_⟩
    rintro ⟨w, hw⟩
    exact absurd hw (Nat.not_lt_zero _)

theorem outputOn_append (w : Stream) (es : List ProcessEvent) (e : ProcessEvent) :
    outputOn w (es ++ [e]) = outputOn w es ++ e.bytesOn w := by
  rw [outputOn, List.flatMap_append, List.flatMap_singleton]
  rfl

theorem outputOn_append_data (w : Stream) (es : List ProcessEvent) :
    outputOn w (es ++ [.data which chunk]) =
      if which = w then outputOn w es ++ chunk else outputOn w es := by
  rw [outputOn_append, ProcessEvent.bytesOn]
  split_ifs
  · rfl
  · exact List.append_nil _

theorem supervise_append (es : List ProcessEvent) (e : ProcessEvent) :
    supervise l (es ++ [e]) = (supervise l es).step l e := by
  rw [supervise, List.foldl_append]
  rfl

variable {es : List ProcessEvent} {e : ProcessEvent}

/-- What an event has to do, as long as nothing is settled. -/
structure Progress (l : Launch) (es : List ProcessEvent) (e : ProcessEvent) (s s' : Supervised) :
    Prop where
  collecting : IsCollecting l (es ++ [e]) s'
  deadline : e = .deadline → s.kills < s'.kills
  abort : e = .abort → .abort ∉ es → l.aborted = false → s.kills < s'.kills
  cut : s.truncated = false → s'.truncated = true → s.kills < s'.kills

theorem mem_append_of_ne {e' : ProcessEvent} (h : e' ≠ e) : e' ∈ es ++ [e] ↔ e' ∈ es := by
  rw [List.mem_append, List.mem_singleton]
  exact or_iff_left h

theorem IsCollecting.progress_data (hpid : l.pid.isSome = true) (h : IsCollecting l es s)
    (htidy : IsTidy l.maxOutputBytes (outputOn which es) chunk) :
    Progress l es (.data which chunk) s (s.step l (.data which chunk)) := by
  have htook := onData_took hpid h.kept htidy
  rw [step]
  refine ⟨⟨htook.frame.settled.trans h.settled, htook.frame.results.trans h.results,
    fun ha ↦ ?_, ?_, fun w ↦ ?_, ?_⟩, fun he ↦ (by cases he), fun he ↦ (by cases he),
    htook.killed⟩
  · rw [htook.frame.aborted] at ha
    exact (h.aborted ha).imp_right fun hmem ↦ List.mem_append_left _ hmem
  · rw [htook.frame.timedOut, h.timedOut, mem_append_of_ne (by simp)]
  · rw [outputOn_append_data]
    exact htook.kept w
  · rw [htook.truncated, h.truncated]
    constructor
    · rintro (⟨w, hw⟩ | hover)
      · refine ⟨w, hw.trans_le ?_⟩
        rw [outputOn_append, List.length_append]
        omega
      · refine ⟨which, ?_⟩
        rwa [outputOn_append_data, if_pos rfl]
    · rintro ⟨w, hw⟩
      rw [outputOn_append_data] at hw
      split_ifs at hw with heq
      · subst heq
        exact .inr hw
      · exact .inl ⟨w, hw⟩

/-- Where an event brings no data, what was collected stays. -/
theorem IsCollecting.of_frame {s' : Supervised} (h : IsCollecting l es s)
    (hbytes : ∀ w, e.bytesOn w = []) (htext : ∀ w, s'.text w = s.text w)
    (htruncated : s'.truncated = s.truncated) (hsettled : s'.settled = s.settled)
    (hresults : s'.results = s.results)
    (haborted : s'.aborted = true → l.aborted = true ∨ .abort ∈ es ++ [e])
    (htimedOut : s'.timedOut = true ↔ .deadline ∈ es ++ [e]) : IsCollecting l (es ++ [e]) s' := by
  have houtput : ∀ w, outputOn w (es ++ [e]) = outputOn w es := by
    intro w
    rw [outputOn_append, hbytes, List.append_nil]
  refine ⟨hsettled.trans h.settled, hresults.trans h.results, haborted, htimedOut, fun w ↦ ?_, ?_⟩
  · rw [houtput, htext]
    exact h.kept w
  · rw [htruncated, h.truncated]
    exact exists_congr fun w ↦ by rw [houtput]

theorem IsCollecting.progress (hpid : l.pid.isSome = true) (h : IsCollecting l es s)
    (horderly : IsOrderly l es e) (he : e.isFinish = false) : Progress l es e s (s.step l e) := by
  cases e with
  | data which chunk => exact h.progress_data hpid horderly
  | deadline =>
    have hframe : ({ s with timedOut := true } : Supervised).Frame
        (({ s with timedOut := true } : Supervised).killGroup l) := frame_killGroup
    have hkills : ({ s with timedOut := true } : Supervised).kills <
        (({ s with timedOut := true } : Supervised).killGroup l).kills := by
      rw [kills_killGroup hpid]
      exact Nat.lt_succ_self _
    rw [step, if_neg (by rw [h.settled]; decide)]
    refine ⟨h.of_frame (fun _ ↦ rfl) (fun w ↦ ?_) truncated_killGroup hframe.settled hframe.results
      (fun ha ↦ ?_) ?_, fun _ ↦ hkills, fun he ↦ (by cases he), fun _ _ ↦ hkills⟩
    · rw [text_killGroup]
      cases w <;> rfl
    · rw [hframe.aborted] at ha
      exact (h.aborted ha).imp_right fun hmem ↦ List.mem_append_left _ hmem
    · rw [hframe.timedOut]
      exact ⟨fun _ ↦ List.mem_append_right _ (List.mem_singleton_self _), fun _ ↦ rfl⟩
  | abort =>
    rw [step]
    split_ifs with haborted hsettled
    · refine ⟨h.of_frame (fun _ ↦ rfl) (fun _ ↦ rfl) rfl rfl rfl (fun _ ↦ ?_) ?_,
        fun he ↦ (by cases he), fun _ hmem hl ↦ ?_, fun hf ht ↦ ?_⟩
      · exact .inr (List.mem_append_right _ (List.mem_singleton_self _))
      · rw [h.timedOut, mem_append_of_ne (by decide)]
      · rcases h.aborted haborted with ha | ha
        · rw [hl] at ha
          cases ha
        · exact absurd ha hmem
      · rw [hf] at ht
        cases ht
    · rw [h.settled] at hsettled
      cases hsettled
    · have hframe : ({ s with aborted := true } : Supervised).Frame
          (({ s with aborted := true } : Supervised).killGroup l) := frame_killGroup
      have hkills : ({ s with aborted := true } : Supervised).kills <
          (({ s with aborted := true } : Supervised).killGroup l).kills := by
        rw [kills_killGroup hpid]
        exact Nat.lt_succ_self _
      refine ⟨h.of_frame (fun _ ↦ rfl) (fun w ↦ ?_) truncated_killGroup hframe.settled
        hframe.results (fun _ ↦ ?_) ?_, fun he ↦ (by cases he), fun _ _ _ ↦ hkills,
        fun _ _ ↦ hkills⟩
      · rw [text_killGroup]
        cases w <;> rfl
      · exact .inr (List.mem_append_right _ (List.mem_singleton_self _))
      · rw [hframe.timedOut]
        exact h.timedOut.trans (mem_append_of_ne (by decide)).symm
  | error message now => cases he
  | close exitCode signal now => cases he

/-- The events of a run, each in the state it comes in. -/
def AreOrderly (l : Launch) (es : List ProcessEvent) : Prop :=
  ∀ pre e, pre ++ [e] <+: es → IsRunning pre → IsOrderly l pre e

theorem isRunning_append : IsRunning (es ++ [e]) ↔ IsRunning es ∧ e.isFinish = false := by
  rw [IsRunning, IsRunning, List.any_append, Bool.or_eq_false_iff, List.any_cons, List.any_nil,
    Bool.or_false]

theorem AreOrderly.init (h : AreOrderly l (es ++ [e])) : AreOrderly l es :=
  fun pre e' hle ↦ h pre e' (hle.trans (List.prefix_append _ _))

theorem areOrderly_nil : AreOrderly l [] :=
  fun _ _ hle ↦ absurd (List.prefix_nil.mp hle) 
    (List.append_ne_nil_of_right_ne_nil _ (List.cons_ne_nil _ _))

theorem AreOrderly.concat (h : AreOrderly l es) (he : IsRunning es → IsOrderly l es e) :
    AreOrderly l (es ++ [e]) := by
  intro pre e' hle hrunning
  rcases List.prefix_concat_iff.mp hle with heq | hle
  · obtain ⟨rfl, hlast⟩ := List.append_inj' heq rfl
    obtain rfl := List.singleton_inj.mp hlast
    exact he hrunning
  · exact h pre e' hle hrunning

/-- As long as nothing is settled, everything is collected. -/
theorem isCollecting (hpid : l.pid.isSome = true) (h : AreOrderly l es) (hrunning : IsRunning es) :
    IsCollecting l es (supervise l es) := by
  induction es using List.reverseRecOn with
  | nil => exact isCollecting_start
  | append_singleton es e ih =>
    obtain ⟨hes, he⟩ := isRunning_append.mp hrunning
    rw [supervise_append]
    exact ((ih h.init hes).progress hpid (h es e List.prefix_rfl hes) he).collecting

/-! ## After the result is settled -/

theorem step_of_settled (h : s.settled = true) (e : ProcessEvent) :
    (s.step l e).settled = true ∧ (s.step l e).results = s.results := by
  have hframe : ∀ {s' : Supervised}, s.Frame s' → s'.settled = true ∧ s'.results = s.results :=
    fun hs ↦ ⟨hs.settled.trans h, hs.results⟩
  cases e with
  | data which chunk =>
    rw [step, onData]
    dsimp only
    split_ifs
    · exact ⟨h, rfl⟩
    · exact hframe frame_truncate
    · exact hframe (frame_truncate.trans (frame_append _))
    · exact hframe (frame_append _)
  | deadline =>
    rw [step, if_pos h]
    exact ⟨h, rfl⟩
  | abort =>
    rw [step]
    split_ifs
    · exact ⟨h, rfl⟩
    · exact ⟨h, rfl⟩
  | error message now =>
    have happend : s.Frame (s.append .err (ofString "sandbox spawn error: " ++ message)) :=
      frame_append _
    rw [step, finish, if_pos (happend.settled.trans h)]
    exact hframe happend
  | close exitCode signal now =>
    rw [step, finish, if_pos h]
    exact ⟨h, rfl⟩

/-- A result that is settled stays. -/
theorem foldl_of_settled (h : s.settled = true) (es : List ProcessEvent) :
    (es.foldl (step l) s).results = s.results := by
  induction es generalizing s with
  | nil => rfl
  | cons e es ih =>
    obtain ⟨hsettled, hresults⟩ := step_of_settled (l := l) h e
    rw [List.foldl_cons, ih hsettled, hresults]

/-- The first event that ends the run settles what was collected. -/
theorem results_of_finish {pre post : List ProcessEvent} (hpid : l.pid.isSome = true)
    (h : AreOrderly l (pre ++ e :: post)) (hrunning : IsRunning pre) (he : e.isFinish = true) :
    ∃ r, (supervise l (pre ++ e :: post)).results = [r] ∧ r.stdout = (supervise l pre).stdout ∧
      r.stderr = (supervise l pre).stderr ∧ r.truncated = (supervise l pre).truncated ∧
      r.timedOut = (supervise l pre).timedOut := by
  have hle : pre ++ [e] <+: pre ++ e :: post := by
    rw [List.prefix_append_right_inj]
    exact List.prefix_append [e] post
  have horderly := h pre e hle hrunning
  have hpre : AreOrderly l pre := fun p e' hp ↦ h p e' (hp.trans (List.prefix_append _ _))
  have hcollecting := isCollecting hpid hpre hrunning
  cases e with
  | close exitCode signal now =>
    have hstep : ((supervise l pre).step l (.close exitCode signal now)).settled = true := by
      rw [step, finish, if_neg (by rw [hcollecting.settled]; decide)]
    have hresults : (supervise l (pre ++ .close exitCode signal now :: post)).results =
        ((supervise l pre).step l (.close exitCode signal now)).results := by
      rw [supervise, List.foldl_append, List.foldl_cons]
      exact foldl_of_settled hstep post
    rw [hresults, step, finish, if_neg (by rw [hcollecting.settled]; decide),
      hcollecting.results]
    exact ⟨_, rfl, rfl, rfl, rfl, rfl⟩
  | error message now => exact horderly.elim
  | _ => cases he

/-- A run that ended has a first event that ended it. -/
theorem exists_finish (h : es.any (·.isFinish) = true) :
    ∃ pre e post, es = pre ++ e :: post ∧ IsRunning pre ∧ e.isFinish = true := by
  induction es with
  | nil => cases h
  | cons e es ih =>
    cases he : e.isFinish with
    | true => exact ⟨[], e, es, rfl, rfl, he⟩
    | false =>
      rw [List.any_cons, he, Bool.false_or] at h
      obtain ⟨pre, e', post, rfl, hpre, he'⟩ := ih h
      refine ⟨e :: pre, e', post, rfl, ?_, he'⟩
      rw [IsRunning, List.any_cons, he]
      exact hpre

/-! ## Main results -/

/-- **A supervised run.** If the process was spawned, nothing fails to spawn later and all data are
tidy, then the supervisor does what it should exactly if the signal was not aborted before: the
result is settled once with what was collected, the output is cut to its bound, the flags say what
happened, and everything that should kill the group does. -/
theorem supervises_iff (hpid : l.pid.isSome = true) (h : AreOrderly l es) :
    Supervises l es ↔ l.aborted = false := by
  refine ⟨fun hs ↦ ?_, fun haborted ↦ ?_⟩
  · by_contra haborted
    exact absurd (hs.killedAtStart (Bool.not_eq_false _ ▸ haborted)) (Nat.lt_irrefl 0)
  have horderly : ∀ pre, pre <+: es → AreOrderly l pre :=
    fun pre hle p e hp ↦ h p e (hp.trans hle)
  have hcollecting : ∀ pre, pre <+: es → IsRunning pre → IsCollecting l pre (supervise l pre) :=
    fun pre hle ↦ isCollecting hpid (horderly pre hle)
  have hcut : ∀ pre, pre <+: es → IsRunning pre →
      ((supervise l pre).truncated = true ↔ SomethingIsCut l pre) := by
    intro pre hle hrunning
    have hpre := hcollecting pre hle hrunning
    rw [hpre.truncated, SomethingIsCut]
    exact exists_congr fun w ↦ (hpre.kept w).ne_iff.symm
  refine ⟨?_, ?_, fun pre hle hrunning ↦ (hcollecting pre hle hrunning).timedOut,
    fun pre hle hrunning w ↦ ((hcollecting pre hle hrunning).kept w).isCut, hcut,
    fun ha ↦ ?_, ?_⟩
  · cases hfinish : es.any (·.isFinish) with
    | false => rw [(isCollecting hpid h hfinish).results]; rfl
    | true =>
      obtain ⟨pre, e, post, rfl, hrunning, he⟩ := exists_finish hfinish
      obtain ⟨r, hr, -⟩ := results_of_finish hpid h hrunning he
      rw [hr]
      rfl
  · rintro pre e post rfl hrunning he
    exact results_of_finish hpid h hrunning he
  · rw [haborted] at ha
    cases ha
  · intro pre e hle hrunning htriggers
    obtain ⟨hpre, he⟩ := isRunning_append.mp hrunning
    have hpre' : pre <+: es := (List.prefix_append _ _).trans hle
    have hprogress := (hcollecting pre hpre' hpre).progress hpid (h pre e hle hpre) he
    rw [supervise_append]
    rcases htriggers with hdeadline | ⟨habort, hmem⟩ | ⟨hnone, hsome⟩
    · exact hprogress.deadline hdeadline
    · exact hprogress.abort habort hmem haborted
    · refine hprogress.cut ?_ ?_
      · rw [← Bool.not_eq_true, hcut pre hpre' hpre]
        exact hnone
      · rw [← supervise_append]
        exact (hcut _ hle hrunning).mpr hsome

/-- `é` three times. -/
def accents : List UInt8 := [0xC3, 0xA9, 0xC3, 0xA9, 0xC3, 0xA9]

/-- Nothing is killed for a signal that was aborted before. And a chunk of six bytes is said to be
cut to four, but all of it is there. -/
theorem not_supervises_aborted :
    ¬ Supervises ⟨some 1, 4, true, 0⟩ [.close (some 0) none 5] ∧
      ¬ Supervises ⟨some 1, 4, false, 0⟩ [.data .out accents] := by
  refine ⟨fun h ↦ absurd (h.killedAtStart rfl) (Nat.lt_irrefl 0), fun h ↦ ?_⟩
  have hcut := h.cut [.data .out accents] List.prefix_rfl rfl .out
  exact absurd hcut.size_le (by decide +kernel)

/-- What a process is launched with that nobody aborts. -/
def bounded : Launch := ⟨some 1, 4, false, 0⟩

theorem supervises_hello :
    Supervises bounded
      [.data .out [104, 101], .data .out [108, 108, 111], .deadline, .close none none 9] := by
  have hfirst : IsTidy 4 [] [104, 101] :=
    ⟨by decide, .inl ⟨by decide, by decide +kernel, by decide +kernel⟩⟩
  have hsecond : IsTidy 4 [104, 101] [108, 108, 111] :=
    ⟨by decide, .inr ⟨by decide,
      show ∀ b ∈ ([104, 101, 108, 108] : List UInt8), b.toNat < 0x80 by decide +kernel⟩⟩
  have horderly : AreOrderly bounded [.data .out [104, 101]] := areOrderly_nil.concat fun _ ↦ hfirst
  have horderly' : AreOrderly bounded [.data .out [104, 101], .data .out [108, 108, 111]] :=
    horderly.concat fun _ ↦ hsecond
  have hdeadline : AreOrderly bounded
      [.data .out [104, 101], .data .out [108, 108, 111], .deadline] :=
    horderly'.concat fun _ ↦ trivial
  have hclose : AreOrderly bounded
      [.data .out [104, 101], .data .out [108, 108, 111], .deadline, .close none none 9] :=
    hdeadline.concat fun _ ↦ trivial
  exact (supervises_iff rfl hclose).mpr rfl

end QwenHarness.Sandbox
