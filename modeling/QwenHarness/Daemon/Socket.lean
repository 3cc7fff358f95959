import QwenHarness.Codec.Lines
import QwenHarness.Codec.Utf8
import QwenHarness.Protocol.Domain

/-!
# The command socket

A client sends frames, one JSON text a line. The first has to be a hello of the daemon's protocol
version; the commands that follow are dispatched. Bytes arrive in chunks, and what has not ended
with a line end is kept for the next chunk.

Three things stand between the bytes and the commands. Each chunk is decoded by itself, so a
character that is cut in two is lost. A line that is not a frame is answered and otherwise passed
over, also before the hello. And a refused connection is only closed: the lines of the chunk it was
refused in are still taken up, and one of them may be a hello.
-/

namespace QwenHarness.Daemon

open Codec

/-! ## Frames -/

inductive ClientFrame where
  | hello (protocolVersion : ℤ) (clientName : String)
  | command (command : Value)

def clientHelloFields : Fields (ℤ × String) :=
  (Fields.field "protocolVersion" positiveInt).and
    (Fields.field "clientName" (.string fun s ↦ decide (utf16Length s ≤ 100)))

def clientFrameVariants : List (Variant ClientFrame) := [
  { tag := "hello"
    fields := Fields.field "hello" (.object clientHelloFields)
    inj := fun (protocolVersion, clientName) ↦ .hello protocolVersion clientName
    proj := fun
      | .hello protocolVersion clientName => some (protocolVersion, clientName)
      | _ => none },
  { tag := "command"
    fields := Fields.field "command" .unknown
    inj := .command
    proj := fun | .command command => some command | _ => none }]

def clientFrameUnion : TaggedUnion ClientFrame where
  key := "kind"
  variants := clientFrameVariants
  nodup := by decide
  fresh := by decide
  apart := by
    simp only [clientFrameVariants, List.pairwise_cons, List.forall_mem_cons, List.not_mem_nil,
      false_implies, List.Pairwise.nil, and_true, implies_true]

def clientFrameSchema : Schema ClientFrame := .object clientFrameUnion.fields

/-- What the socket itself answers. -/
inductive ServerFrame where
  | helloAck (protocolVersion daemonPid : ℤ)
  | helloReject (reason : String)
  | error (message : String)
deriving DecidableEq, Repr

def protocolVersion : ℤ := 1

/-! ## Lines -/

abbrev Text := List Char

/-- White space and line ends, as `trim` knows them. -/
def isSpace (c : Char) : Bool :=
  decide (c.toNat ∈ [0x09, 0x0A, 0x0B, 0x0C, 0x0D, 0x20, 0xA0, 0x1680, 0x2028, 0x2029, 0x202F,
    0x205F, 0x3000, 0xFEFF]) || decide (0x2000 ≤ c.toNat ∧ c.toNat ≤ 0x200A)

def trim (line : Text) : Text := ((line.dropWhile isSpace).reverse.dropWhile isSpace).reverse

/-- The lines that are handed on. -/
def kept (lines : List Text) : List Text := (lines.map trim).filter (!List.isEmpty ·)

/-- What a line is read as: a frame, or the message it is answered with. -/
abbrev Reading := Except String ClientFrame

section

variable (parse : Text → Option Value)

def readLine (line : Text) : Reading :=
  match parse line with
  | none => .error "unparseable frame"
  | some value =>
    match clientFrameSchema.dec value with
    | none => .error "malformed frame"
    | some frame => .ok frame

end

/-! ## The connection -/

structure Conn where
  handshaken : Bool
  clientName : String
  destroyed : Bool
  buffer : Text

def Conn.new : Conn := ⟨false, "(unknown)", false, []⟩

/-- What the connection does: it answers, or it calls a handler. -/
inductive Effect where
  | send (frame : ServerFrame)
  | onConnect (clientName : String)
  | onCommand (command : Value)
  | onDisconnect (clientName : String)

/-- Nothing is written to a destroyed socket. -/
def Conn.send (c : Conn) (frame : ServerFrame) : List Effect :=
  if c.destroyed then [] else [.send frame]

def versionReason (version : ℤ) : String :=
  "protocol version " ++ toString version ++ " != daemon " ++ toString protocolVersion

/-- What is done with a line, once it is read. -/
def onFrame (daemonPid : ℤ) (c : Conn) : Reading → Conn × List Effect
  | .error message => (c, c.send (.error message))
  | .ok frame =>
    if c.handshaken then
      match frame with
      | .command command => (c, [.onCommand command])
      | .hello _ _ => (c, [])
    else
      match frame with
      | .command _ =>
        ({ c with destroyed := true }, c.send (.helloReject "expected a hello frame first"))
      | .hello version clientName =>
        if version ≠ protocolVersion then
          ({ c with destroyed := true }, c.send (.helloReject (versionReason version)))
        else
          ({ c with handshaken := true, clientName := clientName },
            c.send (.helloAck protocolVersion daemonPid) ++ [.onConnect clientName])

def onFrames (daemonPid : ℤ) : Conn → List Reading → Conn × List Effect
  | c, [] => (c, [])
  | c, r :: rs =>
    let (c', effects) := onFrame daemonPid c r
    let (c'', effects') := onFrames daemonPid c' rs
    (c'', effects ++ effects')

variable (parse : Text → Option Value) (daemonPid : ℤ)

/-- A chunk arrives. A destroyed socket delivers no more of them. -/
def onData (c : Conn) (chunk : List UInt8) : Conn × List Effect :=
  if c.destroyed then (c, [])
  else
    let (lines, rest) := Lines.cut '\n' (c.buffer ++ Utf8.decode chunk)
    onFrames daemonPid { c with buffer := rest } ((kept lines).map (readLine parse))

def receive : Conn → List (List UInt8) → Conn × List Effect
  | c, [] => (c, [])
  | c, chunk :: chunks =>
    let (c', effects) := onData parse daemonPid c chunk
    let (c'', effects') := receive c' chunks
    (c'', effects ++ effects')

/-! ## What is dispatched -/

def Effect.command? : Effect → Option Value
  | .onCommand command => some command
  | _ => none

def Effect.isReject : Effect → Bool
  | .send (.helloReject _) => true
  | _ => false

/-- What the daemon is given, in order. -/
def dispatched (effects : List Effect) : List Value := effects.filterMap Effect.command?

/-- Nothing is dispatched after a hello was rejected. -/
def QuietAfterReject (effects : List Effect) : Prop :=
  effects.Pairwise fun e e' ↦ e.isReject = true → e'.command? = none

/-- A hello of the daemon's version. -/
def opens : Reading → Bool
  | .ok (.hello version _) => decide (version = protocolVersion)
  | _ => false

def isFrame : Reading → Bool
  | .ok _ => true
  | .error _ => false

def Reading.command? : Reading → Option Value
  | .ok (.command command) => some command
  | _ => none

def commands (rs : List Reading) : List Value := rs.filterMap Reading.command?

/-- The commands a client may expect to be dispatched: those that follow the first line, if that is
a hello of the daemon's version. -/
def expected (rs : List Reading) : List Value :=
  match rs with
  | [] => []
  | r :: rs => if opens r then commands rs else []

/-- The lines of the bytes, decoded whole. -/
def wholeReadings (bytes : List UInt8) : List Reading :=
  (kept (Lines.cut '\n' (Utf8.decode bytes)).1).map (readLine parse)

/-- The lines that end in each of the chunks, decoded chunk by chunk. -/
def readingsByChunk (buffer : Text) (chunks : List (List UInt8)) : List (List Reading) :=
  (Lines.byPart '\n' buffer (chunks.map Utf8.decode)).map fun lines ↦
    (kept lines).map (readLine parse)

/-! ## One line after the other -/

theorem onFrames_cons (c : Conn) (r : Reading) (rs : List Reading) :
    onFrames daemonPid c (r :: rs) = ((onFrames daemonPid (onFrame daemonPid c r).1 rs).1,
      (onFrame daemonPid c r).2 ++ (onFrames daemonPid (onFrame daemonPid c r).1 rs).2) := rfl

theorem onFrames_append (c : Conn) (rs rs' : List Reading) :
    onFrames daemonPid c (rs ++ rs') =
      ((onFrames daemonPid (onFrames daemonPid c rs).1 rs').1,
        (onFrames daemonPid c rs).2 ++ (onFrames daemonPid (onFrames daemonPid c rs).1 rs').2) := by
  induction rs generalizing c with
  | nil => rfl
  | cons r rs ih =>
    rw [List.cons_append, onFrames_cons, onFrames_cons, ih, List.append_assoc]

/-- What is kept for the next chunk has no part in what is done with a line. -/
theorem onFrame_buffer (c : Conn) (buffer : Text) (r : Reading) :
    onFrame daemonPid { c with buffer := buffer } r =
      ({ (onFrame daemonPid c r).1 with buffer := buffer }, (onFrame daemonPid c r).2) := by
  rcases r with message | (⟨version, clientName⟩ | command)
  · rfl
  · simp only [onFrame]
    split_ifs <;> rfl
  · simp only [onFrame]
    split_ifs <;> rfl

theorem onFrames_buffer (c : Conn) (buffer : Text) (rs : List Reading) :
    onFrames daemonPid { c with buffer := buffer } rs =
      ({ (onFrames daemonPid c rs).1 with buffer := buffer }, (onFrames daemonPid c rs).2) := by
  induction rs generalizing c with
  | nil => rfl
  | cons r rs ih => rw [onFrames_cons, onFrames_cons, onFrame_buffer, ih]

theorem dispatched_append (es es' : List Effect) :
    dispatched (es ++ es') = dispatched es ++ dispatched es' := List.filterMap_append

theorem dispatched_send (c : Conn) (frame : ServerFrame) : dispatched (c.send frame) = [] := by
  rw [Conn.send]
  split_ifs <;> rfl

theorem isReject_send {c : Conn} {frame : ServerFrame} (h : (Effect.send frame).isReject = false) :
    ∀ e ∈ c.send frame, e.isReject = false := by
  intro e he
  rw [Conn.send] at he
  split_ifs at he
  · cases he
  · rwa [List.mem_singleton.mp he]

/-! ### After the hello -/

section Handshaken

variable {c : Conn} (h : c.handshaken = true)

include h

theorem onFrame_handshaken (r : Reading) : (onFrame daemonPid c r).1 = c ∧
    dispatched (onFrame daemonPid c r).2 = r.command?.toList ∧
      ∀ e ∈ (onFrame daemonPid c r).2, e.isReject = false := by
  rcases r with message | (⟨version, clientName⟩ | command)
  · exact ⟨rfl, dispatched_send c _, isReject_send rfl⟩
  · rw [onFrame, if_pos h]
    exact ⟨rfl, rfl, fun e he ↦ absurd he List.not_mem_nil⟩
  · rw [onFrame, if_pos h]
    refine ⟨rfl, rfl, fun e he ↦ ?_⟩
    rw [List.mem_singleton.mp he]
    rfl

theorem onFrames_handshaken (rs : List Reading) : (onFrames daemonPid c rs).1 = c ∧
    dispatched (onFrames daemonPid c rs).2 = commands rs ∧
      ∀ e ∈ (onFrames daemonPid c rs).2, e.isReject = false := by
  induction rs with
  | nil => exact ⟨rfl, rfl, fun e he ↦ absurd he List.not_mem_nil⟩
  | cons r rs ih =>
    obtain ⟨hc, hdispatched, hreject⟩ := onFrame_handshaken daemonPid h r
    rw [onFrames_cons, hc]
    refine ⟨ih.1, ?_, fun e he ↦ ?_⟩
    · rw [dispatched_append, hdispatched, ih.2.1, commands, commands, List.filterMap_cons]
      cases r.command? <;> rfl
    · rcases List.mem_append.mp he with he | he
      · exact hreject e he
      · exact ih.2.2 e he

end Handshaken

/-! ### Before the hello -/

/-- The commands that follow the first hello of the daemon's version, wherever it stands. -/
def commandsAfterHello : List Reading → List Value
  | [] => []
  | r :: rs => if opens r then commands rs else commandsAfterHello rs

/-- A frame that comes before the hello is not a hello of the daemon's version. -/
def refused (rs : List Reading) : Bool :=
  match rs.find? isFrame with
  | some r => !opens r
  | none => false

section Waiting

variable {c : Conn} (h : c.handshaken = false)

include h

theorem onFrame_opens {r : Reading} (hr : opens r = true) :
    (onFrame daemonPid c r).1.handshaken = true ∧
      (onFrame daemonPid c r).1.destroyed = c.destroyed ∧
        dispatched (onFrame daemonPid c r).2 = [] ∧
          ∀ e ∈ (onFrame daemonPid c r).2, e.isReject = false := by
  rcases r with message | (⟨version, clientName⟩ | command)
  · cases hr
  · have hversion : version = protocolVersion := of_decide_eq_true hr
    simp only [onFrame, h, hversion]
    refine ⟨rfl, rfl, ?_, fun e he ↦ ?_⟩
    · rw [if_neg (by simp), if_neg (by simp), dispatched_append, dispatched_send]
      rfl
    · rw [if_neg (by simp), if_neg (by simp)] at he
      rcases List.mem_append.mp he with he | he
      · exact isReject_send rfl e he
      · rw [List.mem_singleton.mp he]
        rfl
  · cases hr

theorem onFrame_refused {r : Reading} (hframe : isFrame r = true) (hr : opens r = false) :
    (onFrame daemonPid c r).1 = { c with destroyed := true } ∧
      ∃ reason, (onFrame daemonPid c r).2 = c.send (.helloReject reason) := by
  rcases r with message | (⟨version, clientName⟩ | command)
  · cases hframe
  · have hversion : version ≠ protocolVersion := of_decide_eq_false hr
    simp only [onFrame, h]
    rw [if_neg (by simp), if_pos hversion]
    exact ⟨rfl, _, rfl⟩
  · simp only [onFrame, h]
    exact ⟨rfl, _, rfl⟩

omit h in
variable (c) in
theorem onFrame_unreadable {r : Reading} (hframe : isFrame r = false) :
    (onFrame daemonPid c r).1 = c ∧ dispatched (onFrame daemonPid c r).2 = [] ∧
      ∀ e ∈ (onFrame daemonPid c r).2, e.isReject = false := by
  rcases r with message | frame
  · exact ⟨rfl, dispatched_send c _, isReject_send rfl⟩
  · cases hframe

omit h in
theorem opens_of_unreadable {r : Reading} (hframe : isFrame r = false) : opens r = false := by
  rcases r with message | frame
  · rfl
  · cases hframe

/-- **What is dispatched** is what follows a hello, whatever was refused before it. -/
theorem dispatched_onFrames (rs : List Reading) :
    dispatched (onFrames daemonPid c rs).2 = commandsAfterHello rs := by
  induction rs generalizing c with
  | nil => rfl
  | cons r rs ih =>
    rw [onFrames_cons, dispatched_append, commandsAfterHello]
    rcases hr : opens r with - | -
    · rw [if_neg Bool.false_ne_true]
      rcases hframe : isFrame r with - | -
      · obtain ⟨hc, hdispatched, -⟩ := onFrame_unreadable daemonPid c hframe
        rw [hc, hdispatched, ih h]
        rfl
      · obtain ⟨hc, reason, heffects⟩ := onFrame_refused daemonPid h hframe hr
        rw [hc, heffects, dispatched_send, List.nil_append]
        exact ih h
    · rw [if_pos rfl]
      obtain ⟨hshaken, -, hdispatched, -⟩ := onFrame_opens daemonPid h hr
      rw [hdispatched, (onFrames_handshaken daemonPid hshaken rs).2.1]
      rfl

/-- **Nothing is dispatched after a reject** unless a hello and a command follow a refused frame. -/
theorem quietAfterReject_iff (hopen : c.destroyed = false) (rs : List Reading) :
    QuietAfterReject (onFrames daemonPid c rs).2 ↔
      (refused rs = true → commandsAfterHello rs = []) := by
  induction rs with
  | nil => exact ⟨fun _ _ ↦ rfl, fun _ ↦ List.Pairwise.nil⟩
  | cons r rs ih =>
    rw [onFrames_cons, QuietAfterReject, refused, List.find?_cons, commandsAfterHello]
    rcases hframe : isFrame r with - | -
    · -- the line is answered, and everything else is as without it
      obtain ⟨hc, -, hreject⟩ := onFrame_unreadable daemonPid c hframe
      rw [hc, List.pairwise_append, if_neg (by rw [opens_of_unreadable hframe]; simp)]
      refine Iff.trans ⟨fun hquiet ↦ hquiet.2.1, fun hquiet ↦ ⟨?_, hquiet, ?_⟩⟩ ih
      · refine List.pairwise_of_forall_mem_list fun e he e' _ hreject' ↦ ?_
        rw [hreject e he] at hreject'
        cases hreject'
      · intro e he e' _ hreject'
        rw [hreject e he] at hreject'
        cases hreject'
    rcases hr : opens r with - | -
    · -- the connection is refused here, so any later command would be too late
      obtain ⟨hc, reason, heffects⟩ := onFrame_refused daemonPid h hframe hr
      have hrest := dispatched_onFrames daemonPid (c := { c with destroyed := true }) h rs
      rw [heffects, hc, Conn.send, hopen, if_neg Bool.false_ne_true, if_neg Bool.false_ne_true,
        List.singleton_append, List.pairwise_cons, ← hrest, dispatched, List.filterMap_eq_nil_iff]
      refine ⟨fun hquiet _ e he ↦ hquiet.1 e he rfl, fun hnone ↦ ⟨fun e he _ ↦ ?_, ?_⟩⟩
      · exact hnone (by simp [hr]) e he
      · exact List.pairwise_of_forall_mem_list fun e _ e' he' _ ↦ hnone (by simp [hr]) e' he'
    · obtain ⟨hshaken, -, -, hreject⟩ := onFrame_opens daemonPid h hr
      obtain ⟨-, -, hreject'⟩ := onFrames_handshaken daemonPid hshaken rs
      refine ⟨fun _ hrefused ↦ ?_, fun _ ↦ ?_⟩
      · simp only [hr, Bool.not_true, Bool.false_eq_true] at hrefused
      · refine List.pairwise_of_forall_mem_list fun e he e' _ hreject'' ↦ ?_
        rcases List.mem_append.mp he with he | he
        · rw [hreject e he] at hreject''
          cases hreject''
        · rw [hreject' e he] at hreject''
          cases hreject''

omit h in
theorem onFrames_of_unreadable {rs : List Reading} (hrs : rs.find? isFrame = none) :
    (onFrames daemonPid c rs).1 = c := by
  induction rs with
  | nil => rfl
  | cons r rs ih =>
    rw [List.find?_eq_none] at hrs
    have hr : isFrame r = false := by simpa using hrs r List.mem_cons_self
    rw [onFrames_cons, (onFrame_unreadable daemonPid c hr).1]
    exact ih (List.find?_eq_none.mpr fun r' hr' ↦ hrs r' (List.mem_cons_of_mem r hr'))

omit h in
theorem onFrame_destroyed (hc : c.destroyed = true) (r : Reading) :
    (onFrame daemonPid c r).1.destroyed = true := by
  rcases r with message | (⟨version, clientName⟩ | command)
  · exact hc
  · simp only [onFrame]
    split_ifs <;> first | exact hc | rfl
  · simp only [onFrame]
    split_ifs <;> first | exact hc | rfl

omit h in
theorem onFrames_destroyed (hc : c.destroyed = true) (rs : List Reading) :
    (onFrames daemonPid c rs).1.destroyed = true := by
  induction rs generalizing c with
  | nil => exact hc
  | cons r rs ih =>
    rw [onFrames_cons]
    exact ih (onFrame_destroyed daemonPid hc r)

/-- The first frame decides what becomes of the connection. -/
theorem onFrames_of_first {rs : List Reading} {r : Reading} (hrs : rs.find? isFrame = some r) :
    if opens r then (onFrames daemonPid c rs).1.handshaken = true ∧
        (onFrames daemonPid c rs).1.destroyed = c.destroyed
      else (onFrames daemonPid c rs).1.destroyed = true := by
  induction rs with
  | nil => cases hrs
  | cons r' rs ih =>
    rw [List.find?_cons] at hrs
    rw [onFrames_cons]
    rcases hframe : isFrame r' with - | -
    · rw [hframe] at hrs
      rw [(onFrame_unreadable daemonPid c hframe).1]
      exact ih hrs
    · rw [hframe] at hrs
      obtain rfl : r' = r := Option.some.inj hrs
      rcases hr : opens r' with - | -
      · rw [if_neg Bool.false_ne_true]
        refine onFrames_destroyed daemonPid ?_ rs
        rw [(onFrame_refused daemonPid h hframe hr).1]
      · rw [if_pos rfl]
        obtain ⟨hshaken, hdestroyed, -⟩ := onFrame_opens daemonPid h hr
        rw [(onFrames_handshaken daemonPid hshaken rs).1]
        exact ⟨hshaken, hdestroyed⟩

end Waiting

/-! ## One chunk after the other -/

/-- The lines that reach the connection: to the end of the chunk in which it is refused. -/
def delivered : List (List Reading) → List Reading
  | [] => []
  | rs :: rest =>
    match rs.find? isFrame with
    | none => rs ++ delivered rest
    | some r => if opens r then rs ++ rest.flatten else rs

theorem receive_cons (c : Conn) (chunk : List UInt8) (chunks : List (List UInt8)) :
    receive parse daemonPid c (chunk :: chunks) =
      ((receive parse daemonPid (onData parse daemonPid c chunk).1 chunks).1,
        (onData parse daemonPid c chunk).2 ++
          (receive parse daemonPid (onData parse daemonPid c chunk).1 chunks).2) := rfl

theorem receive_destroyed (c : Conn) (hc : c.destroyed = true) (chunks : List (List UInt8)) :
    (receive parse daemonPid c chunks).2 = [] := by
  induction chunks with
  | nil => rfl
  | cons chunk chunks ih =>
    have hdata : onData parse daemonPid c chunk = (c, []) := if_pos hc
    rw [receive_cons, hdata, ih]
    rfl

/-- The lines of the next chunk are taken up, and the connection keeps what is left of it. -/
theorem onData_eq {c : Conn} (hc : c.destroyed = false) (chunk : List UInt8) :
    onData parse daemonPid c chunk =
      ({ (onFrames daemonPid c ((kept (Lines.cut '\n' (c.buffer ++ Utf8.decode chunk)).1).map
          (readLine parse))).1 with
        buffer := (Lines.cut '\n' (c.buffer ++ Utf8.decode chunk)).2 },
        (onFrames daemonPid c ((kept (Lines.cut '\n' (c.buffer ++ Utf8.decode chunk)).1).map
          (readLine parse))).2) := by
  rw [onData, if_neg (by rw [hc]; simp)]
  exact onFrames_buffer daemonPid c _ _

theorem readingsByChunk_cons (buffer : Text) (chunk : List UInt8) (chunks : List (List UInt8)) :
    readingsByChunk parse buffer (chunk :: chunks) =
      (kept (Lines.cut '\n' (buffer ++ Utf8.decode chunk)).1).map (readLine parse) ::
        readingsByChunk parse (Lines.cut '\n' (buffer ++ Utf8.decode chunk)).2 chunks := rfl

theorem receive_handshaken (c : Conn) (hc : c.handshaken = true) (hopen : c.destroyed = false)
    (chunks : List (List UInt8)) : (receive parse daemonPid c chunks).2 =
      (onFrames daemonPid c (readingsByChunk parse c.buffer chunks).flatten).2 := by
  induction chunks generalizing c with
  | nil => rfl
  | cons chunk chunks ih =>
    rw [receive_cons, onData_eq parse daemonPid hopen, readingsByChunk_cons, List.flatten_cons,
      onFrames_append]
    generalize (kept (Lines.cut '\n' (c.buffer ++ Utf8.decode chunk)).1).map (readLine parse) = rs
    generalize (Lines.cut '\n' (c.buffer ++ Utf8.decode chunk)).2 = rest
    have hsame : (onFrames daemonPid c rs).1 = c := (onFrames_handshaken daemonPid hc rs).1
    have hrest : (receive parse daemonPid { c with buffer := rest } chunks).2 =
        (onFrames daemonPid { c with buffer := rest }
          (readingsByChunk parse rest chunks).flatten).2 :=
      ih { c with buffer := rest } hc hopen
    rw [onFrames_buffer] at hrest
    rw [hsame, hrest]

/-- **What the connection does** is what it does with the lines that reach it. -/
theorem receive_waiting {c : Conn} (hc : c.handshaken = false) (hopen : c.destroyed = false)
    (chunks : List (List UInt8)) : (receive parse daemonPid c chunks).2 =
      (onFrames daemonPid c (delivered (readingsByChunk parse c.buffer chunks))).2 := by
  induction chunks generalizing c with
  | nil => rfl
  | cons chunk chunks ih =>
    rw [receive_cons, onData_eq parse daemonPid hopen, readingsByChunk_cons, delivered]
    generalize (kept (Lines.cut '\n' (c.buffer ++ Utf8.decode chunk)).1).map (readLine parse) = rs
    generalize (Lines.cut '\n' (c.buffer ++ Utf8.decode chunk)).2 = rest
    rcases hrs : rs.find? isFrame with - | r
    · have hsame : (onFrames daemonPid c rs).1 = c := onFrames_of_unreadable daemonPid hrs
      have hrest : (receive parse daemonPid { c with buffer := rest } chunks).2 =
          (onFrames daemonPid { c with buffer := rest }
            (delivered (readingsByChunk parse rest chunks))).2 := ih hc hopen
      rw [onFrames_buffer] at hrest
      simp only
      rw [onFrames_append, hsame, hrest]
    · have hfirst := onFrames_of_first daemonPid hc hrs
      simp only
      rcases hr : opens r with - | -
      · rw [hr, if_neg Bool.false_ne_true] at hfirst
        have hrest : (receive parse daemonPid
            { (onFrames daemonPid c rs).1 with buffer := rest } chunks).2 = [] :=
          receive_destroyed parse daemonPid { (onFrames daemonPid c rs).1 with buffer := rest }
            hfirst chunks
        rw [if_neg Bool.false_ne_true, hrest, List.append_nil]
      · rw [hr, if_pos rfl] at hfirst
        have hrest : (receive parse daemonPid
            { (onFrames daemonPid c rs).1 with buffer := rest } chunks).2 =
              (onFrames daemonPid { (onFrames daemonPid c rs).1 with buffer := rest }
                (readingsByChunk parse rest chunks).flatten).2 :=
          receive_handshaken parse daemonPid { (onFrames daemonPid c rs).1 with buffer := rest }
            hfirst.1 (hfirst.2.trans hopen) chunks
        rw [onFrames_buffer daemonPid (onFrames daemonPid c rs).1 rest] at hrest
        rw [if_pos rfl, onFrames_append, hrest]

/-! ## Commands, each once and in order -/

/-- The first line is a hello of the daemon's version. -/
def opensFirst (rs : List Reading) : Bool := rs.head?.any opens

/-- What a client is promised: the commands that follow its hello, and nothing after a reject. -/
def DispatchesExactly (chunks : List (List UInt8)) : Prop :=
  dispatched (receive parse daemonPid Conn.new chunks).2 =
      expected (wholeReadings parse chunks.flatten) ∧
    QuietAfterReject (receive parse daemonPid Conn.new chunks).2

theorem expected_eq (rs : List Reading) :
    expected rs = if opensFirst rs then commands rs.tail else [] := by
  cases rs <;> rfl

theorem commandsAfterHello_of_opensFirst {rs : List Reading} (h : opensFirst rs = true) :
    commandsAfterHello rs = commands rs.tail := by
  rcases rs with - | ⟨r, rs⟩
  · rfl
  · exact if_pos h

theorem isFrame_of_opens {r : Reading} (h : opens r = true) : isFrame r = true := by
  rcases r with message | frame
  · cases h
  · rfl

theorem refused_of_opensFirst {rs : List Reading} (h : opensFirst rs = true) :
    refused rs = false := by
  rcases rs with - | ⟨r, rs⟩
  · rfl
  · have hr : opens r = true := h
    simp [refused, isFrame_of_opens hr, hr]

/-- A connection that begins with the hello is not refused: all its lines reach it. -/
theorem delivered_of_opensFirst {groups : List (List Reading)}
    (h : opensFirst groups.flatten = true) : delivered groups = groups.flatten := by
  induction groups with
  | nil => rfl
  | cons rs rest ih =>
    rcases rs with - | ⟨r, rs⟩
    · exact ih h
    · have hr : opens r = true := h
      simp [delivered, isFrame_of_opens hr, hr]

theorem kept_flatten (groups : List (List Text)) :
    kept groups.flatten = (groups.map kept).flatten := by
  rw [kept, List.map_flatten, List.filter_flatten, List.map_map]
  rfl

/-- Where no chunk ends inside a character, the lines are what they are decoded whole. -/
theorem readingsByChunk_flatten {chunks : List (List UInt8)}
    (h : ∀ chunk ∈ chunks.dropLast, Utf8.Whole chunk) :
    (readingsByChunk parse [] chunks).flatten = wholeReadings parse chunks.flatten := by
  have hlines : (Lines.byPart '\n' [] (chunks.map Utf8.decode)).flatten =
      (Lines.cut '\n' (Utf8.decode chunks.flatten)).1 := by
    rw [Lines.byPart_flatten rfl, Utf8.decode_flatten h, List.nil_append]
  rw [wholeReadings, ← hlines, kept_flatten, List.map_flatten, List.map_map]
  rfl

/-- The commands are what the client sent. If its first line is the hello, decoded whole and chunk
by chunk, the lines after it carry the same commands either way. If its first line is something
else, no command follows a hello among the lines that reach the connection. In between, where a cut
has made something else of the hello, it takes a later hello, and the same commands after it. -/
def KeepsCommands (chunks : List (List UInt8)) : Prop :=
  let whole := wholeReadings parse chunks.flatten
  let groups := readingsByChunk parse [] chunks
  if opensFirst whole then
    if opensFirst groups.flatten then commands groups.flatten.tail = commands whole.tail
    else commandsAfterHello (delivered groups) = commands whole.tail ∧
      (refused (delivered groups) = true → commands whole.tail = [])
  else commandsAfterHello (delivered groups) = []

theorem dispatched_receive (chunks : List (List UInt8)) :
    dispatched (receive parse daemonPid Conn.new chunks).2 =
      commandsAfterHello (delivered (readingsByChunk parse [] chunks)) := by
  rw [receive_waiting parse daemonPid rfl rfl, dispatched_onFrames daemonPid rfl]
  rfl

theorem quietAfterReject_receive (chunks : List (List UInt8)) :
    QuietAfterReject (receive parse daemonPid Conn.new chunks).2 ↔
      (refused (delivered (readingsByChunk parse [] chunks)) = true →
        commandsAfterHello (delivered (readingsByChunk parse [] chunks)) = []) := by
  rw [receive_waiting parse daemonPid rfl rfl, quietAfterReject_iff daemonPid rfl rfl]
  rfl

/-- **The promise to the client**, for every stream and every way it is cut into chunks. Where no
chunk ends inside a character, it is kept exactly when the first line is the hello, or else no
command follows a hello in the chunk in which the connection is refused. -/
theorem dispatchesExactly_iff_keepsCommands (chunks : List (List UInt8)) :
    (DispatchesExactly parse daemonPid chunks ↔ KeepsCommands parse chunks) ∧
      ((∀ chunk ∈ chunks.dropLast, Utf8.Whole chunk) →
        (DispatchesExactly parse daemonPid chunks ↔
          opensFirst (wholeReadings parse chunks.flatten) = true ∨
            commandsAfterHello (delivered (readingsByChunk parse [] chunks)) = [])) := by
  have hiff : DispatchesExactly parse daemonPid chunks ↔ KeepsCommands parse chunks := by
    rw [DispatchesExactly, quietAfterReject_receive, dispatched_receive, expected_eq, KeepsCommands]
    split_ifs with hwhole hfirst
    · rw [delivered_of_opensFirst hfirst, refused_of_opensFirst hfirst,
        commandsAfterHello_of_opensFirst hfirst]
      simp
    · exact and_congr_right fun h ↦ by rw [h]
    · exact ⟨fun h ↦ h.1, fun h ↦ ⟨h, fun _ ↦ h⟩⟩
  refine ⟨hiff, fun hcuts ↦ ?_⟩
  rw [hiff, KeepsCommands, readingsByChunk_flatten parse hcuts]
  split_ifs with hwhole
  · exact iff_of_true rfl (.inl hwhole)
  · exact (or_iff_right hwhole).symm

/-! ### A hello after the reject -/

private def helloLine : String :=
  "\x7b\"kind\":\"hello\",\"hello\":\x7b\"protocolVersion\":1,\"clientName\":\"cli\"\x7d\x7d"

private def commandLine : String := "\x7b\"kind\":\"command\",\"command\":1\x7d"

/-- What the two lines say. -/
private def parseLine (line : Text) : Option Value :=
  if line = helloLine.toList then
    some (.obj [("kind", .str "hello"),
      ("hello", .obj [("protocolVersion", .int 1), ("clientName", .str "cli")])])
  else if line = commandLine.toList then
    some (.obj [("kind", .str "command"), ("command", .int 1)])
  else none

/-- A command, which is rejected; then a hello and a command, in the same chunk. -/
private def lateHello : List UInt8 :=
  Utf8.encode (commandLine ++ "\n" ++ helloLine ++ "\n" ++ commandLine ++ "\n").toList

/-- **A command is dispatched after the reject** of another. -/
theorem not_dispatchesExactly_lateHello : ¬ DispatchesExactly parseLine 1 [lateHello] := by
  rintro ⟨hdispatched, -⟩
  have hlength := congrArg List.length hdispatched
  rw [dispatched_receive, readingsByChunk, wholeReadings, List.map_singleton,
    List.flatten_singleton, lateHello, Utf8.decode_encode] at hlength
  revert hlength
  simp only [String.toList_append, commandLine, helloLine, String.reduceToList]
  decide +kernel

end QwenHarness.Daemon
