import QwenHarness.Codec.Delimited
import QwenHarness.Codec.Utf16

/-!
# Cron expressions

An expression has five fields, each a list of parts: a star, a number or a range, and perhaps a
step. A field is read into the set of numbers that match it.
-/

namespace QwenHarness.Scheduler

open Utf16

/-! ## Fields -/

inductive CronFieldName
  | minute
  | hour
  | dayOfMonth
  | month
  | dayOfWeek
deriving DecidableEq, Repr

def CronFieldName.text : CronFieldName → Text
  | minute => ofString "minute"
  | hour => ofString "hour"
  | dayOfMonth => ofString "day-of-month"
  | month => ofString "month"
  | dayOfWeek => ofString "day-of-week"

/-- A field's inclusive bounds. -/
structure FieldSpec where
  name : CronFieldName
  min : ℕ
  max : ℕ
deriving DecidableEq, Repr

def minuteSpec : FieldSpec := ⟨.minute, 0, 59⟩

def hourSpec : FieldSpec := ⟨.hour, 0, 23⟩

def dayOfMonthSpec : FieldSpec := ⟨.dayOfMonth, 1, 31⟩

def monthSpec : FieldSpec := ⟨.month, 1, 12⟩

def dayOfWeekSpec : FieldSpec := ⟨.dayOfWeek, 0, 6⟩

inductive CronErrorCode
  | wrongFieldCount
  | emptyField
  | notANumber
  | outOfRange
  | badRange
  | badStep
deriving DecidableEq, Repr

structure CronError where
  code : CronErrorCode
  message : Text
  field : Option CronFieldName
  token : Option Text
deriving DecidableEq, Repr

/-! ## Numbers -/

def star : CodeUnit := 0x2A

def comma : CodeUnit := 0x2C

def hyphen : CodeUnit := 0x2D

def solidus : CodeUnit := 0x2F

def isDigit (u : CodeUnit) : Bool := isBetween 0x30 0x39 u

/-- `/^\d+$/.test(token)`. -/
def isNumeral (t : Text) : Bool := !t.isEmpty && t.all isDigit

/-- `Number.parseInt(token, 10)`. Numbers that are too large for a double to be exact are outside
every field, so at most the error that a range of two of them gets could differ. -/
def numeral (t : Text) : ℕ := t.foldl (fun n u ↦ 10 * n + (u.val - 0x30)) 0

def decimal (n : ℕ) : Text := ofString (toString n)

def quoted (t : Text) : Text := ofString "\"" ++ t ++ ofString "\""

def notANumber (token : Text) (field : CronFieldName) : CronError where
  code := .notANumber
  message := field.text ++ ofString ": " ++ quoted token ++
    ofString " is not a non-negative integer"
  field := some field
  token := some token

def toInt (token : Text) (field : CronFieldName) : Except CronError ℕ :=
  if isNumeral token then .ok (numeral token) else .error (notANumber token field)

/-- Day-of-week 7 means Sunday, the same as 0. -/
def normalize (value : ℕ) (spec : FieldSpec) : ℕ :=
  if spec.name = .dayOfWeek ∧ value = 7 then 0 else value

def outOfRange (value : ℕ) (spec : FieldSpec) (token : Text) : CronError where
  code := .outOfRange
  message := spec.name.text ++ ofString ": " ++ decimal value ++ ofString " is outside " ++
    decimal spec.min ++ ofString "-" ++ decimal spec.max
  field := some spec.name
  token := some token

def assertInRange (value : ℕ) (spec : FieldSpec) (token : Text) : Except CronError Unit :=
  if value < spec.min ∨ spec.max < value then .error (outOfRange value spec token) else .ok ()

/-! ## Parts -/

/-- The numbers from one to another, by steps. -/
structure Span where
  lo : ℕ
  hi : ℕ
  step : ℕ
deriving DecidableEq, Repr

/-- `for (let v = lo; v <= hi; v += step)`. -/
def Span.values (s : Span) : List ℕ :=
  if s.hi < s.lo then [] else List.range' s.lo ((s.hi - s.lo) / s.step + 1) s.step

def zeroStep (spec : FieldSpec) (part : Text) : CronError where
  code := .badStep
  message := spec.name.text ++ ofString ": step must be >= 1 in " ++ quoted part
  field := some spec.name
  token := some part

def parseStep (spec : FieldSpec) (part : Text) : Option Text → Except CronError ℕ
  | none => .ok 1
  | some stepPart => do
    let step ← toInt stepPart spec.name
    if step = 0 then .error (zeroStep spec part) else .ok step

def malformedRange (spec : FieldSpec) (part rangePart : Text) : CronError where
  code := .badRange
  message := spec.name.text ++ ofString ": malformed range " ++ quoted rangePart
  field := some spec.name
  token := some part

def reversedRange (spec : FieldSpec) (part : Text) (lo hi : ℕ) : CronError where
  code := .badRange
  message := spec.name.text ++ ofString ": range start " ++ decimal lo ++
    ofString " exceeds end " ++ decimal hi
  field := some spec.name
  token := some part

/-- The bounds of a part. A bare number with a step goes up to the last number of the field. -/
def parseRange (spec : FieldSpec) (part rangePart : Text) (stepPart : Option Text) :
    Except CronError (ℕ × ℕ) :=
  if rangePart = [star] then .ok (spec.min, spec.max)
  else if rangePart.contains hyphen then
    match rangePart.splitOn hyphen with
    | [a, b] => do
      let a ← toInt a spec.name
      let b ← toInt b spec.name
      let lo := normalize a spec
      let hi := normalize b spec
      if hi < lo then .error (reversedRange spec part lo hi) else .ok (lo, hi)
    | _ => .error (malformedRange spec part rangePart)
  else do
    let n ← toInt rangePart spec.name
    let lo := normalize n spec
    .ok (lo, if stepPart.isNone then lo else spec.max)

def parseSpan (spec : FieldSpec) (part rangePart : Text) (stepPart : Option Text) :
    Except CronError Span := do
  let step ← parseStep spec part stepPart
  let (lo, hi) ← parseRange spec part rangePart stepPart
  assertInRange lo spec part
  assertInRange hi spec part
  .ok ⟨lo, hi, step⟩

def emptyElement (spec : FieldSpec) (raw : Text) : CronError where
  code := .emptyField
  message := spec.name.text ++ ofString ": empty list element in " ++ quoted raw
  field := some spec.name
  token := none

def malformedStep (spec : FieldSpec) (part : Text) : CronError where
  code := .badStep
  message := spec.name.text ++ ofString ": malformed step in " ++ quoted part
  field := some spec.name
  token := some part

def parsePart (spec : FieldSpec) (raw part : Text) : Except CronError Span :=
  if part.isEmpty then .error (emptyElement spec raw)
  else
    match part.splitOn solidus with
    | [rangePart] => parseSpan spec part rangePart none
    | [rangePart, stepPart] => parseSpan spec part rangePart (some stepPart)
    | _ => .error (malformedStep spec part)

/-! ## Expressions -/

/-- The numbers that match a field, and whether it is anything but a star. -/
structure CronField where
  values : List ℕ
  restricted : Bool
deriving DecidableEq, Repr

def emptyField (spec : FieldSpec) : CronError where
  code := .emptyField
  message := spec.name.text ++ ofString ": empty field"
  field := some spec.name
  token := none

def parseField (spec : FieldSpec) (raw : Text) : Except CronError CronField :=
  if raw.isEmpty then .error (emptyField spec)
  else do
    let spans ← (raw.splitOn comma).mapM (parsePart spec raw)
    .ok ⟨spans.flatMap Span.values, decide (raw ≠ [star])⟩

structure CronExpr where
  source : Text
  minute : List ℕ
  hour : List ℕ
  dayOfMonth : List ℕ
  month : List ℕ
  dayOfWeek : List ℕ
  domRestricted : Bool
  dowRestricted : Bool
deriving DecidableEq, Repr

def wrongFieldCount (count : ℕ) : CronError where
  code := .wrongFieldCount
  message :=
    ofString "expected 5 fields (minute hour day-of-month month day-of-week), got " ++ decimal count
  field := none
  token := none

/-- What stands between white space. Runs of it split like each of their units, since what is empty
is dropped. -/
def fieldsOf (expr : Text) : List Text :=
  ((trim expr).splitOnP isSpace).filter fun field ↦ !field.isEmpty

def parseCron (expr : Text) : Except CronError CronExpr :=
  match fieldsOf expr with
  | [minute, hour, dayOfMonth, month, dayOfWeek] => do
    let minute ← parseField minuteSpec minute
    let hour ← parseField hourSpec hour
    let dayOfMonth ← parseField dayOfMonthSpec dayOfMonth
    let month ← parseField monthSpec month
    let dayOfWeek ← parseField dayOfWeekSpec dayOfWeek
    .ok
      { source := trim expr
        minute := minute.values
        hour := hour.values
        dayOfMonth := dayOfMonth.values
        month := month.values
        dayOfWeek := dayOfWeek.values
        domRestricted := dayOfMonth.restricted
        dowRestricted := dayOfWeek.restricted }
  | fields => .error (wrongFieldCount fields.length)

end QwenHarness.Scheduler
