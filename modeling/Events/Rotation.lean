import Events.Types
import Events.Lib.Calendar
import Events.Lib.Decimal

/-!
# Rotation policies and event-file names

`src/rotation.rs`: the window a time falls into, the name of the event file of a window, and what
is read back from such a name. A name is

    events_YYYYMMDD[THH[MM]][_NNNNNN].db

with a day, hour or minute label, by the length of the window, and an ordinal for the files of one
window after the first.

Arithmetic that can panic returns `none`; a function that can panic as well as fail uses `Abort`.
-/

namespace Events

/-- `std::time::Duration`. -/
structure Duration where
  asSecs : Nat
  subsecNanos : Nat
  secs_lt : asSecs < 2 ^ 64
  nanos_lt : subsecNanos < 1000000000
  deriving DecidableEq

def Duration.fromSecs (secs : Nat) (h : secs < 2 ^ 64) : Duration := ⟨secs, 0, h, by decide⟩

def Duration.asMillis (d : Duration) : Nat := d.asSecs * 1000 + d.subsecNanos / 1000000

def Duration.isZero (d : Duration) : Bool := d.asSecs = 0 && d.subsecNanos = 0

def Duration.asNanos (d : Duration) : Nat := d.asSecs * 1000000000 + d.subsecNanos

/-- `as i64`: the residue modulo `2 ^ 64` between `-2 ^ 63` and `2 ^ 63 - 1`. -/
def toI64 (n : Nat) : Int :=
  if n % 2 ^ 64 < 2 ^ 63 then (n % 2 ^ 64 : Nat) else (n % 2 ^ 64 : Nat) - 2 ^ 64

def maxOverflowOrdinal : Nat := 999999

inductive RotationPolicy where
  | timeWindow (window : Duration) (maxBytes : Option Nat)
  deriving DecidableEq

namespace RotationPolicy

def window : RotationPolicy → Duration
  | timeWindow window _ => window

def maxBytes : RotationPolicy → Option Nat
  | timeWindow _ maxBytes => maxBytes

end RotationPolicy

/-- `window.as_millis() as i64`. -/
def windowMs (window : Duration) : Int := toI64 window.asMillis

/-- Floors a timestamp to the start of its time window. The division panics on a window of zero
and on overflow. -/
def floorToWindowMs (nowMs : Int) (window : Duration) : Option Int :=
  let wMs := windowMs window
  if wMs = 0 then none
  else if nowMs = -2 ^ 63 ∧ wMs = -1 then none
  else some (Int.tdiv nowMs wMs * wMs)

/-! ## Generating names -/

/-- `format!("{:04}", year)`: the sign counts for the width. -/
def yearText (year : Int) : Text :=
  if year < 0 then
    '-' :: (if -year < 1000 then Decimal.pad 3 (-year).toNat else Decimal.pad 4 (-year).toNat)
  else Decimal.pad 4 year.toNat

/-- `format!("{:02}", n)` of a month, a day, an hour or a minute. -/
def pad2 (n : Int) : Text := Decimal.pad 2 n.toNat

/-- Generates a human-readable label for a time window. -/
def labelFor (startMs : Int) (window : Duration) : Except EsError Text :=
  match OffsetDateTime.fromUnixTimestampNanos (startMs * 1000000) with
  | none => .error (.migration "Invalid timestamp for label generation")
  | some dt =>
    let secs := dt.unixTimestamp
    let date := Calendar.civilFromDays (secs / 86400)
    let day := yearText date.year ++ pad2 date.month ++ pad2 date.day
    let hour := pad2 (secs % 86400 / 3600)
    let minute := pad2 (secs % 3600 / 60)
    if 86400 ≤ window.asSecs then .ok day
    else if 3600 ≤ window.asSecs then .ok (day ++ 'T' :: hour)
    else .ok (day ++ 'T' :: (hour ++ minute))

/-- `"events_"`. -/
def namePrefix : Text := ['e', 'v', 'e', 'n', 't', 's', '_']

/-- `".db"`. -/
def nameSuffix : Text := ['.', 'd', 'b']

def generatePartitionName (startMs : Int) (window : Duration) (ordinal : Option Nat) :
    Except EsError Text := do
  let baseLabel ← labelFor startMs window
  match ordinal with
  | none => return namePrefix ++ baseLabel ++ nameSuffix
  | some ordinal =>
    if 1 ≤ ordinal ∧ ordinal ≤ maxOverflowOrdinal then
      return namePrefix ++ baseLabel ++ '_' :: (Decimal.pad 6 ordinal ++ nameSuffix)
    else throw (.invalidPartition s!"Invalid overflow ordinal: {ordinal}")

/-! ## Parsing names -/

/-- The first characters of the blocks of ten decimal digits of Unicode. -/
def digitBlocks : List Nat :=
  [0x30, 0x660, 0x6F0, 0x7C0, 0x966, 0x9E6, 0xA66, 0xAE6, 0xB66, 0xBE6, 0xC66, 0xCE6, 0xD66, 0xDE6,
   0xE50, 0xED0, 0xF20, 0x1040, 0x1090, 0x17E0, 0x1810, 0x1946, 0x19D0, 0x1A80, 0x1A90, 0x1B50,
   0x1BB0, 0x1C40, 0x1C50, 0xA620, 0xA8D0, 0xA900, 0xA9D0, 0xA9F0, 0xAA50, 0xABF0, 0xFF10, 0x104A0,
   0x10D30, 0x10D40, 0x11066, 0x110F0, 0x11136, 0x111D0, 0x112F0, 0x11450, 0x114D0, 0x11650,
   0x116C0, 0x116D0, 0x116DA, 0x11730, 0x118E0, 0x11950, 0x11BF0, 0x11C50, 0x11D50, 0x11DA0,
   0x11F50, 0x16130, 0x16A60, 0x16AC0, 0x16B50, 0x16D70, 0x1CCF0, 0x1D7CE, 0x1D7D8, 0x1D7E2,
   0x1D7EC, 0x1D7F6, 0x1E140, 0x1E2F0, 0x1E4F0, 0x1E5F1, 0x1E950, 0x1FBF0]

/-- `\d` of the `regex` crate: a decimal digit of any script. -/
def isDecimalDigit (c : Char) : Bool :=
  digitBlocks.any fun b => decide (b ≤ c.toNat) && decide (c.toNat < b + 10)

/-- `\d{n}` at the start of a text, with the rest. -/
def takeDigits : Nat → Text → Option (Text × Text)
  | 0, t => some ([], t)
  | _ + 1, [] => none
  | n + 1, c :: t =>
    if isDecimalDigit c then (takeDigits n t).map fun (ds, rest) => (c :: ds, rest) else none

/-- The rest of a text after a fixed start. -/
def stripPrefix : Text → Text → Option Text
  | [], t => some t
  | _ :: _, [] => none
  | p :: ps, c :: t => if p = c then stripPrefix ps t else none

/-- `(?:_(\d{6}))?\.db$`. -/
def captureOrdinal (t : Text) : Option (Option Text) :=
  if t = nameSuffix then some none
  else do
    let t ← stripPrefix ['_'] t
    let (ordinal, t) ← takeDigits 6 t
    if t = nameSuffix then some (some ordinal) else none

/-- `T(\d{n})` and what follows it. -/
def captureTime (n : Nat) (t : Text) : Option (Option Text × Option Text) := do
  let t ← stripPrefix ['T'] t
  let (time, t) ← takeDigits n t
  let ordinal ← captureOrdinal t
  return (some time, ordinal)

structure Captures where
  date : Text
  time : Option Text
  ordinal : Option Text

/-- The groups of `^events_(\d{8})(?:T(\d{2}|\d{4}))?(?:_(\d{6}))?\.db$`. -/
def captures (name : Text) : Option Captures := do
  let t ← stripPrefix namePrefix name
  let (date, t) ← takeDigits 8 t
  let (time, ordinal) ← captureTime 2 t <|> captureTime 4 t <|>
    (captureOrdinal t).map fun ordinal => (none, ordinal)
  return { date, time, ordinal }

/-- The part of a text after its first `n` bytes; there is none inside a character. -/
def dropBytes : Nat → Text → Option Text
  | 0, t => some t
  | _ + 1, [] => none
  | n + 1, c :: t => if c.utf8Size ≤ n + 1 then dropBytes (n + 1 - c.utf8Size) t else none

/-- The first `n` bytes of a text. -/
def takeBytes : Nat → Text → Option Text
  | 0, _ => some []
  | _ + 1, [] => none
  | n + 1, c :: t =>
    if c.utf8Size ≤ n + 1 then (takeBytes (n + 1 - c.utf8Size) t).map (c :: ·) else none

/-- `text[start..stop]`; off a character boundary it panics. -/
def slice (t : Text) (start stop : Nat) : Except Abort Text :=
  match (dropBytes start t).bind (takeBytes (stop - start)) with
  | some s => .ok s
  | none => .error .panic

def invalidPartition {α : Type} (message : String) : Except Abort α :=
  .error (.es (.invalidPartition message))

/-- `text.parse()` of an unsigned number that fits its type, with the error it is mapped to. -/
def parseNumber (t : Text) (max : Nat) (message : String) : Except Abort Nat :=
  match Decimal.parse t with
  | some n => if n ≤ max then .ok n else invalidPartition message
  | none => invalidPartition message

/-- Parses date components from a YYYYMMDD string. -/
def parseDateComponents (datePart : Text) : Except Abort (Nat × Nat × Nat) := do
  let year ← slice datePart 0 4
  let year ← parseNumber year (2 ^ 31 - 1) "Invalid year in partition name"
  let month ← slice datePart 4 6
  let month ← parseNumber month 255 "Invalid month in partition name"
  let day ← slice datePart 6 8
  let day ← parseNumber day 255 "Invalid day in partition name"
  return (year, month, day)

/-- Parses time component from a HH or HHMM string. -/
def parseTimeComponent (timePart : Text) : Except Abort (Nat × Option Nat) :=
  if timePart.len = 2 then do
    let hour ← slice timePart 0 2
    let hour ← parseNumber hour 255 "Invalid hour in partition name"
    return (hour, none)
  else if timePart.len = 4 then do
    let hour ← slice timePart 0 2
    let hour ← parseNumber hour 255 "Invalid hour in partition name"
    let minute ← slice timePart 2 4
    let minute ← parseNumber minute 255 "Invalid minute in partition name"
    return (hour, some minute)
  else invalidPartition s!"Invalid time format: {String.ofList timePart}"

/-- Creates a datetime with time components, as a UNIX timestamp in seconds. -/
def createDatetimeWithTime (date : Calendar.Civil) (hour : Nat) (minute : Option Nat) :
    Except Abort Int :=
  if hour < 24 ∧ minute.getD 0 < 60 then
    .ok (Calendar.daysFromCivil date * 86400 + hour * 3600 + minute.getD 0 * 60)
  else invalidPartition "Invalid time in partition name"

/-- Creates a datetime from parsed components, as a UNIX timestamp in seconds. -/
def createDatetime (year month day : Nat) (timePart : Option Text) : Except Abort Int := do
  if ¬(1 ≤ month ∧ month ≤ 12) then
    invalidPartition "Invalid month in partition name"
  let date : Calendar.Civil := ⟨year, month, day⟩
  if ¬(year ≤ 9999 ∧ date.Valid) then
    invalidPartition "Invalid date in partition name"
  match timePart with
  | some time =>
    let (hour, minute) ← parseTimeComponent time
    createDatetimeWithTime date hour minute
  | none => createDatetimeWithTime date 0 none

def parsePartitionName (name : Text) : Except Abort (Int × Option Nat) := do
  match captures name with
  | none => invalidPartition s!"Invalid partition name: {String.ofList name}"
  | some caps =>
    let ordinal ← match caps.ordinal with
      | none => pure none
      | some value =>
        some <$> parseNumber value (2 ^ 32 - 1)
          s!"Invalid overflow ordinal in {String.ofList name}"
    if ordinal = some 0 then
      invalidPartition s!"Invalid overflow ordinal in {String.ofList name}"
    let (year, month, day) ← parseDateComponents caps.date
    let dt ← createDatetime year month day caps.time
    return (dt * 1000, ordinal)

/-! ## When to rotate -/

def getNextOrdinal : Option Nat → Option Nat
  | none => some 1
  | some ordinal => if ordinal < maxOverflowOrdinal then some (ordinal + 1) else none

/-- Determines if rotation should occur based on file size. -/
def shouldRotateBySize (rotation : RotationPolicy) (currentFileSize : Nat) : Bool :=
  match rotation.maxBytes with
  | none => false
  | some maxBytes => !decide (currentFileSize < maxBytes)

/-- `should_rotate` at the clock reading `now`, which it takes in whole seconds; `none` is a panic of
the flooring. -/
def shouldRotate (rotation : RotationPolicy) (currentFileSize : Nat) (currentStartMs : Int)
    (now : OffsetDateTime) : Option Bool :=
  let nowMs := now.unixTimestamp * 1000
  (floorToWindowMs nowMs rotation.window).map fun windowStartMs =>
    if windowStartMs ≠ currentStartMs then true else shouldRotateBySize rotation currentFileSize

/-- `EventStream::determine_new_partition_info`. -/
def determineNewPartitionInfo (rotation : RotationPolicy) (currentStartMs : Int)
    (currentOrdinal : Option Nat) (nowMs : Int) : Except Abort (Text × Int × Option Nat) :=
  match floorToWindowMs nowMs rotation.window with
  | none => .error .panic
  | some newStartMs =>
    if newStartMs = currentStartMs then
      match getNextOrdinal currentOrdinal with
      | none => .error (.es (.rotationOrdinalExhausted maxOverflowOrdinal))
      | some ordinal =>
        match generatePartitionName newStartMs rotation.window (some ordinal) with
        | .ok newName => .ok (newName, newStartMs, some ordinal)
        | .error e => .error (.es e)
    else
      match generatePartitionName newStartMs rotation.window none with
      | .ok newName => .ok (newName, newStartMs, none)
      | .error e => .error (.es e)

end Events
