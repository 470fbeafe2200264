import Events.Error

/-!
# Events

The values a caller hands to an event stream and gets back (`src/event_stream.rs`,
`src/actor.rs`), the JSON documents inside them, and the conversion between an envelope and the
row of the `events` table that stores it.
-/

namespace Events

/-- `uuid::Uuid`. -/
structure Uuid where
  bits : BitVec 128
  deriving DecidableEq

/-! ## JSON documents -/

/-- `serde_json::Value`, a number being the text it is written as. -/
inductive Json where
  | null
  | bool (b : Bool)
  | number (literal : Text)
  | string (s : Text)
  | array (items : List Json)
  | object (fields : List (Text × Json))

/-- The number of bytes `serde_json` writes for a character of a string. -/
def escapedLen (c : Char) : Nat :=
  if c = '"' ∨ c = '\\' ∨ c = '\n' ∨ c = '\r' ∨ c = '\t' ∨ c = '\x08' ∨ c = '\x0c' then 2
  else if c.toNat < 32 then 6
  else c.utf8Size

/-- The number of bytes of a string with its quotes. -/
def quotedLen (s : Text) : Nat := 2 + (s.map escapedLen).sum

namespace Json

mutual

/-- The length in bytes of `serde_json::to_string`. -/
def len : Json → Nat
  | null => 4
  | bool b => if b then 4 else 5
  | number literal => literal.len
  | string s => quotedLen s
  | array items => 2 + lenItems items
  | object fields => 2 + lenFields fields

def lenItems : List Json → Nat
  | [] => 0
  | [x] => x.len
  | x :: xs => x.len + 1 + lenItems xs

def lenFields : List (Text × Json) → Nat
  | [] => 0
  | [(k, x)] => quotedLen k + 1 + x.len
  | (k, x) :: xs => quotedLen k + 1 + x.len + 1 + lenFields xs

end

mutual

/-- How deep the arrays and objects of a document are nested. -/
def depth : Json → Nat
  | array items => 1 + depthItems items
  | object fields => 1 + depthFields fields
  | _ => 0

def depthItems : List Json → Nat
  | [] => 0
  | x :: xs => max x.depth (depthItems xs)

def depthFields : List (Text × Json) → Nat
  | [] => 0
  | (_, x) :: xs => max x.depth (depthFields xs)

end

/-- The recursion limit of `serde_json::from_str`. -/
def recursionLimit : Nat := 128

end Json

/-- `serde_json::from_str` on the text that `serde_json::to_string` has written for a document. The crate is
not part of the repository, so what it answers is a parameter of the model. -/
class SerdeJson where
  fromStr : Json → Except EsError Json

/-- The document comes back from its text as it was. -/
def Json.IsReadBack [SerdeJson] (j : Json) : Prop := SerdeJson.fromStr j = .ok j

/-- Parsing inverts writing, but for documents that are nested to the recursion limit, which are refused. -/
structure SerdeJson.Inverts [SerdeJson] : Prop where
  reads : ∀ j : Json, j.depth < Json.recursionLimit → SerdeJson.fromStr j = .ok j
  refuses : ∀ j : Json, Json.recursionLimit ≤ j.depth → ∃ err, SerdeJson.fromStr j = .error err

theorem SerdeJson.Inverts.isReadBack_iff [SerdeJson] (h : SerdeJson.Inverts) {j : Json} :
    j.IsReadBack ↔ j.depth < Json.recursionLimit := by
  refine ⟨fun hread => ?_, h.reads j⟩
  by_contra hdeep
  obtain ⟨err, herr⟩ := h.refuses j (Nat.le_of_not_lt hdeep)
  rw [Json.IsReadBack, herr] at hread
  cases hread

/-- The parser that inverts writing below the recursion limit. -/
@[reducible] def SerdeJson.limited : SerdeJson where
  fromStr j :=
    if j.depth < Json.recursionLimit then .ok j else .error (.serde "recursion limit exceeded")

theorem SerdeJson.inverts_limited : @SerdeJson.Inverts SerdeJson.limited :=
  letI := SerdeJson.limited
  { reads := fun _ hdepth => if_pos hdepth
    refuses := fun _ hdeep => ⟨_, if_neg (Nat.not_lt.2 hdeep)⟩ }

/-! ## Actors, workflows and new events -/

inductive ActorType where
  | user
  | system
  | admin
  | apiKey
  deriving DecidableEq

namespace ActorType

/-- `ActorType::as_str`. -/
def asStr : ActorType → Text
  | user => ['u', 's', 'e', 'r']
  | system => ['s', 'y', 's', 't', 'e', 'm']
  | admin => ['a', 'd', 'm', 'i', 'n']
  | apiKey => ['a', 'p', 'i', '_', 'k', 'e', 'y']

/-- `ActorType::from_str`. The error is the text of `ActorTypeParseError`. -/
def fromStr (s : Text) : Except String ActorType :=
  if s = user.asStr then .ok user
  else if s = system.asStr then .ok system
  else if s = admin.asStr then .ok admin
  else if s = apiKey.asStr then .ok apiKey
  else .error s!"invalid actor type: {String.ofList s}"

@[simp] theorem fromStr_asStr (a : ActorType) : fromStr a.asStr = .ok a := by
  cases a <;> rfl

end ActorType

inductive WorkflowRef where
  | none
  | startsThisWorkflow
  | continues (startedByEventId : Uuid)
  deriving DecidableEq

structure NewEvent where
  type : Text
  payload : Json
  workflowKind : Option Text
  workflow : WorkflowRef
  requestId : Option Text
  actorId : Text
  actorType : ActorType

/-! ## Versions and times -/

/-- `EventStreamVersion`, an `i64` that counts stored events. -/
structure EventStreamVersion where
  get : Int
  deriving DecidableEq

namespace EventStreamVersion

def start : EventStreamVersion := ⟨0⟩

def new (value : Int) : Except EsError EventStreamVersion :=
  if value ≤ 0 then
    .error (.invalidVersion s!"event stream versions must be positive, got {value}")
  else .ok ⟨value⟩

def isStart (v : EventStreamVersion) : Bool := v.get == 0

theorem new_ok {value : Int} (h : 0 < value) : new value = .ok ⟨value⟩ := by
  simp [new, Int.not_le.2 h]

end EventStreamVersion

/-- The first nanosecond of the year -9999 after the Unix epoch. -/
def minNanos : Int := -377705116800 * 1000000000

/-- The first nanosecond after the year 9999. -/
def supNanos : Int := 253402300800 * 1000000000

/-- `time::OffsetDateTime` in UTC: nanoseconds since the Unix epoch, within the years -9999 to
9999. -/
structure OffsetDateTime where
  unixTimestampNanos : Int
  lower : minNanos ≤ unixTimestampNanos
  upper : unixTimestampNanos < supNanos
  deriving DecidableEq

namespace OffsetDateTime

/-- `OffsetDateTime::UNIX_EPOCH`. -/
def unixEpoch : OffsetDateTime := ⟨0, by decide, by decide⟩

/-- `OffsetDateTime::from_unix_timestamp_nanos`. -/
def fromUnixTimestampNanos (nanos : Int) : Option OffsetDateTime :=
  if h : minNanos ≤ nanos ∧ nanos < supNanos then some ⟨nanos, h.1, h.2⟩ else none

/-- `OffsetDateTime::unix_timestamp`: whole seconds, rounded down. -/
def unixTimestamp (t : OffsetDateTime) : Int := t.unixTimestampNanos / 1000000000

/-- `(t.unix_timestamp_nanos() / 1_000_000) as i64`; the division truncates. -/
def unixTimestampMs (t : OffsetDateTime) : Int := Int.tdiv t.unixTimestampNanos 1000000

theorem unixTimestampMs_bounds (t : OffsetDateTime) :
    -377705116800000 ≤ t.unixTimestampMs ∧ t.unixTimestampMs < 253402300800000 := by
  have h₁ := t.lower
  have h₂ := t.upper
  simp only [minNanos, supNanos] at h₁ h₂
  unfold unixTimestampMs
  rcases Int.le_total 0 t.unixTimestampNanos with h | h
  · rw [Int.tdiv_eq_ediv_of_nonneg h]; omega
  · have : Int.tdiv t.unixTimestampNanos 1000000 = -((-t.unixTimestampNanos) / 1000000) := by
      rw [← Int.tdiv_eq_ediv_of_nonneg (by omega), Int.neg_tdiv, Int.neg_neg]
    omega

/-- A time of whole milliseconds is read back from its milliseconds. -/
theorem fromUnixTimestampNanos_ms {t : OffsetDateTime} {ms : Int}
    (h : fromUnixTimestampNanos (ms * 1000000) = some t) :
    fromUnixTimestampNanos (t.unixTimestampMs * 1000000) = some t := by
  have hn : t.unixTimestampNanos = ms * 1000000 := by
    unfold fromUnixTimestampNanos at h
    split at h
    · cases h; rfl
    · cases h
  have : t.unixTimestampMs = ms := by
    rw [unixTimestampMs, hn, Int.mul_tdiv_cancel _ (by decide)]
  rw [this, h]

end OffsetDateTime

/-! ## Envelopes and rows -/

structure EventEnvelope where
  id : Uuid
  type : Text
  payload : Json
  version : EventStreamVersion
  createdAt : OffsetDateTime
  sequence : Int
  workflowKind : Option Text
  workflowStartedByEventId : Option Uuid
  traceId : Option Text
  spanId : Option Text
  requestId : Option Text
  actorId : Text
  actorType : ActorType

/-- A row of the `events` table. Uuids and JSON documents stand for the texts that are stored. -/
structure EventRow where
  id : Uuid
  type : Text
  payload : Json
  version : Int
  createdAt : Int
  sequence : Int
  workflowKind : Option Text
  workflowStartedByEventId : Option Uuid
  traceId : Option Text
  spanId : Option Text
  requestId : Option Text
  actorId : Text
  actorType : Text

/-- The parameters `insert_events` binds for an envelope. -/
def EventEnvelope.toRow (e : EventEnvelope) : EventRow where
  id := e.id
  type := e.type
  payload := e.payload
  version := e.version.get
  createdAt := e.createdAt.unixTimestampMs
  sequence := e.sequence
  workflowKind := e.workflowKind
  workflowStartedByEventId := e.workflowStartedByEventId
  traceId := e.traceId
  spanId := e.spanId
  requestId := e.requestId
  actorId := e.actorId
  actorType := e.actorType.asStr

/-- `EventStream::event_from_row`. -/
def eventFromRow [SerdeJson] (row : EventRow) : Except EsError EventEnvelope := do
  let payload ← SerdeJson.fromStr row.payload
  let actorType ← match ActorType.fromStr row.actorType with
    | .ok a => pure a
    | .error e =>
      throw (.migration s!"Invalid actor_type '{String.ofList row.actorType}': {e}")
  let version ← EventStreamVersion.new row.version
  let createdAt ← match OffsetDateTime.fromUnixTimestampNanos (row.createdAt * 1000000) with
    | some t => pure t
    | none => throw (.time "timestamp out of range")
  return {
    id := row.id
    type := row.type
    payload := payload
    version := version
    createdAt := createdAt
    sequence := row.sequence
    workflowKind := row.workflowKind
    workflowStartedByEventId := row.workflowStartedByEventId
    traceId := row.traceId
    spanId := row.spanId
    requestId := row.requestId
    actorId := row.actorId
    actorType := actorType }

/-- An envelope that `insert_events` can build: a positive version and a time of whole
milliseconds. -/
structure EventEnvelope.Storable (e : EventEnvelope) : Prop where
  version : 0 < e.version.get
  createdAt : OffsetDateTime.fromUnixTimestampNanos (e.createdAt.unixTimestampMs * 1000000) =
    some e.createdAt

/-- What the row of an envelope decodes to: all of it, with the payload that is read from its text. -/
def EventEnvelope.decoded [SerdeJson] (e : EventEnvelope) : Except EsError EventEnvelope :=
  (SerdeJson.fromStr e.payload).map fun payload => { e with payload := payload }

/-- **Row decoding**: a stored envelope is read back, but for its payload, which is parsed. -/
theorem eventFromRow_toRow [SerdeJson] {e : EventEnvelope} (h : e.Storable) :
    eventFromRow e.toRow = e.decoded := by
  unfold eventFromRow EventEnvelope.decoded
  cases hpayload : SerdeJson.fromStr e.payload with
  | error err => simp [EventEnvelope.toRow, hpayload, bind, Except.bind, Except.map]
  | ok payload =>
    simp [EventEnvelope.toRow, hpayload, EventStreamVersion.new_ok h.version, h.createdAt, bind,
      Except.bind, pure, Except.pure, Except.map]

/-- An envelope decodes to itself iff its payload is read back. -/
theorem EventEnvelope.decoded_eq_self_iff [SerdeJson] {e : EventEnvelope} :
    e.decoded = .ok e ↔ e.payload.IsReadBack := by
  unfold EventEnvelope.decoded Json.IsReadBack
  cases SerdeJson.fromStr e.payload with
  | error err => exact iff_of_false (fun h => by cases h) fun h => by cases h
  | ok payload =>
    refine ⟨fun h => ?_, fun h => ?_⟩
    · exact congrArg Except.ok (congrArg EventEnvelope.payload (Except.ok.inj h))
    · rw [Except.ok.inj h]
      rfl

inductive ExpectedVersion where
  | noStream
  | any
  | exact (version : EventStreamVersion)
  deriving DecidableEq

structure AppendResult where
  firstVersion : EventStreamVersion
  lastVersion : EventStreamVersion
  events : List EventEnvelope

end Events
