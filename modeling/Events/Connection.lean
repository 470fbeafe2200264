import Events.Sql

/-!
# What runs on one connection

The two transactions of the crate, statement by statement: the append of a batch of events to an
event file (the part of `EventStream::append` between `BEGIN IMMEDIATE` and its end) and the
replacement of the catalog's ranges (`Catalog::replace_event_file_ranges`).

The ids that `Uuid::new_v4` draws and the tracing span in effect are arguments.
-/

namespace Events

open Proc Program

/-- A program on one connection. -/
abbrev ConnProgram := Program (Tx.interface sqlDialect) EsError

/-- The error of a database operation, as `?` converts it. -/
def orDb {I : Interface} {α : Type} : Except DbError α → Program I EsError α
  | .ok a => .done (.ok a)
  | .error e => .done (.error (.db e))

/-- A statement on the connection, with `?`. -/
def execute (s : Stmt) : ConnProgram s.Ans := .call (Tx.Op.stmt s) orDb

/-- `conn.execute("BEGIN IMMEDIATE", ())?`. -/
def beginImmediate : ConnProgram Unit := .call Tx.Op.begin orDb

/-- `conn.execute("COMMIT", ())?`. -/
def commit : ConnProgram Unit := .call Tx.Op.commit orDb

/-- `let _ = conn.execute("ROLLBACK", ())`, and then the error. -/
def rollbackWith {α : Type} (e : EsError) : ConnProgram α :=
  .call Tx.Op.rollback fun _ => .done (.error e)

/-- The end of `EventStream::read_event_file_append_head`, on the row that the query found. -/
def headOfRow : Option HeadRow → Except EsError Int
  | none => .error (.migration "event_file_append_head is missing its singleton row")
  | some row => .ok row.currentVersion

/-- `EventStream::validate_expected_version_against`. -/
def validateExpectedVersionAgainst (expected : ExpectedVersion) (currentVersion : Int) :
    Except EsError Int :=
  match expected with
  | .noStream =>
    if currentVersion ≠ 0 then .error (.incorrectEventVersion 0 currentVersion)
    else .ok currentVersion
  | .any => .ok currentVersion
  | .exact version =>
    if version.isStart then
      .error (.invalidVersion "ExpectedVersion::Exact cannot use EventStreamVersion::start()")
    else if version.get ≠ currentVersion then
      .error (.incorrectEventVersion version.get currentVersion)
    else .ok currentVersion

/-- `EventStream::map_uniqueness_to_incorrect_event_version`: the text of the error names a column
with "version" in it. -/
def mapUniquenessToIncorrectEventVersion (err : EsError) (staleVersion : Int) : EsError :=
  match err with
  | .db (.uniqueConstraint "events.version") => .incorrectEventVersion staleVersion staleVersion
  | err => err

/-- The trace and span id of the current tracing span, if they are valid. -/
structure SpanContext where
  traceId : Option Text := none
  spanId : Option Text := none

/-- The envelope of the event at index `i` of a batch. -/
def envelopeOf (ids : Nat → Uuid) (span : SpanContext) (baseTime : OffsetDateTime)
    (baseSequence : Int) (version : EventStreamVersion) (i : Nat) (event : NewEvent) :
    EventEnvelope where
  id := ids i
  type := event.type
  payload := event.payload
  version := version
  createdAt := baseTime
  sequence := baseSequence + 1 + i
  workflowKind := event.workflowKind
  workflowStartedByEventId :=
    match event.workflow with
    | .none => none
    | .startsThisWorkflow => some (ids i)
    | .continues startedByEventId => some startedByEventId
  traceId := span.traceId
  spanId := span.spanId
  requestId := event.requestId
  actorId := event.actorId
  actorType := event.actorType

/-- The loop of `insert_events`, from index `i` on. -/
def insertEventsFrom (ids : Nat → Uuid) (span : SpanContext) (currentVersion : Int)
    (baseTime : OffsetDateTime) (baseSequence : Int) :
    Nat → List NewEvent → ConnProgram (List EventEnvelope)
  | _, [] => .done (.ok [])
  | i, event :: events =>
    match EventStreamVersion.new (currentVersion + 1 + i) with
    | .error e => .done (.error e)
    | .ok version =>
      let envelope := envelopeOf ids span baseTime baseSequence version i event
      (execute (.insertEvent envelope.toRow)).bind fun _ =>
        (insertEventsFrom ids span currentVersion baseTime baseSequence (i + 1) events).bind
          fun rest => .done (.ok (envelope :: rest))

/-- `EventStream::insert_events`. -/
def insertEvents (ids : Nat → Uuid) (span : SpanContext) (events : List NewEvent)
    (currentVersion : Int) (baseTime : OffsetDateTime) : ConnProgram (List EventEnvelope) :=
  (execute .maxSequence).bind fun baseSequence =>
    insertEventsFrom ids span currentVersion baseTime baseSequence 0 events

/-- The check of an append, inside the transaction: the head against the expected version. -/
def checkHead (expected : ExpectedVersion) : ConnProgram Int :=
  ((execute .readEventFileAppendHead).bind fun row => .done (headOfRow row)).attempt.bind fun
    | .ok head =>
      match validateExpectedVersionAgainst expected head with
      | .ok currentVersion => .done (.ok currentVersion)
      | .error e => rollbackWith e
    | .error e => rollbackWith e

/-- The end of an append: the new head, and `COMMIT`. -/
def finishAppend (resultEvents : List EventEnvelope) : ConnProgram AppendResult :=
  match resultEvents.head?, resultEvents.getLast? with
  | some firstEvent, some lastEvent =>
    (execute (.updateEventFileAppendHead lastEvent.version.get (some lastEvent.id))).attempt.bind
      fun
      | .error e => rollbackWith e
      | .ok _ =>
        commit.attempt.bind fun
          | .error e => rollbackWith e
          | .ok _ => .done (.ok ⟨firstEvent.version, lastEvent.version, resultEvents⟩)
  | _, _ => .done (.error (.migration "append result was unexpectedly empty"))

/-- `EventStream::append` from `BEGIN IMMEDIATE` on. -/
def appendOnConnection (ids : Nat → Uuid) (span : SpanContext) (expected : ExpectedVersion)
    (events : List NewEvent) (baseTime : OffsetDateTime) : ConnProgram AppendResult :=
  beginImmediate.bind fun _ =>
    (checkHead expected).bind fun currentVersion =>
      (insertEvents ids span events currentVersion baseTime).attempt.bind fun
        | .error e => rollbackWith (mapUniquenessToIncorrectEventVersion e currentVersion)
        | .ok resultEvents => finishAppend resultEvents

/-- The inserts of `replace_event_file_ranges`. -/
def insertRanges : List EventFileRange → ConnProgram Unit
  | [] => .done (.ok ())
  | range :: ranges =>
    (execute (.insertEventFileRange range)).attempt.bind fun
      | .error e => rollbackWith e
      | .ok _ => insertRanges ranges

/-- `Catalog::replace_event_file_ranges`. -/
def replaceRangesOnConnection (ranges : List EventFileRange) : ConnProgram Unit :=
  beginImmediate.bind fun _ =>
    (execute .deleteEventFileRanges).attempt.bind fun
      | .error e => rollbackWith e
      | .ok _ =>
        (insertRanges ranges).bind fun _ =>
          commit.attempt.bind fun
            | .error e => rollbackWith e
            | .ok _ => .done (.ok ())

end Events
