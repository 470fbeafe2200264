import Events.Migration

/-!
# The event stream

`src/event_stream.rs` and the catalog's methods (`src/catalog.rs`), as programs over the
operations of the store. The active partition of a handle is behind its readers–writer lock:
`withRead` and `withWrite` bracket what the source does while it holds a guard.

* `openPartitioned` — `EventStream::open_partitioned`, with the recovery of the catalog.
* `append`, `maybeRotate`, `rotatePartition`, `rotateUntilCurrentWindow` — the writing side.
* `loadAfterVersion`, `loadWorkflowAfterVersion`, `currentVersion` — the reading side.
* `eventStreams` — the service that offers these calls.

The loop of `rotate_until_current_window` is unfolded `fuel` times; a call that is still in it then
goes on for ever (`Abort.diverge`).
-/

namespace Events

open Proc Program

/-! ## Operations with `?` -/

def now : StoreProgram OffsetDateTime := .call StoreOp.now fun t => .done (.ok t)

def createDirAll : StoreProgram Unit := .call StoreOp.createDirAll orEs

def listDirectory : StoreProgram (List Text) := .call StoreOp.listDirectory orEs

/-- `tokio::fs::metadata(path).map(|m| m.len()).unwrap_or(0)`. -/
def fileSize (name : Text) : StoreProgram Nat :=
  .call (StoreOp.fileSize name) fun n => .done (.ok n)

/-- The handle's active partition. Calls are made on open handles only. -/
def readActive : StoreProgram ActivePartition :=
  .call StoreOp.readActive fun
    | some active => .done (.ok active)
    | none => .done (.error .panic)

def setActive (active : ActivePartition) : StoreProgram Unit :=
  .call (StoreOp.setActive active) fun _ => .done (.ok ())

def openHandle (rotation : RotationPolicy) (active : ActivePartition) : StoreProgram Unit :=
  .call (StoreOp.openHandle rotation active) fun _ => .done (.ok ())

def buildDatabase (ref : DbRef) : StoreProgram Unit := .call (StoreOp.buildDatabase ref) orEs

def configureDatabase (ref : DbRef) : StoreProgram Unit :=
  .call (StoreOp.configureDatabase ref) orEs

/-- `db.connect()` and `configure_connection`. -/
def connect (ref : DbRef) : StoreProgram Unit := .call (StoreOp.connect ref) orEs

/-- `pool.get_connection(path)`. -/
def getConnection (ref : DbRef) : StoreProgram Unit := .call (StoreOp.getConnection ref) orEs

/-- A result that is neither an operation's nor can panic. -/
def ofExcept {α : Type} : Except EsError α → StoreProgram α := orEs

/-- A result that can panic. -/
def ofAbort {α : Type} (r : Except Abort α) : StoreProgram α := .done r

/-- A computation that panics where it has no value. -/
def orPanic {α : Type} : Option α → StoreProgram α
  | some a => pure a
  | none => throw .panic

/-- `read_event_file_append_head` on a connection that is there. -/
def readEventFileAppendHead (name : Text) : StoreProgram Int := do
  let row ← sql (.eventFile name) .readEventFileAppendHead
  ofExcept (headOfRow row)

/-! ## The catalog -/

def createEventFileRange (range : EventFileRange) : StoreProgram Unit := do
  getConnection .catalog
  sql .catalog (.createEventFileRange range)

def sealEventFileRange (name : Text) (lastVersion : Int) : StoreProgram Unit := do
  getConnection .catalog
  sql .catalog (.sealEventFileRange name lastVersion)

def replaceEventFileRanges (ranges : List EventFileRange) : StoreProgram Unit := do
  getConnection .catalog
  .call (StoreOp.replaceTransaction ranges) orEs

def getAllEventFileRanges : StoreProgram (List EventFileRange) := do
  getConnection .catalog
  sql .catalog .getAllEventFileRanges

def getEventFileRangesAfterVersion (version : Int) : StoreProgram (List EventFileRange) := do
  getConnection .catalog
  sql .catalog (.getEventFileRangesAfterVersion version)

/-- `Catalog::open_with_pool`. -/
def openCatalog : StoreProgram Unit := do
  buildDatabase .catalog
  configureDatabase .catalog
  getConnection .catalog
  runMigrations .catalog catalogMigrations

/-! ## Event files -/

def openPartitionDb (name : Text) : StoreProgram Unit := do
  buildDatabase (.eventFile name)
  configureDatabase (.eventFile name)

def createPartitionDb (name : Text) (currentVersion : Int) : StoreProgram Unit := do
  openPartitionDb name
  connect (.eventFile name)
  runMigrations (.eventFile name) partitionMigrations
  sql (.eventFile name) (.initializeEventFileAppendHead currentVersion none)

/-! ## Opening -/

def createNewActivePartition (rotation : RotationPolicy) (firstVersion : Int) :
    StoreProgram ActivePartition := do
  let t ← now
  let startMs ← orPanic (floorToWindowMs t.unixTimestampMs rotation.window)
  let name ← ofExcept (generatePartitionName startMs rotation.window none)
  createPartitionDb name (firstVersion - 1)
  createEventFileRange
    { name := name, path := name, firstVersion := firstVersion, lastVersion := none,
      isSealed := false }
  return { name, startMs, ordinal := none }

/-- `EventFileSummary`. -/
structure EventFileSummary where
  name : Text
  firstVersion : Int
  currentVersion : Int
  deriving DecidableEq

/-- The order of the rebuild. -/
def summaryLe (a b : EventFileSummary) : Prop :=
  a.firstVersion < b.firstVersion ∨ (a.firstVersion = b.firstVersion ∧ a.name ≤ b.name)

instance : DecidableRel summaryLe := fun a b => by unfold summaryLe; infer_instance

/-- `text.starts_with` and `text.ends_with`. -/
def isEventFileName (name : Text) : Bool :=
  namePrefix.isPrefixOf name && nameSuffix.isSuffixOf name

/-- The body of the loop of `discover_event_file_summaries`. -/
def summarizeEventFile (name : Text) : StoreProgram EventFileSummary := do
  let _ ← ofAbort (parsePartitionName name)
  openPartitionDb name
  connect (.eventFile name)
  let head ← readEventFileAppendHead name
  let first ← sql (.eventFile name) .readFirstEventVersion
  return { name, firstVersion := first.getD (head + 1), currentVersion := head }

def summarizeEventFiles : List Text → StoreProgram (List EventFileSummary)
  | [] => pure []
  | name :: names => do
    if isEventFileName name then
      let summary ← summarizeEventFile name
      let rest ← summarizeEventFiles names
      return summary :: rest
    else summarizeEventFiles names

def discoverEventFileSummaries : StoreProgram (List EventFileSummary) := do
  let names ← listDirectory
  summarizeEventFiles names

/-- The range of a summary; all but the last one are sealed. -/
def rangeOfSummary (isActive : Bool) (s : EventFileSummary) : EventFileRange where
  name := s.name
  path := s.name
  firstVersion := s.firstVersion
  lastVersion := if isActive then none else some s.currentVersion
  isSealed := !isActive

/-- The ranges of the summaries in order. -/
def rangesOfSummaries : List EventFileSummary → List EventFileRange
  | [] => []
  | [s] => [rangeOfSummary true s]
  | s :: rest => rangeOfSummary false s :: rangesOfSummaries rest

def rebuildEventFileRanges : StoreProgram (List EventFileRange) := do
  let summaries ← discoverEventFileSummaries
  if summaries.isEmpty then
    replaceEventFileRanges []
    return []
  else
    let ranges := rangesOfSummaries (summaries.insertionSort summaryLe)
    replaceEventFileRanges ranges
    return ranges

/-- `max_by` on first version and name: the last of the greatest. -/
def maxRange : List EventFileRange → Option EventFileRange
  | [] => none
  | r :: rs => some (rs.foldl (fun best r => if rangeLe best r then r else best) r)

/-- The names of all ranges parse. -/
def checkRangeNames : List EventFileRange → StoreProgram Unit
  | [] => pure ()
  | range :: ranges => do
    let _ ← ofAbort (parsePartitionName range.name)
    checkRangeNames ranges

def initializeActivePartition (rotation : RotationPolicy) : StoreProgram ActivePartition := do
  let ranges ← getAllEventFileRanges
  checkRangeNames ranges
  let ranges ←
    if (ranges.filter fun r => !r.isSealed).length ≠ 1 then rebuildEventFileRanges
    else pure ranges
  match maxRange (ranges.filter fun r => !r.isSealed) with
  | some activeRef =>
    let (startMs, ordinal) ← ofAbort (parsePartitionName activeRef.name)
    openPartitionDb activeRef.path
    return { name := activeRef.name, startMs, ordinal }
  | none => createNewActivePartition rotation 1

def openPartitioned (rotation : RotationPolicy) : StoreProgram Unit := do
  createDirAll
  openCatalog
  let active ← initializeActivePartition rotation
  openHandle rotation active

/-! ## Rotating -/

/-- What the write lock is taken for. -/
inductive LockNote where
  | opening (rotation : RotationPolicy)
  | appending
  | rotating (rotation : RotationPolicy) (nowMs : Int)

abbrev StreamProgram := Program (locked LockNote StoreI) Abort

/-- `rotate_partition` under the write lock. -/
def rotatePartitionLocked (rotation : RotationPolicy) (nowMs : Int) : StoreProgram Unit := do
  let active ← readActive
  let (newName, newStartMs, newOrdinal) ←
    ofAbort (determineNewPartitionInfo rotation active.startMs active.ordinal nowMs)
  getConnection (.eventFile active.name)
  let head ← readEventFileAppendHead active.name
  sealEventFileRange active.name head
  createPartitionDb newName head
  createEventFileRange
    { name := newName, path := newName, firstVersion := head + 1, lastVersion := none,
      isSealed := false }
  setActive { name := newName, startMs := newStartMs, ordinal := newOrdinal }

def rotatePartition (rotation : RotationPolicy) (nowMs : Int) : StreamProgram Unit :=
  withWrite (.rotating rotation nowMs) (rotatePartitionLocked rotation nowMs)

/-- What `maybe_rotate` does with the answer of `should_rotate`. -/
def rotationTime : Option Bool → StoreProgram (Option Int)
  | none => throw .panic
  | some false => pure none
  | some true => do
    let t ← now
    return some t.unixTimestampMs

/-- `maybe_rotate` under the read lock: the time to rotate at, if rotation is due. -/
def rotationDue (rotation : RotationPolicy) : StoreProgram (Option Int) := do
  let active ← readActive
  let size ← fileSize active.name
  let t ← now
  rotationTime (shouldRotate rotation size active.startMs t)

def maybeRotate (rotation : RotationPolicy) : StreamProgram Unit := do
  match ← withRead (rotationDue rotation) with
  | none => return ()
  | some nowMs => rotatePartition rotation nowMs

/-- The test of `rotate_until_current_window`, under the read lock. -/
def inCurrentWindow (rotation : RotationPolicy) (nowMs : Int) : StoreProgram Bool := do
  let active ← readActive
  let floored ← orPanic (floorToWindowMs nowMs rotation.window)
  return decide (floored = active.startMs)

def rotateUntilCurrentWindow (rotation : RotationPolicy) (nowMs : Int) :
    Nat → StreamProgram Unit
  | 0 => throw .diverge
  | fuel + 1 => do
    if ← withRead (inCurrentWindow rotation nowMs) then return ()
    else
      rotatePartition rotation nowMs
      rotateUntilCurrentWindow rotation nowMs fuel

/-! ## Appending -/

def validateSafeLabel (field : String) (value : Text) : Except EsError Unit :=
  if value.isEmpty ∨ 128 < value.len then .error (.invalidSafeName field value)
  else if value.all fun c => c.isLower || c.isDigit || c = '-' then .ok ()
  else .error (.invalidSafeName field value)

/-- `max_payload_bytes`. -/
def maxPayloadBytes : Nat := 1024 * 1024

def validateEvent (event : NewEvent) : Except EsError Unit :=
  if maxPayloadBytes < event.payload.len then
    .error (.payloadTooLarge event.payload.len maxPayloadBytes)
  else
    match event.workflow, event.workflowKind with
    | .none, none => .ok ()
    | .none, some _ =>
      .error (.invalidWorkflowMetadata "workflow_kind must be None when workflow is None")
    | _, some kind => validateSafeLabel "workflow_kind" kind
    | _, none =>
      .error (.invalidWorkflowMetadata "workflow_kind is required when workflow is set")

def validateEvents : List NewEvent → Except EsError Unit
  | [] => .ok ()
  | event :: events =>
    match validateEvent event with
    | .ok () => validateEvents events
    | .error e => .error e

/-- The result of appending nothing. -/
def emptyAppend : AppendResult := ⟨.start, .start, []⟩

/-- `append` under the write lock. -/
def appendLocked (expected : ExpectedVersion) (events : List NewEvent)
    (baseTime : OffsetDateTime) : StoreProgram AppendResult := do
  let active ← readActive
  getConnection (.eventFile active.name)
  .call (StoreOp.appendTransaction active.name expected events baseTime) orEs

/-- `append` after its clock reading, `base_time` being that reading in whole milliseconds. -/
def appendAt (rotation : RotationPolicy) (fuel : Nat) (expected : ExpectedVersion)
    (events : List NewEvent) (nowMs : Int) : Option OffsetDateTime → StreamProgram AppendResult
  | none => throw (.es (.time "timestamp out of range"))
  | some baseTime => do
    rotateUntilCurrentWindow rotation nowMs fuel
    withWrite .appending (appendLocked expected events baseTime)

def append (rotation : RotationPolicy) (fuel : Nat) (expected : ExpectedVersion)
    (events : List NewEvent) : StreamProgram AppendResult := do
  maybeRotate rotation
  if events.isEmpty then return emptyAppend
  else
    orEs (validateEvents events)
    let t ← lift now
    let nowMs := t.unixTimestampMs
    appendAt rotation fuel expected events nowMs
      (OffsetDateTime.fromUnixTimestampNanos (nowMs * 1000000))

/-! ## Reading -/

def maxReadLimit : Nat := 10000

def validateReadLimit (limit : Nat) : Except EsError Unit :=
  if limit = 0 ∨ maxReadLimit < limit then .error (.invalidReadLimit limit maxReadLimit)
  else .ok ()

/-- `collect_events_from_rows`. -/
def collectEventsFromRows [SerdeJson] : List EventRow → Except EsError (List EventEnvelope)
  | [] => .ok []
  | row :: rows => do
    let event ← eventFromRow row
    let events ← collectEventsFromRows rows
    return event :: events

def queryPartitionEventsAfterVersion [SerdeJson] (path : Text) (cursor : Int) (limit : Nat) :
    StoreProgram (List EventEnvelope) := do
  getConnection (.eventFile path)
  let rows ← sql (.eventFile path) (.queryEventsAfterVersion cursor limit)
  ofExcept (collectEventsFromRows rows)

def queryPartitionWorkflowEventsAfterVersion [SerdeJson] (path : Text) (workflowStartedByEventId : Uuid)
    (cursor : Int) (limit : Nat) : StoreProgram (List EventEnvelope) := do
  getConnection (.eventFile path)
  let rows ← sql (.eventFile path)
    (.queryWorkflowEventsAfterVersion workflowStartedByEventId cursor limit)
  ofExcept (collectEventsFromRows rows)

/-- The loop over the ranges, with what is queried from each; the subtraction `limit - events.len()`
panics below zero. -/
def loadFromRanges (query : Text → Nat → StoreProgram (List EventEnvelope)) (limit : Nat) :
    List EventFileRange → List EventEnvelope → StoreProgram (List EventEnvelope)
  | [], events => pure events
  | range :: ranges, events => do
    if limit < events.length then throw .panic
    else if limit - events.length = 0 then return events
    else
      let partitionEvents ← query range.path (limit - events.length)
      loadFromRanges query limit ranges (events ++ partitionEvents)

/-- `sort_by_key(|event| event.version)`. -/
def eventLe (a b : EventEnvelope) : Prop := a.version.get ≤ b.version.get

instance : DecidableRel eventLe := fun a b => by unfold eventLe; infer_instance

/-- What both reads do with their query of a file. -/
def loadWith (query : Text → Nat → StoreProgram (List EventEnvelope)) (cursor : EventStreamVersion)
    (limit : Nat) : StoreProgram (List EventEnvelope) := do
  ofExcept (validateReadLimit limit)
  let ranges ← getEventFileRangesAfterVersion cursor.get
  let events ← loadFromRanges query limit ranges []
  return (events.insertionSort eventLe).take limit

def loadAfterVersion [SerdeJson] (cursor : EventStreamVersion) (limit : Nat) :
    StoreProgram (List EventEnvelope) :=
  loadWith (fun path remaining => queryPartitionEventsAfterVersion path cursor.get remaining)
    cursor limit

def loadWorkflowAfterVersion [SerdeJson] (workflowStartedByEventId : Uuid) (cursor : EventStreamVersion)
    (limit : Nat) : StoreProgram (List EventEnvelope) :=
  loadWith (fun path remaining => queryPartitionWorkflowEventsAfterVersion path
    workflowStartedByEventId cursor.get remaining) cursor limit

/-- `current_version` under the read lock. -/
def currentVersionLocked : StoreProgram EventStreamVersion := do
  let active ← readActive
  getConnection (.eventFile active.name)
  let head ← readEventFileAppendHead active.name
  if head = 0 then return .start
  else ofExcept (EventStreamVersion.new head)

def currentVersion : StreamProgram EventStreamVersion := withRead currentVersionLocked

/-! ## The service -/

/-- The calls on a handle, with the handle's rotation policy. -/
inductive StreamCall where
  | openPartitioned (rotation : RotationPolicy)
  | append (rotation : RotationPolicy) (fuel : Nat) (expected : ExpectedVersion)
      (events : List NewEvent)
  | maybeRotate (rotation : RotationPolicy)
  | loadAfterVersion (rotation : RotationPolicy) (cursor : EventStreamVersion) (limit : Nat)
  | currentVersion (rotation : RotationPolicy)

inductive StreamAns where
  | opened
  | appended (result : AppendResult)
  | rotated
  | loaded (events : List EventEnvelope)
  | version (version : EventStreamVersion)

def StreamCall.code [SerdeJson] : StreamCall → StreamProgram StreamAns
  | .openPartitioned rotation =>
    (withWrite (.opening rotation) (Events.openPartitioned rotation)).bind fun _ => pure .opened
  | .append rotation fuel expected events =>
    (Events.append rotation fuel expected events).bind fun r => pure (.appended r)
  | .maybeRotate rotation => (Events.maybeRotate rotation).bind fun _ => pure .rotated
  | .loadAfterVersion _ cursor limit =>
    (lift (Events.loadAfterVersion cursor limit)).bind fun events => pure (.loaded events)
  | .currentVersion _ => Events.currentVersion.bind fun v => pure (.version v)

/-- A handle is opened once; the other calls are made on an open handle with its policy. -/
def StreamCall.ready {H : Type} (h : H) (call : StreamCall) (w : World H) : Bool :=
  match call, w.handles h with
  | .openPartitioned _, none => true
  | .openPartitioned _, some _ => false
  | .append rotation _ _ _, some (p, _) => rotation = p
  | .maybeRotate rotation, some (p, _) => rotation = p
  | .loadAfterVersion rotation _ _, some (p, _) => rotation = p
  | .currentVersion rotation, some (p, _) => rotation = p
  | _, none => false

/-- The event streams of one partition, on the handles `H`. -/
abbrev eventStreams [SerdeJson] (H : Type) [DecidableEq H] : Service StoreI H where
  Note := LockNote
  Err := Abort
  Call := StreamCall
  Ans := StreamAns
  State := World H
  Env := StoreEnv
  step := World.step
  code := StreamCall.code
  ready := StreamCall.ready
  returns
    | .error .diverge => false
    | .error .panic => false
    | _ => true
  restart := World.restart

end Events
