import Mathlib.Data.Char
import Mathlib.Data.List.Lex
import Mathlib.Data.List.Sort
import Events.Types
import Events.Lib.Transaction

/-!
# The SQL of an event store

Every database of a partition store, the catalog as well as the event files, is a `Db`: the tables
the crate creates, each there or not. `Stmt` lists the SQL statements of the crate, under the
name of the function that runs each, and `Stmt.exec` says what a statement answers and does.

* **`SchemaStmt`** — the statements of the migrations.
* **`EventFileRange`** — a row of the catalog (`src/catalog.rs`), in the order of the catalog's
  queries (`rangeLe`).
* **`sqlDialect`** — the statements as a dialect of the transaction library.
-/

namespace Events

/-! ## Tables -/

inductive Table where
  | events
  | eventFileAppendHead
  | eventFileRanges
  deriving DecidableEq

def Table.name : Table → String
  | .events => "events"
  | .eventFileAppendHead => "event_file_append_head"
  | .eventFileRanges => "event_file_ranges"

/-- A statement of a migration. -/
inductive SchemaStmt where
  | createTable (t : Table)
  | createIndexIfNotExists (name : String) (t : Table)
  deriving DecidableEq

/-- A row of `_migrations`. The checksum is a hash of the migration's SQL and stands for it. -/
structure MigrationRow where
  name : String
  checksum : List SchemaStmt
  deriving DecidableEq

/-- The singleton row of `event_file_append_head`. -/
structure HeadRow where
  currentVersion : Int
  lastEventId : Option Uuid
  deriving DecidableEq

structure EventFileRange where
  name : Text
  path : Text
  firstVersion : Int
  lastVersion : Option Int
  isSealed : Bool
  deriving DecidableEq

/-- A database file: the tables it has, `none` for a table that is not there. -/
structure Db where
  migrations : Option (List MigrationRow) := none
  indexes : List String := []
  events : Option (List EventRow) := none
  head : Option (Option HeadRow) := none
  ranges : Option (List EventFileRange) := none

namespace Db

/-- The stored events, none where there is no table. -/
def rows (d : Db) : List EventRow := d.events.getD []

/-- The append head, if the table has its row. -/
def headVersion (d : Db) : Option Int := d.head.join.map HeadRow.currentVersion

def hasTable (d : Db) : Table → Bool
  | .events => d.events.isSome
  | .eventFileAppendHead => d.head.isSome
  | .eventFileRanges => d.ranges.isSome

/-- `CREATE TABLE` of a table that is not there yet. -/
def create (d : Db) : Table → Db
  | .events => { d with events := some [] }
  | .eventFileAppendHead => { d with head := some none }
  | .eventFileRanges => { d with ranges := some [] }

end Db

/-- `ORDER BY first_version, name`. -/
def rangeLe (a b : EventFileRange) : Prop :=
  a.firstVersion < b.firstVersion ∨ (a.firstVersion = b.firstVersion ∧ a.name ≤ b.name)

instance : DecidableRel rangeLe := fun a b => by unfold rangeLe; infer_instance

/-- `ORDER BY version`. -/
def versionLe (a b : EventRow) : Prop := a.version ≤ b.version

instance : DecidableRel versionLe := fun a b => by unfold versionLe; infer_instance

/-! ## Statements -/

inductive Stmt where
  -- the migration runner
  | ensureMigrationsTable
  | loadAppliedMigrations
  | schema (s : SchemaStmt)
  | recordMigration (name : String) (checksum : List SchemaStmt)
  -- an event file
  | initializeEventFileAppendHead (currentVersion : Int) (lastEventId : Option Uuid)
  | readEventFileAppendHead
  | readFirstEventVersion
  | updateEventFileAppendHead (currentVersion : Int) (lastEventId : Option Uuid)
  | maxSequence
  | insertEvent (row : EventRow)
  | queryEventsAfterVersion (cursor : Int) (limit : Nat)
  | queryWorkflowEventsAfterVersion (workflowStartedByEventId : Uuid) (cursor : Int) (limit : Nat)
  -- the catalog
  | createEventFileRange (range : EventFileRange)
  | sealEventFileRange (name : Text) (lastVersion : Int)
  | deleteEventFileRanges
  | insertEventFileRange (range : EventFileRange)
  | getAllEventFileRanges
  | getEventFileRangesAfterVersion (version : Int)

namespace Stmt

/-- The statements that only read. -/
def isQuery : Stmt → Bool
  | loadAppliedMigrations => true
  | readEventFileAppendHead => true
  | readFirstEventVersion => true
  | maxSequence => true
  | queryEventsAfterVersion _ _ => true
  | queryWorkflowEventsAfterVersion _ _ _ => true
  | getAllEventFileRanges => true
  | getEventFileRangesAfterVersion _ => true
  | _ => false

/-- What a statement answers. -/
@[reducible] def Ans : Stmt → Type
  | loadAppliedMigrations => List MigrationRow
  | readEventFileAppendHead => Option HeadRow
  | readFirstEventVersion => Option Int
  | maxSequence => Int
  | queryEventsAfterVersion _ _ => List EventRow
  | queryWorkflowEventsAfterVersion _ _ _ => List EventRow
  | getAllEventFileRanges => List EventFileRange
  | getEventFileRangesAfterVersion _ => List EventFileRange
  | _ => Unit

/-- A table that a statement needs. -/
def need {α : Type} (name : String) : Option α → Except DbError α
  | some a => .ok a
  | none => .error (.noSuchTable name)

/-- `INSERT … ON CONFLICT(name) DO UPDATE`. -/
def upsert (range : EventFileRange) (ranges : List EventFileRange) : List EventFileRange :=
  if ranges.any fun r => r.name = range.name then
    ranges.map fun r => if r.name = range.name then range else r
  else ranges ++ [range]

/-- `UPDATE … SET sealed = 1, last_version = ?1 WHERE name = ?2`. -/
def sealRange (name : Text) (lastVersion : Int) (ranges : List EventFileRange) :
    List EventFileRange :=
  ranges.map fun r =>
    if r.name = name then { r with isSealed := true, lastVersion := some lastVersion } else r

/-- Whether the uniqueness constraints of `events` admit a row, with the column that does not. -/
def conflict (row : EventRow) (rows : List EventRow) : Option String :=
  if rows.any fun r => r.id = row.id then some "events.id"
  else if rows.any fun r => r.version = row.version then some "events.version"
  else if rows.any fun r => r.sequence = row.sequence then some "events.sequence"
  else none

/-- What a statement answers and does; a statement that fails does nothing. -/
def exec : (s : Stmt) → Db → Except DbError (s.Ans × Db)
  | ensureMigrationsTable, d => .ok ((), { d with migrations := some (d.migrations.getD []) })
  | loadAppliedMigrations, d => do
    let rows ← need "_migrations" d.migrations
    return (rows, d)
  | schema (.createTable t), d =>
    if d.hasTable t then .error (.tableExists t.name) else .ok ((), d.create t)
  | schema (.createIndexIfNotExists name t), d =>
    if d.hasTable t then
      .ok ((), { d with indexes := if name ∈ d.indexes then d.indexes else name :: d.indexes })
    else .error (.noSuchTable t.name)
  | recordMigration name checksum, d => do
    let rows ← need "_migrations" d.migrations
    if rows.any fun r => r.name = name then throw (.uniqueConstraint "_migrations.name")
    return ((), { d with migrations := some (rows ++ [⟨name, checksum⟩]) })
  | initializeEventFileAppendHead currentVersion lastEventId, d => do
    let _ ← need "event_file_append_head" d.head
    return ((), { d with head := some (some ⟨currentVersion, lastEventId⟩) })
  | readEventFileAppendHead, d => do
    let head ← need "event_file_append_head" d.head
    return (head, d)
  | readFirstEventVersion, d => do
    let rows ← need "events" d.events
    return ((rows.map EventRow.version).min?, d)
  | updateEventFileAppendHead currentVersion lastEventId, d => do
    let head ← need "event_file_append_head" d.head
    -- the `WHERE` clause: the row is there and its version is not above the new one
    return ((), { d with
      head := some (head.map fun h =>
        if h.currentVersion ≤ currentVersion then ⟨currentVersion, lastEventId⟩ else h) })
  | maxSequence, d => do
    let rows ← need "events" d.events
    return ((rows.map EventRow.sequence).max?.getD 0, d)
  | insertEvent row, d => do
    let rows ← need "events" d.events
    match conflict row rows with
    | some column => throw (.uniqueConstraint column)
    | none => return ((), { d with events := some (rows ++ [row]) })
  | queryEventsAfterVersion cursor limit, d => do
    let rows ← need "events" d.events
    return (((rows.filter fun r => cursor < r.version).insertionSort versionLe).take limit, d)
  | queryWorkflowEventsAfterVersion workflowStartedByEventId cursor limit, d => do
    let rows ← need "events" d.events
    return (((rows.filter fun r => r.workflowStartedByEventId = some workflowStartedByEventId ∧
      cursor < r.version).insertionSort versionLe).take limit, d)
  | createEventFileRange range, d => do
    let ranges ← need "event_file_ranges" d.ranges
    return ((), { d with ranges := some (upsert range ranges) })
  | sealEventFileRange name lastVersion, d => do
    let ranges ← need "event_file_ranges" d.ranges
    return ((), { d with ranges := some (sealRange name lastVersion ranges) })
  | deleteEventFileRanges, d => do
    let _ ← need "event_file_ranges" d.ranges
    return ((), { d with ranges := some [] })
  | insertEventFileRange range, d => do
    let ranges ← need "event_file_ranges" d.ranges
    if ranges.any fun r => r.name = range.name then
      throw (.uniqueConstraint "event_file_ranges.name")
    return ((), { d with ranges := some (ranges ++ [range]) })
  | getAllEventFileRanges, d => do
    let ranges ← need "event_file_ranges" d.ranges
    return (ranges.insertionSort rangeLe, d)
  | getEventFileRangesAfterVersion version, d => do
    let ranges ← need "event_file_ranges" d.ranges
    return ((ranges.filter fun r =>
      match r.lastVersion with
      | none => true
      | some last => decide (version < last)).insertionSort rangeLe, d)

/-! ## What a statement that succeeds has done -/

section Ok

variable {d d' : Db} {name : Text}

/-- A statement that needs a table goes on where the table is there, and fails with `no such table`
otherwise. -/
theorem need_bind {α β : Type} {table : String} {o : Option α} {f : α → Except DbError β} {b : β} :
    (need table o).bind f = .ok b ↔ ∃ a, o = some a ∧ f a = .ok b := by
  cases o <;> simp [need, Except.bind]

/-- `CREATE TABLE IF NOT EXISTS _migrations` always succeeds: the rows that are there stay. -/
theorem exec_ensureMigrationsTable {a : Unit} :
    exec .ensureMigrationsTable d = .ok (a, d') ↔
      { d with migrations := some (d.migrations.getD []) } = d' := by
  simp [exec]

/-- The recorded migrations, in the order of their ids; the table has to be there. -/
theorem exec_loadAppliedMigrations {a : List MigrationRow} :
    exec .loadAppliedMigrations d = .ok (a, d') ↔ d.migrations = some a ∧ d = d' := by
  simp [exec, Bind.bind, need_bind, pure, Except.pure]

/-- A migration is recorded behind the others. Its name is unique in the table, so a second record of the
same migration fails. -/
theorem exec_recordMigration {m : String} {checksum : List SchemaStmt} {a : Unit} :
    exec (.recordMigration m checksum) d = .ok (a, d') ↔ ∃ rows, d.migrations = some rows ∧
      (∀ r ∈ rows, r.name ≠ m) ∧ { d with migrations := some (rows ++ [⟨m, checksum⟩]) } = d' := by
  simp only [exec, Bind.bind, need_bind]
  refine exists_congr fun rows => and_congr_right fun _ => ?_
  by_cases h : rows.any fun r => r.name = m
  · simp only [h, if_true, throw, throwThe, MonadExceptOf.throw, Except.bind, reduceCtorEq, false_iff,
      not_and]
    intro hn
    simp only [List.any_eq_true, decide_eq_true_eq] at h
    obtain ⟨r, hr, hrm⟩ := h
    exact absurd hrm (hn r hr)
  · simp only [h, if_false, pure, Except.pure, Except.bind, Except.ok.injEq, Prod.mk.injEq, true_and,
      Bool.false_eq_true]
    simp only [List.any_eq_true, decide_eq_true_eq, not_exists, not_and] at h
    exact ⟨fun hd => ⟨h, hd⟩, fun hd => hd.2⟩

/-- The row of the append head is written, whatever was in its place (`ON CONFLICT DO UPDATE`). -/
theorem exec_initializeHead {v : Int} {id : Option Uuid} {a : Unit} :
    exec (.initializeEventFileAppendHead v id) d = .ok (a, d') ↔
      d.head.isSome ∧ { d with head := some (some ⟨v, id⟩) } = d' := by
  simp only [exec, Bind.bind, need_bind, pure, Except.pure, Except.ok.injEq, Prod.mk.injEq, true_and]
  cases d.head <;> simp

/-- The append head of an event file; `none` where the table has no row yet. -/
theorem exec_readHead {a : Option HeadRow} :
    exec .readEventFileAppendHead d = .ok (a, d') ↔ d.head = some a ∧ d = d' := by
  simp [exec, Bind.bind, need_bind, pure, Except.pure]

/-- The smallest version of an event file, `none` where it has no event. -/
theorem exec_readFirst {a : Option Int} :
    exec .readFirstEventVersion d = .ok (a, d') ↔
      ∃ rows, d.events = some rows ∧ (rows.map EventRow.version).min? = a ∧ d = d' := by
  simp [exec, Bind.bind, need_bind, pure, Except.pure]

/-- The append head goes up, and never down: where the row has a greater version the update has no row. -/
theorem exec_updateHead {v : Int} {id : Option Uuid} {a : Unit} :
    exec (.updateEventFileAppendHead v id) d = .ok (a, d') ↔ ∃ head, d.head = some head ∧
      { d with head := some (head.map fun h =>
        if h.currentVersion ≤ v then ⟨v, id⟩ else h) } = d' := by
  simp [exec, Bind.bind, need_bind, pure, Except.pure]

/-- `COALESCE(MAX(sequence), 0)` over the events of a file. -/
theorem exec_maxSequence {a : Int} :
    exec .maxSequence d = .ok (a, d') ↔
      ∃ rows, d.events = some rows ∧ (rows.map EventRow.sequence).max?.getD 0 = a ∧ d = d' := by
  simp [exec, Bind.bind, need_bind, pure, Except.pure]

/-- An event is inserted behind the others, unless one of them has its id, its version or its sequence. -/
theorem exec_insertEvent {row : EventRow} {a : Unit} :
    exec (.insertEvent row) d = .ok (a, d') ↔ ∃ rows, d.events = some rows ∧
      conflict row rows = none ∧ { d with events := some (rows ++ [row]) } = d' := by
  simp only [exec, Bind.bind, need_bind]
  refine exists_congr fun rows => and_congr_right fun _ => ?_
  cases conflict row rows <;>
    simp [throw, throwThe, MonadExceptOf.throw, pure, Except.pure]

/-- An insert that reports a taken version: a row has it. -/
theorem exec_insertEvent_version {row : EventRow}
    (h : exec (.insertEvent row) d = .error (.uniqueConstraint "events.version")) :
    ∃ r ∈ d.events.getD [], r.version = row.version := by
  cases hd : d.events with
  | none => simp [exec, hd, need, Bind.bind, Except.bind] at h
  | some rows =>
    simp only [exec, hd, need, Bind.bind, Except.bind] at h
    have hc : conflict row rows = some "events.version" := by
      cases hc : conflict row rows <;>
        simp [hc, throw, throwThe, MonadExceptOf.throw, pure, Except.pure] at h ⊢
      exact h
    simp only [conflict] at hc
    split at hc
    · simp at hc
    · split at hc
      · rename_i hany
        simpa using hany
      · split at hc <;> simp at hc

/-- The first `limit` events behind the cursor, in version order. Only this file is asked. -/
theorem exec_queryEvents {cursor : Int} {limit : Nat} {a : List EventRow} :
    exec (.queryEventsAfterVersion cursor limit) d = .ok (a, d') ↔ ∃ rows, d.events = some rows ∧
      ((rows.filter fun r => cursor < r.version).insertionSort versionLe).take limit = a ∧
      d = d' := by
  simp [exec, Bind.bind, need_bind, pure, Except.pure]

/-- The same of one workflow run. -/
theorem exec_queryWorkflowEvents {id : Uuid} {cursor : Int} {limit : Nat} {a : List EventRow} :
    exec (.queryWorkflowEventsAfterVersion id cursor limit) d = .ok (a, d') ↔
      ∃ rows, d.events = some rows ∧ ((rows.filter fun r =>
        r.workflowStartedByEventId = some id ∧ cursor < r.version).insertionSort versionLe).take
          limit = a ∧ d = d' := by
  simp [exec, Bind.bind, need_bind, pure, Except.pure]

/-- `create_event_file_range` is an upsert: a range of the same name is written over, sealed or not. -/
theorem exec_createRange {range : EventFileRange} {a : Unit} :
    exec (.createEventFileRange range) d = .ok (a, d') ↔ ∃ ranges, d.ranges = some ranges ∧
      { d with ranges := some (upsert range ranges) } = d' := by
  simp [exec, Bind.bind, need_bind, pure, Except.pure]

/-- Sealing rewrites the rows of one name, of which there may be none: the statement succeeds all the same. -/
theorem exec_sealRange {v : Int} {a : Unit} :
    exec (.sealEventFileRange name v) d = .ok (a, d') ↔ ∃ ranges, d.ranges = some ranges ∧
      { d with ranges := some (sealRange name v ranges) } = d' := by
  simp [exec, Bind.bind, need_bind, pure, Except.pure]

/-- All ranges are deleted; the table has to be there. -/
theorem exec_deleteRanges {a : Unit} :
    exec .deleteEventFileRanges d = .ok (a, d') ↔
      d.ranges ≠ none ∧ { d with ranges := some [] } = d' := by
  simp only [exec, Bind.bind, need_bind, pure, Except.pure, Except.ok.injEq, Prod.mk.injEq, true_and]
  cases d.ranges <;> simp

/-- It fails for want of the table only. -/
theorem exec_deleteRanges_error {e : DbError} (h : exec .deleteEventFileRanges d = .error e) :
    d.ranges = none := by
  cases hd : d.ranges with
  | none => rfl
  | some rs => rw [(exec_deleteRanges (a := ())).2 ⟨by simp [hd], rfl⟩] at h; cases h

/-- A plain insert of a range, which its name has to be free for. -/
theorem exec_insertRange {range : EventFileRange} {rs : List EventFileRange} {a : Unit}
    (hd : d.ranges = some rs) : exec (.insertEventFileRange range) d = .ok (a, d') ↔
      (∀ r ∈ rs, r.name ≠ range.name) ∧ { d with ranges := some (rs ++ [range]) } = d' := by
  simp only [exec, Bind.bind, need_bind, hd, Option.some.injEq, exists_eq_left']
  by_cases h : rs.any fun r => r.name = range.name
  · simp only [h, if_true, throw, throwThe, MonadExceptOf.throw, Except.bind, reduceCtorEq, false_iff,
      not_and]
    simp only [List.any_eq_true, decide_eq_true_eq] at h
    obtain ⟨r, hr, hname⟩ := h
    exact fun hn => absurd hname (hn r hr)
  · simp only [h, if_false, pure, Except.pure, Except.bind, Except.ok.injEq, Prod.mk.injEq, true_and,
      Bool.false_eq_true]
    simp only [List.any_eq_true, decide_eq_true_eq, not_exists, not_and] at h
    exact ⟨fun hd => ⟨h, hd⟩, fun hd => hd.2⟩

/-- It fails because the name is taken. -/
theorem exec_insertRange_error {range : EventFileRange} {rs : List EventFileRange} {e : DbError}
    (hd : d.ranges = some rs) (h : exec (.insertEventFileRange range) d = .error e) :
    ∃ r ∈ rs, r.name = range.name := by
  by_contra hn
  rw [(exec_insertRange (a := ()) hd).2 ⟨fun r hr hname => hn ⟨r, hr, hname⟩, rfl⟩] at h
  cases h

/-- All ranges by `(first_version, name)`. -/
theorem exec_getAllRanges {a : List EventFileRange} :
    exec .getAllEventFileRanges d = .ok (a, d') ↔ ∃ ranges, d.ranges = some ranges ∧
      ranges.insertionSort rangeLe = a ∧ d = d' := by
  simp [exec, Bind.bind, need_bind, pure, Except.pure]

/-- The ranges that may hold an event behind the version, by `(first_version, name)`: the open ones, and
those with a greater last version. -/
theorem exec_getRangesAfter {v : Int} {a : List EventFileRange} :
    exec (.getEventFileRangesAfterVersion v) d = .ok (a, d') ↔ ∃ ranges, d.ranges = some ranges ∧
      (ranges.filter fun r =>
        match r.lastVersion with
        | none => true
        | some last => decide (v < last)).insertionSort rangeLe = a ∧ d = d' := by
  simp only [exec, Bind.bind, need_bind, pure, Except.pure, Except.ok.injEq, Prod.mk.injEq]

/-- A query leaves the database alone. -/
theorem exec_query {s : Stmt} {a : s.Ans} (hs : s.isQuery = true) (h : exec s d = .ok (a, d')) :
    d' = d := by
  cases s <;> simp only [isQuery, Bool.false_eq_true] at hs
  · exact (exec_loadAppliedMigrations.1 h).2.symm
  · exact (exec_readHead.1 h).2.symm
  · obtain ⟨_, _, _, rfl⟩ := exec_readFirst.1 h; rfl
  · obtain ⟨_, _, _, rfl⟩ := exec_maxSequence.1 h; rfl
  · obtain ⟨_, _, _, rfl⟩ := exec_queryEvents.1 h; rfl
  · obtain ⟨_, _, _, rfl⟩ := exec_queryWorkflowEvents.1 h; rfl
  · obtain ⟨_, _, _, rfl⟩ := exec_getAllRanges.1 h; rfl
  · obtain ⟨_, _, _, rfl⟩ := exec_getRangesAfter.1 h; rfl

end Ok

end Stmt

/-- The statements as a dialect. -/
abbrev sqlDialect : Tx.Dialect where
  Db := Db
  Err := DbError
  Stmt := Stmt
  Ans := Stmt.Ans
  exec := Stmt.exec
  nestedTransaction := .nestedTransaction
  noTransaction := .noTransaction

end Events
