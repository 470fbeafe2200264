import Events.Store

/-!
# Migrations

`src/migration.rs`: the runner that applies the migrations of a database which are not recorded in
its `_migrations` table, and the migrations of event files and of the catalog. Every statement of
a migration takes effect on its own; the record follows the last one.
-/

namespace Events

open Proc Program

/-- A program on the store of a partition. -/
abbrev StoreProgram := Program StoreI Abort

/-- The error of an operation, as `?` passes it on. -/
def orEs {I : Interface} {α : Type} : Except EsError α → Program I Abort α
  | .ok a => .done (.ok a)
  | .error e => .done (.error (.es e))

/-- A statement on a connection to `ref`, with `?`. -/
def sql (ref : DbRef) (s : Stmt) : StoreProgram s.Ans := .call (StoreOp.sql ref s) orEs

/-- `Migration`. -/
structure Migration where
  name : String
  sql : List SchemaStmt

/-- The hash of the migration's SQL. -/
def Migration.checksum (m : Migration) : List SchemaStmt := m.sql

/-- `conn.execute_batch`. -/
def executeBatch (ref : DbRef) : List SchemaStmt → StoreProgram Unit
  | [] => pure ()
  | s :: batch => do
    sql ref (.schema s)
    executeBatch ref batch

/-- `MigrationRunner::apply_migration`. -/
def applyMigration (ref : DbRef) (m : Migration) : StoreProgram Unit := do
  executeBatch ref m.sql
  sql ref (.recordMigration m.name m.checksum)

/-- `MigrationRunner::verify_migration_checksum`. -/
def verifyMigrationChecksum (m : Migration) (appliedChecksum : List SchemaStmt) :
    StoreProgram Unit :=
  if appliedChecksum ≠ m.checksum then
    throw (.es (.migration s!"Migration {m.name} has changed checksum"))
  else pure ()

/-- The body of the loop of `run_pending_migrations`. -/
def runMigration (ref : DbRef) (applied : List MigrationRow) (m : Migration) : StoreProgram Unit :=
  match applied.find? fun row => row.name = m.name with
  | some row => verifyMigrationChecksum m row.checksum
  | none => applyMigration ref m

/-- `MigrationRunner::run_pending_migrations`. -/
def runPendingMigrations (ref : DbRef) (applied : List MigrationRow) :
    List Migration → StoreProgram Unit
  | [] => pure ()
  | m :: ms => do
    runMigration ref applied m
    runPendingMigrations ref applied ms

/-- `MigrationRunner::run`. -/
def runMigrations (ref : DbRef) (migrations : List Migration) : StoreProgram Unit := do
  sql ref .ensureMigrationsTable
  let applied ← sql ref .loadAppliedMigrations
  runPendingMigrations ref applied migrations

/-- Partition DB migrations. -/
def partitionMigrations : List Migration :=
  [{ name := "001_event_file_schema"
     sql := [
      .createTable .events,
      .createIndexIfNotExists "idx_events_version" .events,
      .createIndexIfNotExists "idx_events_global" .events,
      .createIndexIfNotExists "idx_events_workflow_started_version" .events,
      .createIndexIfNotExists "idx_events_actor" .events,
      .createIndexIfNotExists "idx_events_actor_type" .events,
      .createTable .eventFileAppendHead] }]

/-- Catalog DB migrations. -/
def catalogMigrations : List Migration :=
  [{ name := "001_catalog_schema"
     sql := [
      .createTable .eventFileRanges,
      .createIndexIfNotExists "idx_event_file_ranges_range" .eventFileRanges] }]

end Events
