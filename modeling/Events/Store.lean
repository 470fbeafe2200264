import Mathlib.Data.List.AList
import Mathlib.Data.List.Perm.Basic
import Events.Connection
import Events.Rotation
import Events.Lib.Interleave

/-!
# The store of a partition

The state that the calls on one partition share: the catalog database, the event files of the
directory, and what each open `EventStream` handle keeps in memory. `StoreOp` lists the steps the
code takes on it, one for each operation that can fail or that another call can come between;
`World.step` says what each does.

A transaction is one step, computed by running its program on a connection (`onConnection`), since
nobody else sees what it writes before `COMMIT`. What the program does not decide (a failure of the
storage, a clock reading, the length of a file, the order of a directory listing, fresh ids) is in
`StoreEnv`.
-/

namespace Events

open Proc Program

/-- `ActivePartition`, without its open database. -/
structure ActivePartition where
  name : Text
  startMs : Int
  ordinal : Option Nat
  deriving DecidableEq

/-- A database file of the partition. -/
inductive DbRef where
  | catalog
  | eventFile (name : Text)
  deriving DecidableEq

/-- What the calls on a partition share. `H` is the type of its handles. -/
structure World (H : Type) where
  /-- `catalog.db`, once it is there. -/
  catalog : Option Db
  /-- The event files. -/
  files : AList (fun _ : Text => Db)
  /-- The rotation policy and the active partition of every open handle. -/
  handles : H → Option (RotationPolicy × ActivePartition)
  /-- History: the events of the committed appends, in the order of their commits. -/
  log : List EventEnvelope

namespace World

variable {H : Type}

/-- The partition before its first open. -/
def empty : World H := { catalog := none, files := ∅, handles := fun _ => none, log := [] }

def db (w : World H) : DbRef → Option Db
  | .catalog => w.catalog
  | .eventFile name => w.files.lookup name

def setDb (w : World H) (ref : DbRef) (d : Db) : World H :=
  match ref with
  | .catalog => { w with catalog := some d }
  | .eventFile name => { w with files := w.files.insert name d }

/-- The ranges of the catalog. -/
def ranges (w : World H) : List EventFileRange := (w.catalog.bind Db.ranges).getD []

/-- The events stored in an event file. -/
def rowsOf (w : World H) (name : Text) : List EventRow :=
  ((w.files.lookup name).map Db.rows).getD []

/-- The append head of an event file, if it has one. -/
def headOf (w : World H) (name : Text) : Option Int := (w.files.lookup name).bind Db.headVersion

/-- The events stored in all event files. -/
def allRows (w : World H) : List EventRow := w.files.entries.flatMap fun f => f.2.rows

/-- The entries of the directory. -/
def directory (w : World H) : List Text :=
  (if w.catalog.isSome then [['c', 'a', 't', 'a', 'l', 'o', 'g', '.', 'd', 'b']] else []) ++
    w.files.keys

/-- The process stops, or drops its handles: the files stay. -/
def restart (w : World H) : World H := { w with handles := fun _ => none }

end World

/-! ## Operations -/

inductive StoreOp where
  | now
  | createDirAll
  | listDirectory
  | fileSize (name : Text)
  | readActive
  | setActive (active : ActivePartition)
  | openHandle (rotation : RotationPolicy) (active : ActivePartition)
  | buildDatabase (ref : DbRef)
  | configureDatabase (ref : DbRef)
  | connect (ref : DbRef)
  | getConnection (ref : DbRef)
  | sql (ref : DbRef) (s : Stmt)
  | appendTransaction (name : Text) (expected : ExpectedVersion) (events : List NewEvent)
      (baseTime : OffsetDateTime)
  | replaceTransaction (ranges : List EventFileRange)

@[reducible] def StoreOp.Resp : StoreOp → Type
  | .now => OffsetDateTime
  | .createDirAll => Except EsError Unit
  | .listDirectory => Except EsError (List Text)
  | .fileSize _ => Nat
  | .readActive => Option ActivePartition
  | .setActive _ => Unit
  | .openHandle _ _ => Unit
  | .buildDatabase _ => Except EsError Unit
  | .configureDatabase _ => Except EsError Unit
  | .connect _ => Except EsError Unit
  | .getConnection _ => Except EsError Unit
  | .sql _ s => Except EsError s.Ans
  | .appendTransaction _ _ _ _ => Except EsError AppendResult
  | .replaceTransaction _ => Except EsError Unit

abbrev StoreI : Interface := ⟨StoreOp, StoreOp.Resp⟩

/-- The choices of the environment at a step. -/
structure StoreEnv where
  /-- The text of the failure, if the step fails. -/
  fault : Option String := none
  now : OffsetDateTime := .unixEpoch
  size : Nat := 0
  listing : List Text := []
  ids : Nat → Uuid := fun i => ⟨BitVec.ofNat 128 i⟩
  span : SpanContext := {}
  /-- The failure, if any, of every statement of a transaction. -/
  statementFault : Nat → Option String := fun _ => none

/-- The end of a step that fails only by a fault of the database. -/
def dbFault {α : Type} (e : StoreEnv) (a : α) : Except EsError α :=
  match e.fault with
  | some message => .error (.db (.storage message))
  | none => .ok a

/-- Run the program of a transaction on a connection to `d`; only what it commits stays. -/
def onConnection {α : Type} (e : StoreEnv) (p : ConnProgram α) (d : Db) : Except EsError α × Db :=
  let r := p.eval (Tx.conn sqlDialect) (fun i => (e.statementFault i).map DbError.storage) 0 ⟨d, none⟩
  (r.1, r.2.db)

namespace World

variable {H : Type} [DecidableEq H]

/-- A statement outside a transaction. -/
def stepSql (w : World H) (ref : DbRef) (s : Stmt) (e : StoreEnv) :
    Except EsError s.Ans × World H :=
  match e.fault, w.db ref with
  | some message, _ => (.error (.db (.storage message)), w)
  | none, none => (.error (.db (.storage "unable to open database file")), w)
  | none, some d =>
    match s.exec d with
    | .ok (a, d') => (.ok a, if s.isQuery then w else w.setDb ref d')
    | .error err => (.error (.db err), w)

/-- The append transaction on an event file. -/
def stepAppend (w : World H) (name : Text) (expected : ExpectedVersion) (events : List NewEvent)
    (baseTime : OffsetDateTime) (e : StoreEnv) : Except EsError AppendResult × World H :=
  match w.files.lookup name with
  | none => (.error (.db (.storage "unable to open database file")), w)
  | some d =>
    match onConnection e (appendOnConnection e.ids e.span expected events baseTime) d with
    | (.ok result, d') =>
      (.ok result, { w.setDb (.eventFile name) d' with log := w.log ++ result.events })
    | (.error err, d') => (.error err, w.setDb (.eventFile name) d')

/-- The transaction that replaces the ranges of the catalog. -/
def stepReplace (w : World H) (ranges : List EventFileRange) (e : StoreEnv) :
    Except EsError Unit × World H :=
  match w.catalog with
  | none => (.error (.db (.storage "unable to open database file")), w)
  | some d =>
    match onConnection e (replaceRangesOnConnection ranges) d with
    | (r, d') => (r, w.setDb .catalog d')

/-- What an operation of the handle `h` answers and does. -/
def step (h : H) : (o : StoreOp) → StoreEnv → World H → o.Resp × World H
  | .now, e, w => (e.now, w)
  | .createDirAll, e, w =>
    (match e.fault with
      | some message => .error (.io message)
      | none => .ok (), w)
  | .listDirectory, e, w =>
    (match e.fault with
      | some message => .error (.io message)
      -- the entries come in an order of the file system's choice
      | none => .ok (if e.listing.isPerm w.directory then e.listing else w.directory), w)
  | .fileSize _, e, w => (e.size, w)
  | .readActive, _, w => ((w.handles h).map Prod.snd, w)
  | .setActive active, _, w =>
    ((), { w with handles := Function.update w.handles h
                    ((w.handles h).map fun p => (p.1, active)) })
  | .openHandle rotation active, _, w =>
    ((), { w with handles := Function.update w.handles h (some (rotation, active)) })
  | .buildDatabase ref, e, w =>
    match e.fault with
    | some message => (.error (.db (.storage message)), w)
    | none => (.ok (), if (w.db ref).isSome then w else w.setDb ref {})
  | .configureDatabase _, e, w => (dbFault e (), w)
  | .connect _, e, w => (dbFault e (), w)
  | .getConnection ref, e, w =>
    if (w.db ref).isSome then (dbFault e (), w)
    else (.error (.invalidPath "Database file does not exist"), w)
  | .sql ref s, e, w => w.stepSql ref s e
  | .appendTransaction name expected events baseTime, e, w =>
    w.stepAppend name expected events baseTime e
  | .replaceTransaction ranges, e, w => w.stepReplace ranges e

end World

end Events
