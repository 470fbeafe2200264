import Events.Procedures
import Events.EventStream
import Events.Lib.LockLogic

/-!
# Rules for the calls on one handle

The calls of an event stream under any discipline of the lock logic: what is left to show of
`append` and `maybe_rotate` is what they do under the write lock, `rotatePartitionLocked` and
`appendLocked`. Everything around it (the checks under the read lock, the loop of
`rotate_until_current_window`, the validation of the batch) is handled here, once.

* **`Answers`** — what every operation but the transactions answers: no error of it is one of a
  wrong version, and the clock reads a time that satisfies `Clock`.
* **`Reads`** — what is asked of a discipline: looking is free, and the clock is `Clock`.
* **`safe_rotatePartition`**, **`safe_maybeRotate`**, **`safe_append`**, **`safe_load`**,
  **`safe_currentVersion`** — the rules.
-/

namespace Events

open Proc Program Discipline

/-! ## Answers -/

/-- The error is not that of a wrong version. -/
def PlainError (e : Abort) : Prop := ∀ ex ac, e ≠ .es (.incorrectEventVersion ex ac)

/-- The result is no error of a wrong version. -/
def Plain {α : Type} (r : Except Abort α) : Prop := ∀ e, r = .error e → PlainError e

/-- The answer is no error of a wrong version. -/
def PlainAnswer {α : Type} (r : Except EsError α) : Prop :=
  ∀ ex ac, r ≠ .error (.incorrectEventVersion ex ac)

/-- What the operations answer. -/
def Answers (Clock : OffsetDateTime → Prop) : (o : StoreOp) → o.Resp → Prop
  | .now, t => Clock t
  | .createDirAll, r => PlainAnswer r
  | .listDirectory, r => PlainAnswer r
  | .buildDatabase _, r => PlainAnswer r
  | .configureDatabase _, r => PlainAnswer r
  | .connect _, r => PlainAnswer r
  | .getConnection _, r => PlainAnswer r
  | .sql _ _, r => PlainAnswer r
  | _, _ => True

/-- A time in milliseconds that the clock reads. -/
def Timely (Clock : OffsetDateTime → Prop) (nowMs : Int) : Prop :=
  ∃ t, Clock t ∧ t.unixTimestampMs = nowMs

/-- A failure of the database is no error of a wrong version. -/
theorem plain_dbFault {α : Type} (e : StoreEnv) (a : α) : PlainAnswer (dbFault e a) := by
  intro ex ac
  unfold dbFault
  split <;> simp

/-- **What the store answers**: errors of a wrong version come from append transactions only, and the clock
reads what the discipline says. -/
theorem answers_step {H : Type} [DecidableEq H] {h : H} {Clock : OffsetDateTime → Prop}
    {o : StoreOp} {e : StoreEnv} {w : World H} (hclock : o = .now → Clock e.now) :
    Answers Clock o (World.step h o e w).1 := by
  cases o with
  | now => exact hclock rfl
  | createDirAll => intro ex ac; simp only [World.step]; split <;> simp
  | listDirectory => intro ex ac; simp only [World.step]; split <;> simp
  | buildDatabase ref => intro ex ac; simp only [World.step]; split <;> simp
  | configureDatabase ref => exact plain_dbFault e ()
  | connect ref => exact plain_dbFault e ()
  | getConnection ref =>
    intro ex ac
    simp only [World.step]
    split
    · exact plain_dbFault e () ex ac
    · simp
  | sql ref s =>
    intro ex ac
    simp only [World.step, World.stepSql]
    split
    · simp
    · simp
    · split <;> simp
  | _ => trivial

section Plain

variable {Clock : OffsetDateTime → Prop} {α β : Type}

/-- An answer without an error is plain. -/
theorem Plain.ok (a : α) : Plain (.ok a) := fun _ h => by cases h

/-- A panic is plain. -/
theorem Plain.panic : Plain (.error .panic : Except Abort α) := by
  rintro e ⟨⟩ ex ac
  simp

/-- An error that is not one of a wrong version is plain. -/
theorem Plain.es {err : EsError} (h : ∀ ex ac, err ≠ .incorrectEventVersion ex ac) :
    Plain (.error (.es err) : Except Abort α) := by
  rintro e ⟨⟩ ex ac
  simpa using h ex ac

/-- `?` hands on a plain error. -/
theorem yields_orEs {r : Except EsError α} (h : PlainAnswer r) :
    (orEs r : StoreProgram α).Yields (Answers Clock) Plain := by
  cases r with
  | ok a => exact Plain.ok a
  | error err => exact Plain.es fun ex ac => by simpa using h ex ac

/-- A program of plain steps ends plain. -/
theorem yields_bind {p : StoreProgram α} {f : α → StoreProgram β}
    (hp : p.Yields (Answers Clock) Plain) (hf : ∀ a, (f a).Yields (Answers Clock) Plain) :
    (p.bind f).Yields (Answers Clock) Plain :=
  hp.bind (fun a _ => hf a) fun e he => fun e' he' => by
    cases he'
    exact he e rfl

/-- A statement ends plain. -/
theorem yields_sql {ref : DbRef} {s : Stmt} : (sql ref s).Yields (Answers Clock) Plain :=
  fun _ hr => yields_orEs hr

theorem yields_getConnection {ref : DbRef} : (getConnection ref).Yields (Answers Clock) Plain :=
  fun _ hr => yields_orEs hr

theorem yields_readEventFileAppendHead {name : Text} :
    (readEventFileAppendHead name).Yields (Answers Clock) Plain := by
  refine yields_bind yields_sql fun row => yields_orEs fun ex ac => ?_
  cases row <;> simp [headOfRow]

theorem yields_createPartitionDb {name : Text} {v : Int} :
    (createPartitionDb name v).Yields (Answers Clock) Plain := by
  have hbatch : ∀ ref batch, (executeBatch ref batch).Yields (Answers Clock) Plain := by
    intro ref batch
    induction batch with
    | nil => exact Plain.ok ()
    | cons s batch ih => exact yields_bind yields_sql fun _ => ih
  have hpending : ∀ ref applied ms,
      (runPendingMigrations ref applied ms).Yields (Answers Clock) Plain := by
    intro ref applied ms
    induction ms with
    | nil => exact Plain.ok ()
    | cons m ms ih =>
      refine yields_bind ?_ fun _ => ih
      unfold runMigration
      split
      · unfold verifyMigrationChecksum
        split
        · exact Plain.es (by simp)
        · exact Plain.ok ()
      · exact yields_bind (hbatch _ _) fun _ => yields_sql
  have hopen : (openPartitionDb name).Yields (Answers Clock) Plain :=
    yields_bind (p := buildDatabase _) (fun _ hr => yields_orEs hr)
      fun _ => fun _ hr => yields_orEs hr
  refine yields_bind hopen fun _ => yields_bind (p := connect _) (fun _ hr => yields_orEs hr) fun _ => ?_
  refine yields_bind ?_ fun _ => yields_sql
  exact yields_bind yields_sql fun _ => yields_bind yields_sql fun _ => hpending _ _ _

/-- The errors of naming a window, by cases on the time that is out of range. -/
theorem labelFor_plain {startMs : Int} {window : Duration} {err : EsError}
    (h : labelFor startMs window = .error err) (ex ac : Int) :
    err ≠ .incorrectEventVersion ex ac := by
  unfold labelFor at h
  repeat' split at h
  all_goals first
    | cases h; simp
    | cases h

/-- The errors of `generate_partition_name` are of the time and of the ordinal. -/
theorem generatePartitionName_plain {startMs : Int} {window : Duration} {ordinal : Option Nat}
    {err : EsError} (h : generatePartitionName startMs window ordinal = .error err) (ex ac : Int) :
    err ≠ .incorrectEventVersion ex ac := by
  unfold generatePartitionName at h
  cases hlabel : labelFor startMs window with
  | error err' =>
    rw [hlabel] at h
    cases h
    exact labelFor_plain hlabel ex ac
  | ok label =>
    rw [hlabel] at h
    cases ordinal with
    | none => cases h
    | some n =>
      simp only [Bind.bind, Except.bind] at h
      split at h
      · cases h
      · cases h; simp

/-- A rotation that finds no name to go to ends plain. -/
theorem plain_determineNewPartitionInfo {rotation : RotationPolicy} {startMs : Int}
    {ordinal : Option Nat} {nowMs : Int} :
    Plain (determineNewPartitionInfo rotation startMs ordinal nowMs) := by
  unfold determineNewPartitionInfo
  split
  · exact Plain.panic
  · split
    · split
      · exact Plain.es (by simp)
      · split
        · exact Plain.ok _
        · exact Plain.es (generatePartitionName_plain ‹_›)
    · split
      · exact Plain.ok _
      · exact Plain.es (generatePartitionName_plain ‹_›)

/-- The steps of a rotation behind its name. -/
theorem yields_rotateTo {old : Text} {head : Int} (new : ActivePartition) :
    (rotateTo old head new).Yields (Answers Clock) Plain := by
  unfold rotateTo sealEventFileRange createEventFileRange
  refine yields_bind (yields_bind yields_getConnection fun _ => yields_sql) fun _ => ?_
  refine yields_bind yields_createPartitionDb fun _ => ?_
  refine yields_bind (yields_bind yields_getConnection fun _ => yields_sql) fun _ => ?_
  exact fun _ _ => Plain.ok _

/-- No error of a rotation is one of a wrong version. -/
theorem yields_rotatePartitionLocked {rotation : RotationPolicy} {nowMs : Int} :
    (rotatePartitionLocked rotation nowMs).Yields (Answers Clock) Plain := by
  unfold rotatePartitionLocked
  refine yields_bind ?_ fun active => ?_
  · intro active _
    cases active with
    | none => exact Plain.panic
    | some active => exact Plain.ok active
  refine yields_bind plain_determineNewPartitionInfo fun new => ?_
  refine yields_bind yields_getConnection fun _ => ?_
  refine yields_bind yields_readEventFileAppendHead fun head => ?_
  exact yields_rotateTo ⟨new.1, new.2.1, new.2.2⟩

end Plain

/-! ## Disciplines -/

section Rules

variable {Γ : Type} {Clock : OffsetDateTime → Prop}

/-- What the rules ask of a discipline. -/
structure Reads [SerdeJson] (D : Discipline (eventStreams Unit) Γ)
    (Clock : OffsetDateTime → Prop) : Prop where
  quiet : ∀ o : StoreOp, o.isAppend = false → D.Quiet o
  refl : ∀ g (o : StoreOp) w, o.isPassive = true → D.always w → D.guarantee g o w w
  clock : ∀ e w, D.allow .now e w → Clock e.now

/-- The call goes on without the lock, and with an error only if it is not one of a wrong
version. -/
def SoftEnd (g : Γ) {α : Type} (r : Except Abort α) (m : Mode) (γ : Γ) (_ : World Unit) : Prop :=
  m = .free ∧ γ = g ∧ Plain r

/-! ## The bodies under the lock, operation by operation -/

/-- `maybe_rotate`'s look, with its `?` spelled out: the active partition, the size of its file, and the
clock. -/
theorem rotationDue_eq (rotation : RotationPolicy) :
    rotationDue rotation = .call StoreOp.readActive fun
      | none => .done (.error .panic)
      | some active => .call (StoreOp.fileSize active.name) fun size => .call StoreOp.now fun t =>
          rotationTime (shouldRotate rotation size active.startMs t) := by
  unfold rotationDue readActive
  rw [bind_eq, call_bind]
  congr 1
  funext active
  cases active with
  | none => rfl
  | some active => simp only [done_ok_bind, bind_eq, fileSize, now, call_bind]

/-- The test of `rotate_until_current_window` in the same way. -/
theorem inCurrentWindow_eq (rotation : RotationPolicy) (nowMs : Int) :
    inCurrentWindow rotation nowMs = .call StoreOp.readActive fun
      | none => .done (.error .panic)
      | some active => (orPanic (floorToWindowMs nowMs rotation.window)).bind fun floored =>
          .done (.ok (decide (floored = active.startMs))) := by
  unfold inCurrentWindow readActive
  -- the flooring is kept folded: its modulus is too large to compute with
  generalize floorToWindowMs nowMs rotation.window = floored
  rw [bind_eq, call_bind]
  congr 1
  funext active
  cases active <;> rfl

/-- A refused batch is no version error. -/
theorem validateEvents_plain {events : List NewEvent} {err : EsError}
    (h : validateEvents events = .error err) (ex ac : Int) : err ≠ .incorrectEventVersion ex ac := by
  induction events with
  | nil => cases h
  | cons event events ih =>
    simp only [validateEvents] at h
    split at h
    · exact ih h
    · rename_i e he
      cases h
      unfold validateEvent validateSafeLabel at he
      repeat' split at he
      all_goals first
        | cases he; simp
        | cases he

/-- Behind its decision the look asks for nothing more than the clock. -/
theorem all_rotationTime (due : Option Bool) :
    (rotationTime due).All fun o : StoreOp => o.isPassive = true := by
  cases due with
  | none => trivial
  | some due =>
    cases due with
    | false => trivial
    | true => exact ⟨rfl, fun _ => trivial⟩

/-- The look only looks. -/
theorem all_rotationDue (rotation : RotationPolicy) :
    (rotationDue rotation).All fun o : StoreOp => o.isPassive = true := by
  rw [rotationDue_eq]
  refine ⟨rfl, fun active => ?_⟩
  cases active with
  | none => trivial
  | some active => exact ⟨rfl, fun size => ⟨rfl, fun t => all_rotationTime _⟩⟩

/-- The time to rotate at is one the clock reads. -/
theorem yields_rotationTime (due : Option Bool) :
    (rotationTime due).Yields (Answers Clock) fun r =>
      Plain r ∧ ∀ nowMs, r = .ok (some nowMs) → Timely Clock nowMs := by
  cases due with
  | none => exact ⟨Plain.panic, by simp⟩
  | some due =>
    cases due with
    | false => exact ⟨Plain.ok _, by simp⟩
    | true =>
      refine fun t ht => ⟨Plain.ok _, fun nowMs hnow => ⟨t, ht, ?_⟩⟩
      simpa using hnow

/-- It answers a time that the clock has read. -/
theorem yields_rotationDue (rotation : RotationPolicy) :
    (rotationDue rotation).Yields (Answers Clock) fun r =>
      Plain r ∧ ∀ nowMs, r = .ok (some nowMs) → Timely Clock nowMs := by
  rw [rotationDue_eq]
  intro active _
  cases active with
  | none => exact ⟨Plain.panic, by simp⟩
  | some active => exact fun size _ t _ => yields_rotationTime _

/-- The test only looks. -/
theorem all_inCurrentWindow (rotation : RotationPolicy) (nowMs : Int) :
    (inCurrentWindow rotation nowMs).All fun o : StoreOp => o.isPassive = true := by
  rw [inCurrentWindow_eq]
  generalize floorToWindowMs nowMs rotation.window = floored
  refine ⟨rfl, fun active => ?_⟩
  cases active <;> cases floored <;> trivial

/-- It ends plain. -/
theorem yields_inCurrentWindow (rotation : RotationPolicy) (nowMs : Int) :
    (inCurrentWindow rotation nowMs).Yields (Answers Clock) Plain := by
  rw [inCurrentWindow_eq]
  generalize floorToWindowMs nowMs rotation.window = floored
  intro active _
  cases active with
  | none => exact Plain.panic
  | some active =>
    cases floored with
    | none => exact Plain.panic
    | some floored => exact Plain.ok _

/-- A read asks for connections and makes queries. -/
theorem all_loadAfterVersion [SerdeJson] {P : StoreOp → Prop} (hconnection : ∀ ref, P (.getConnection ref))
    (hquery : ∀ ref s, s.isQuery = true → P (.sql ref s)) (cursor : EventStreamVersion) (limit : Nat) :
    (loadAfterVersion cursor limit).All P := by
  have hfile : ∀ path n, (queryPartitionEventsAfterVersion path cursor.get n).All P := by
    intro path n
    refine All.bind (all_getConnection (hconnection _)) fun _ => ?_
    exact All.bind (all_sql (hquery _ _ rfl)) fun rows => all_orEs _
  have hloop : ∀ ranges events, (loadFromRanges
      (fun path remaining => queryPartitionEventsAfterVersion path cursor.get remaining) limit ranges
      events).All P := by
    intro ranges
    induction ranges with
    | nil => exact fun events => trivial
    | cons range ranges ih =>
      intro events
      rw [loadFromRanges]
      split
      · trivial
      · split
        · trivial
        · exact (hfile _ _).bind fun more => ih _
  unfold loadAfterVersion loadWith
  refine (all_orEs _).bind fun _ => ?_
  refine All.bind ?_ fun ranges => (hloop ranges []).bind fun events => trivial
  exact All.bind (all_getConnection (hconnection _)) fun _ => all_sql (hquery _ _ rfl)

/-- Reading an append head needs a connection and one query. -/
theorem all_readEventFileAppendHead {P : StoreOp → Prop} {name : Text}
    (h : P (.sql (.eventFile name) .readEventFileAppendHead)) :
    (readEventFileAppendHead name).All P :=
  (all_sql h).bind fun _ => all_orEs _

/-- `current_version` behind its read lock only looks. -/
theorem all_currentVersionLocked :
    currentVersionLocked.All fun o : StoreOp => o.isPassive = true := by
  unfold currentVersionLocked
  refine All.bind ⟨rfl, fun active => by cases active <;> trivial⟩ fun active => ?_
  refine All.bind ?_ fun _ => All.bind (all_readEventFileAppendHead ?_) fun head => ?_
  · exact all_getConnection rfl
  · rfl
  · split
    · trivial
    · exact all_orEs _

/-- A rotation goes to the window of its time. -/
theorem determineNewPartitionInfo_startMs {rotation : RotationPolicy} {startMs nowMs : Int}
    {ordinal : Option Nat} {new : Text × Int × Option Nat}
    (h : determineNewPartitionInfo rotation startMs ordinal nowMs = .ok new) :
    floorToWindowMs nowMs rotation.window = some new.2.1 := by
  unfold determineNewPartitionInfo at h
  split at h
  · cases h
  · rename_i newStartMs hfloor
    rw [hfloor]
    repeat' split at h
    all_goals first
      | cases h; rfl
      | cases h

/-- What a rotation at `nowMs` performs: it appends nothing, does not read the clock, and makes only a
file of the window of its time active. -/
def StoreOp.rotates (rotation : RotationPolicy) (nowMs : Int) : StoreOp → Prop
  | .setActive a => floorToWindowMs nowMs rotation.window = some a.startMs
  | .openHandle _ _ => False
  | .appendTransaction _ _ _ _ => False
  | .now => False
  | _ => True

/-- The writing part of a rotation, to a file of its window. -/
theorem all_rotateTo {rotation : RotationPolicy} {nowMs : Int} {old : Text} {head : Int}
    {new : ActivePartition} (hstart : floorToWindowMs nowMs rotation.window = some new.startMs) :
    (rotateTo old head new).All fun o : StoreOp =>
      o.rotates rotation nowMs ∧ o.setsHeadTo head = true := by
  have hcatalog : ∀ s, All (fun o : StoreOp => o.rotates rotation nowMs ∧ o.setsHeadTo head = true)
      ((getConnection .catalog).bind fun _ => sql .catalog s) := by
    refine fun s => All.bind ?_ fun _ => ?_
    · exact all_getConnection ⟨trivial, rfl⟩
    · exact all_sql ⟨trivial, rfl⟩
  have hcreate : (createPartitionDb new.name head).All fun o : StoreOp =>
      o.rotates rotation nowMs ∧ o.setsHeadTo head = true := by
    refine All.bind (all_openPartitionDb ⟨trivial, rfl⟩ ⟨trivial, rfl⟩) fun _ => ?_
    refine All.bind ?_ fun _ => All.bind ?_ fun _ => ?_
    · exact all_connect ⟨trivial, rfl⟩
    · exact all_runMigrations ⟨trivial, rfl⟩ ⟨trivial, rfl⟩ (fun _ => ⟨trivial, rfl⟩)
        fun _ _ => ⟨trivial, rfl⟩
    · exact all_sql ⟨trivial, decide_eq_true rfl⟩
  unfold rotateTo
  refine (hcatalog _).bind fun _ => hcreate.bind fun _ => (hcatalog _).bind fun _ => ?_
  exact ⟨⟨hstart, rfl⟩, fun _ => trivial⟩

/-- A rotation stores no event. -/
theorem all_rotates_upkeep (rotation : RotationPolicy) (nowMs : Int) :
    (rotatePartitionLocked rotation nowMs).All fun o : StoreOp =>
      o.rotates rotation nowMs ∧ o.isUpkeep = true := by
  unfold rotatePartitionLocked
  refine All.bind ⟨⟨trivial, rfl⟩, fun active => by cases active <;> trivial⟩ fun active => ?_
  cases hnew : determineNewPartitionInfo rotation active.startMs active.ordinal nowMs with
  | error err => trivial
  | ok new =>
    show ((getConnection (.eventFile active.name)).bind _).All _
    refine All.bind ?_ fun _ => All.bind (all_readEventFileAppendHead ?_) fun head => ?_
    · exact all_getConnection ⟨trivial, rfl⟩
    · exact ⟨trivial, rfl⟩
    · have hrotate : (rotateTo active.name head ⟨new.1, new.2.1, new.2.2⟩).All fun o : StoreOp =>
          o.rotates rotation nowMs ∧ o.setsHeadTo head = true :=
        all_rotateTo (determineNewPartitionInfo_startMs hnew)
      exact hrotate.mono fun o ho => ⟨ho.1, isUpkeep_of_setsHeadTo ho.2⟩

/-- The operations of a rotation: it reads, seals, prepares a file, adds its range and goes over to it. -/
theorem all_rotates (rotation : RotationPolicy) (nowMs : Int) :
    (rotatePartitionLocked rotation nowMs).All (StoreOp.rotates rotation nowMs) :=
  (all_rotates_upkeep rotation nowMs).mono fun _ ho => ho.1

/-- A rotation is no append. -/
theorem all_rotatePartitionLocked (rotation : RotationPolicy) (nowMs : Int) :
    (rotatePartitionLocked rotation nowMs).All fun o : StoreOp => o.isAppend = false :=
  (all_rotates_upkeep rotation nowMs).mono fun _ ho => isAppend_of_isUpkeep ho.2

namespace Reads

variable [SerdeJson] {D : Discipline (eventStreams Unit) Γ} (hD : Reads D Clock)
include hD

/-- What only looks is passive in every discipline with these rules. -/
theorem passive {o : StoreOp} (ho : o.isPassive = true) : D.Passive o := by
  refine ⟨hD.quiet o ?_, fun _ w hw => ⟨step_passive ho, fun g => hD.refl g o w ho hw⟩⟩
  cases o <;> first | rfl | cases ho

/-- The answers of the store, where the discipline speaks of the clock. -/
theorem answers (o : StoreOp) (e : StoreEnv) (w : World Unit) (he : D.allow o e w) :
    Answers Clock o (World.step () o e w).1 :=
  answers_step fun ho => hD.clock e w (ho ▸ he)

/-- A body that only looks, in a mode that does not write. -/
theorem safe_looking {α : Type} {p : StoreProgram α} {R : Except Abort α → Prop} {m : Mode} {g : Γ}
    {w : World Unit} {Q : Except Abort α → Mode → Γ → World Unit → Prop} (hm : m ≠ .writing)
    (hp : p.All fun o : StoreOp => o.isPassive = true) (hy : p.Yields (Answers Clock) R)
    (hQ : ∀ r w, R r → Q r m g w) : D.safe p.lift Q m g w :=
  safe_lift_passive hm (hp.mono fun _ ho => hD.passive ho) hy (fun o e w _ he => hD.answers o e w he)
    hQ

/-- `rotate_partition`, given what its body does to the invariant. -/
theorem safe_rotatePartition {rotation : RotationPolicy} {nowMs : Int} {g : Γ} (w : World Unit)
    (hbody : ∀ w, D.inv w → D.allowWrite (.rotating rotation nowMs) w →
      wp (D.contract g) (rotatePartitionLocked rotation nowMs) (fun _ w => D.inv w) w) :
    D.safe (rotatePartition rotation nowMs) (SoftEnd g) .free g w := by
  refine safe_withWrite fun w hw hn => ?_
  refine safe_lift_writing ((all_rotatePartitionLocked rotation nowMs).mono fun o ho => hD.quiet o ho)
    (wp_yields (hbody w hw hn) yields_rotatePartitionLocked fun o e w he => hD.answers o e w he) ?_
  exact fun r w hr => ⟨rfl, hr.1, rfl, rfl, hr.2⟩

/-- `maybe_rotate`, given what a rotation does. -/
theorem safe_maybeRotate {rotation : RotationPolicy} {g : Γ} (w : World Unit)
    (hrot : ∀ nowMs w, Timely Clock nowMs →
      D.safe (rotatePartition rotation nowMs) (SoftEnd g) .free g w) :
    D.safe (maybeRotate rotation) (SoftEnd g) .free g w := by
  unfold maybeRotate
  rw [bind_eq, safe_bind]
  refine safe_withRead (hD.safe_looking (by decide) (all_rotationDue rotation)
    (yields_rotationDue rotation) fun r w hr => ⟨rfl, ?_⟩)
  cases r with
  | error e => exact ⟨rfl, rfl, fun e' he' => hr.1 e' (by cases he'; rfl)⟩
  | ok due =>
    cases due with
    | none => exact ⟨rfl, rfl, Plain.ok ()⟩
    | some nowMs => exact hrot nowMs w (hr.2 nowMs rfl)

/-- `rotate_until_current_window`, given what a rotation does. -/
theorem safe_rotateUntilCurrentWindow {rotation : RotationPolicy} {nowMs : Int} {g : Γ} (fuel : Nat)
    (w : World Unit)
    (hrot : ∀ w, D.safe (rotatePartition rotation nowMs) (SoftEnd g) .free g w) :
    D.safe (rotateUntilCurrentWindow rotation nowMs fuel) (SoftEnd g) .free g w := by
  induction fuel generalizing w with
  | zero =>
    refine ⟨rfl, rfl, ?_⟩
    rintro e ⟨⟩ ex ac
    simp
  | succ fuel ih =>
    unfold rotateUntilCurrentWindow
    rw [bind_eq, safe_bind]
    refine safe_withRead (hD.safe_looking (by decide) (all_inCurrentWindow rotation nowMs)
      (yields_inCurrentWindow rotation nowMs) fun r w hr => ⟨rfl, ?_⟩)
    cases r with
    | error e => exact ⟨rfl, rfl, fun e' he' => hr e' (by cases he'; rfl)⟩
    | ok current =>
      cases current with
      | true => exact ⟨rfl, rfl, Plain.ok ()⟩
      | false =>
        show D.safe ((rotatePartition rotation nowMs).bind _) _ _ _ _
        rw [safe_bind]
        refine safe_mono (hrot w) fun r m γ w hr => ?_
        obtain ⟨rfl, rfl, hr⟩ := hr
        cases r with
        | error e => exact ⟨rfl, rfl, hr⟩
        | ok _ => exact ih w

/-- `append`, given what a rotation and the part under the write lock do. -/
theorem safe_append {rotation : RotationPolicy} {fuel : Nat} {expected : ExpectedVersion}
    {events : List NewEvent} {g : Γ} (w : World Unit)
    {Q : Except Abort AppendResult → Mode → Γ → World Unit → Prop}
    (hrot : ∀ nowMs w, Timely Clock nowMs →
      D.safe (rotatePartition rotation nowMs) (SoftEnd g) .free g w)
    (hempty : ∀ w, events = [] → Q (.ok emptyAppend) .free g w)
    (hsoft : ∀ e w, PlainError e → Q (.error e) .free g w)
    (happend : ∀ nowMs baseTime w, events ≠ [] → validateEvents events = .ok () →
      Timely Clock nowMs → OffsetDateTime.fromUnixTimestampNanos (nowMs * 1000000) = some baseTime →
      D.safe (withWrite .appending (appendLocked expected events baseTime)) Q .free g w) :
    D.safe (append rotation fuel expected events) Q .free g w := by
  unfold append
  rw [bind_eq, safe_bind]
  refine safe_mono (hD.safe_maybeRotate w hrot) fun r m γ w hr => ?_
  obtain ⟨rfl, rfl, hr⟩ := hr
  cases r with
  | error e => exact hsoft e w (hr e rfl)
  | ok _ =>
    by_cases hne : events = []
    · subst hne
      exact hempty w rfl
    · have hisEmpty : events.isEmpty = false := by simpa using hne
      simp only [hisEmpty, Bool.false_eq_true, if_false, bind_eq]
      cases hval : validateEvents events with
      | error err => exact hsoft _ w (Plain.es (α := Unit) (validateEvents_plain hval) _ rfl)
      | ok u =>
        show D.safe ((lift now).bind _) Q .free γ w
        -- the clock is read before the call waits for the lock
        intro w t ha _ he
        refine ⟨rfl, hD.refl _ _ _ rfl ha, ?_⟩
        rw [hD.quiet .now rfl]
        have ht : Timely Clock t.now.unixTimestampMs := ⟨t.now, hD.clock t w he, rfl⟩
        show D.safe (appendAt rotation fuel expected events t.now.unixTimestampMs
          (OffsetDateTime.fromUnixTimestampNanos (t.now.unixTimestampMs * 1000000))) Q .free γ w
        generalize t.now.unixTimestampMs = nowMs at ht
        cases hbase : OffsetDateTime.fromUnixTimestampNanos (nowMs * 1000000) with
        | none => exact hsoft _ w fun ex ac => by simp
        | some baseTime =>
          show D.safe ((rotateUntilCurrentWindow rotation _ fuel).bind _) Q .free γ w
          rw [safe_bind]
          refine safe_mono (hD.safe_rotateUntilCurrentWindow fuel w fun w => hrot _ w ht)
            fun r m γ w hr => ?_
          obtain ⟨rfl, rfl, hr⟩ := hr
          cases r with
          | error e => exact hsoft e w (hr e rfl)
          | ok _ => exact happend _ baseTime w hne hval ht hbase

/-- The part of `append` under the write lock: a connection, and the transaction. -/
theorem safe_appendLocked {expected : ExpectedVersion} {events : List NewEvent}
    {baseTime : OffsetDateTime} {g : Γ} {w : World Unit}
    {Q : Except Abort AppendResult → Mode → Γ → World Unit → Prop} (halways : D.always w)
    (hfail : ∀ e, PlainError e → Q (.error e) .writing g w)
    (happend : ∀ p a e r w', w.handles () = some (p, a) →
      AppendStep a.name expected events baseTime e w r w' →
      D.allow (.appendTransaction a.name expected events baseTime) e w →
      D.guarantee g (.appendTransaction a.name expected events baseTime) w w' ∧ D.always w' ∧
        Q (match r with
          | .ok result => .ok result
          | .error err => .error (.es err)) .writing
          (D.ghost (.appendTransaction a.name expected events baseTime) r g) w') :
    D.safe (appendLocked expected events baseTime).lift Q .writing g w := by
  have hlook : ∀ o : StoreOp, o.isPassive = true → D.guarantee g o w w :=
    fun o ho => hD.refl g o w ho halways
  intro e _
  refine ⟨hlook _ rfl, halways, ?_⟩
  rw [hD.quiet _ rfl]
  cases ha : w.handles () with
  -- without a handle the code panics
  | none =>
    simp only [World.step, ha, Option.map_none]
    exact hfail _ (Plain.panic (α := Unit) _ rfl)
  | some pa =>
    obtain ⟨p, a⟩ := pa
    simp only [World.step, ha, Option.map_some]
    show D.safe (.call (.op (.getConnection (.eventFile a.name))) _) Q .writing g w
    intro e he
    have hanswer := hD.answers _ e w he
    rw [hD.quiet _ rfl]
    simp only [step_passive (o := StoreOp.getConnection (.eventFile a.name)) rfl]
    refine ⟨hlook _ rfl, halways, ?_⟩
    generalize (World.step () (.getConnection (.eventFile a.name)) e w).1 = r at hanswer
    cases r with
    | error err => exact hfail _ fun ex ac => by simpa using hanswer ex ac
    | ok u =>
      intro e he
      -- the transaction is the one step that is not passive
      obtain ⟨hG, hA, hQ⟩ := happend p a e _ _ ha (step_appendTransaction _ _ _ _ (h := ())) he
      refine ⟨hG, hA, ?_⟩
      generalize (World.step () (.appendTransaction a.name expected events baseTime) e w).1 = r at hQ
      cases r with
      | ok result => exact hQ
      | error err => exact hQ

omit [SerdeJson] hD in
/-- Any program ends somehow. -/
theorem yields_true {α : Type} (p : StoreProgram α) : p.Yields (Answers Clock) fun _ => True := by
  induction p with
  | done r => trivial
  | call o k ih => exact fun x _ => ih x

/-- `load_after_version` only looks. -/
theorem safe_load {cursor : EventStreamVersion} {limit : Nat} {g : Γ} (w : World Unit) :
    D.safe (loadAfterVersion cursor limit).lift (fun _ m γ _ => m = .free ∧ γ = g) .free g w :=
  hD.safe_looking (by decide) (all_loadAfterVersion (fun _ => rfl) (fun _ _ h => h) cursor limit)
    (yields_true _)
    fun _ _ _ => ⟨rfl, rfl⟩

/-- `current_version` only looks. -/
theorem safe_currentVersion {g : Γ} (w : World Unit) :
    D.safe currentVersion (fun _ m γ _ => m = .free ∧ γ = g) .free g w :=
  safe_withRead (hD.safe_looking (by decide) all_currentVersionLocked (yields_true _)
    fun _ _ _ => ⟨rfl, rfl, rfl⟩)

end Reads

end Rules

end Events
