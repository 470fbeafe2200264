import Mathlib.Data.List.Infix
import Events.Effects
import Events.Lib.Simulation

/-!
# The migration runner over any SQL

`MigrationRunner::run` takes any list of migrations, so the runner is modelled here once more with
the SQL as a parameter: `Engine.exec` says what a statement of a migration does to the schema.
Every statement takes effect on its own, and so does the record that follows the last one.

* **`Left`** — the databases that earlier runs on prefixes of the list can leave: each run may be
  complete, end with an error, or stop between any two of its statements.
* **`Recorded`** — the invariant behind them: the recorded migrations are the first ones of the
  list, and the schema is what the statements that took effect make of the empty one.
* **`migrations_exactlyOnce_iff`** — running the list again applies every migration exactly once if
  and only if no statement of a migration without a record has taken effect.
* **`carries_run`** — the runner of `Events.Migration`, which opens the files of the store, carries out
  this one; so its runs leave files that `Left` is about (`Left.runMigrations`), and a run without
  failures on such a file ends as `rerun` does (`runMigrations_rerun`).
-/

namespace Events.MigrationRunner

open Proc Program

/-- The SQL of migrations: what a statement does, and the hash of a text. -/
structure Engine (S D C : Type) where
  exec : S → D → Except DbError D
  checksum : List S → C
  hex : C → String

/-- `Migration`. -/
structure Migration (S : Type) where
  name : String
  sql : List S

/-! ## The runner -/

/-- The statements of the runner. -/
inductive Op (S C : Type) where
  | ensureMigrationsTable
  | loadAppliedMigrations
  | statement (q : S)
  | recordMigration (name : String) (checksum : C)

@[reducible] def Op.Resp {S C : Type} : Op S C → Type
  | .ensureMigrationsTable => Except EsError Unit
  | .loadAppliedMigrations => Except EsError (List (String × C))
  | .statement _ => Except EsError Unit
  | .recordMigration _ _ => Except EsError Unit

variable {S D C : Type}

abbrev I (S C : Type) : Interface := ⟨Op S C, Op.Resp⟩

/-- `conn.execute_batch`. -/
def executeBatch : List S → Program (I S C) EsError Unit
  | [] => pure ()
  | q :: batch => do
    .call (Op.statement q : Op S C) .done
    executeBatch batch

/-- `MigrationRunner::apply_migration`. -/
def applyMigration (m : Migration S) (checksum : C) : Program (I S C) EsError Unit := do
  executeBatch m.sql
  .call (Op.recordMigration m.name checksum : Op S C) .done

/-- `MigrationRunner::verify_migration_checksum`. -/
def verifyMigrationChecksum [DecidableEq C] (X : Engine S D C) (m : Migration S)
    (appliedChecksum expectedChecksum : C) : Program (I S C) EsError Unit :=
  if appliedChecksum ≠ expectedChecksum then
    throw (.migration s!"Migration {m.name} has changed checksum. Expected: {X.hex expectedChecksum}, Applied: {X.hex appliedChecksum}")
  else pure ()

/-- `MigrationRunner::run_pending_migrations`. -/
def runPendingMigrations [DecidableEq C] (X : Engine S D C) (applied : List (String × C)) :
    List (Migration S) → Program (I S C) EsError Unit
  | [] => pure ()
  | m :: ms => do
    let checksum := X.checksum m.sql
    match applied.lookup m.name with
    | some appliedChecksum => verifyMigrationChecksum X m appliedChecksum checksum
    | none => applyMigration m checksum
    runPendingMigrations X applied ms

/-- `MigrationRunner::run`. -/
def run [DecidableEq C] (X : Engine S D C) (migrations : List (Migration S)) :
    Program (I S C) EsError Unit := do
  .call (Op.ensureMigrationsTable : Op S C) .done
  let applied ← .call (Op.loadAppliedMigrations : Op S C) .done
  runPendingMigrations X applied migrations

/-! ## The database -/

/-- A database: the schema, the rows of `_migrations` in the order of their ids (`none` before the
table is there), and the history of the statements of migrations that took effect. -/
structure Database (S D C : Type) where
  schema : D
  migrations : Option (List (String × C))
  history : List S

namespace Database

def empty (schema : D) : Database S D C := ⟨schema, none, []⟩

/-- The recorded migrations. -/
def rows (s : Database S D C) : List (String × C) := s.migrations.getD []

/-- What a statement of the runner answers and does; the choice is a failure of the storage. -/
def step (X : Engine S D C) (o : Op S C) (fault : Option String) (s : Database S D C) :
    o.Resp × Database S D C :=
  match o, fault with
  | .ensureMigrationsTable, none => (.ok (), { s with migrations := some s.rows })
  | .ensureMigrationsTable, some message => (.error (.db (.storage message)), s)
  | .loadAppliedMigrations, none =>
    match s.migrations with
    | some rows => (.ok rows, s)
    | none => (.error (.db (.noSuchTable "_migrations")), s)
  | .loadAppliedMigrations, some message => (.error (.db (.storage message)), s)
  | .statement q, none =>
    match X.exec q s.schema with
    | .ok schema => (.ok (), { s with schema := schema, history := s.history ++ [q] })
    | .error e => (.error (.db e), s)
  | .statement _, some message => (.error (.db (.storage message)), s)
  | .recordMigration name checksum, none =>
    match s.migrations with
    | some rows =>
      if rows.any fun row => row.1 = name then
        (.error (.db (.uniqueConstraint "_migrations.name")), s)
      else (.ok (), { s with migrations := some (rows ++ [(name, checksum)]) })
    | none => (.error (.db (.noSuchTable "_migrations")), s)
  | .recordMigration _ _, some message => (.error (.db (.storage message)), s)

end Database

abbrev machine (X : Engine S D C) : Machine (I S C) := ⟨Database S D C, Option String, Database.step X⟩

/-- Any statement may fail. -/
def anyFault (X : Engine S D C) : Contract (machine X) := ⟨fun _ _ _ => True, fun _ _ _ => True⟩

/-- The databases that runs on prefixes of `ms` leave, each of them complete, ended by an error, or
stopped between two statements. -/
inductive Left [DecidableEq C] (X : Engine S D C) (empty : D) (ms : List (Migration S)) :
    Database S D C → Prop where
  | empty : Left X empty ms (.empty empty)
  | run {s s' : Database S D C} {earlier : List (Migration S)} (hinit : earlier <+: ms)
      (h : Left X empty ms s) (hvisits : Visits (anyFault X) (run X earlier) s s') :
      Left X empty ms s'

/-- A run without a failure of the storage. -/
def rerun [DecidableEq C] (X : Engine S D C) (ms : List (Migration S)) (s : Database S D C) :
    Except EsError Unit × Database S D C :=
  (run X ms).eval (machine X) (fun _ => none) 0 s

/-- The row of a migration. -/
def row (X : Engine S D C) (m : Migration S) : String × C := (m.name, X.checksum m.sql)

/-- The statements of a list of migrations, in its order. -/
def allSql (ms : List (Migration S)) : List S := ms.flatMap Migration.sql

/-- What the statements make of a schema. -/
def applyAll (X : Engine S D C) (batch : List S) (schema : D) : Except DbError D :=
  batch.foldlM (fun schema q => X.exec q schema) schema

/-- The migrations of the list that have their record. -/
def recordedOf (ms : List (Migration S)) (s : Database S D C) : List (Migration S) :=
  ms.filter fun m => m.name ∈ s.rows.map Prod.fst

/-- What running the list once more does: it succeeds, then every migration's SQL has taken effect
once and in order, with its checksum recorded, and one more run changes nothing. -/
structure ExactlyOnce [DecidableEq C] (X : Engine S D C) (ms : List (Migration S)) (s : Database S D C) :
    Prop where
  succeeds : (rerun X ms s).1 = .ok ()
  history : (rerun X ms s).2.history = allSql ms
  recorded : (rerun X ms s).2.migrations = some (ms.map (row X))
  again : rerun X ms (rerun X ms s).2 = (.ok (), (rerun X ms s).2)

section Step

variable {X : Engine S D C} {q : S} {s : Database S D C}

theorem step_statement_ok {d : D} (h : X.exec q s.schema = .ok d) :
    Database.step X (.statement q) none s =
      (.ok (), { s with schema := d, history := s.history ++ [q] }) := by
  simp only [Database.step, h]

theorem step_statement_error {e : DbError} (h : X.exec q s.schema = .error e) :
    Database.step X (.statement q) none s = (.error (.db e), s) := by
  simp only [Database.step, h]

end Step

/-! ## What every run keeps -/

/-- The recorded migrations are the first ones of the list, and the schema is what the statements
that took effect make of the empty one. -/
structure Recorded (X : Engine S D C) (empty : D) (ms : List (Migration S)) (s : Database S D C) :
    Prop where
  rows : ∃ j, s.rows = (ms.take j).map (row X)
  schema : applyAll X s.history empty = .ok s.schema

/-- Every statement keeps the invariant. -/
def keeping (X : Engine S D C) (empty : D) (ms : List (Migration S)) : Contract (machine X) :=
  ⟨fun _ _ _ => True, fun _ _ s' => Recorded X empty ms s'⟩

theorem applyAll_cons (X : Engine S D C) (q : S) (batch : List S) (d : D) :
    applyAll X (q :: batch) d = (X.exec q d).bind (applyAll X batch) := by
  unfold applyAll
  rw [List.foldlM_cons]
  rfl

theorem applyAll_append (X : Engine S D C) (as bs : List S) (d : D) :
    applyAll X (as ++ bs) d = (applyAll X as d).bind (applyAll X bs) := by
  unfold applyAll
  rw [List.foldlM_append]
  rfl

section Invariant

variable {X : Engine S D C} {empty : D} {ms : List (Migration S)} {s : Database S D C}

/-- A statement that takes effect is the next of the history. -/
theorem Recorded.statement (h : Recorded X empty ms s) {q : S} {d : D}
    (hexec : X.exec q s.schema = .ok d) :
    Recorded X empty ms { s with schema := d, history := s.history ++ [q] } := by
  refine ⟨h.rows, ?_⟩
  rw [applyAll_append, h.schema]
  show applyAll X [q] s.schema = .ok d
  rw [applyAll_cons, hexec]
  rfl

theorem wp_statement {Q : Except EsError Unit → Database S D C → Prop} (q : S)
    (h : Recorded X empty ms s)
    (hok : ∀ d, X.exec q s.schema = .ok d →
      Q (.ok ()) { s with schema := d, history := s.history ++ [q] })
    (herr : ∀ e, Q (.error e) s) :
    wp (keeping X empty ms) (.call (Op.statement q : Op S C) .done) Q s := by
  intro fault _
  show Recorded X empty ms (Database.step X (.statement q) fault s).2 ∧
    Q (Database.step X (.statement q) fault s).1 (Database.step X (.statement q) fault s).2
  cases fault with
  | some message => exact ⟨h, herr _⟩
  | none =>
    cases hexec : X.exec q s.schema with
    | error e =>
      rw [step_statement_error hexec]
      exact ⟨h, herr _⟩
    | ok d =>
      rw [step_statement_ok hexec]
      exact ⟨h.statement hexec, hok d hexec⟩

/-- A batch keeps the records. -/
theorem wp_executeBatch (batch : List S) (h : Recorded X empty ms s) :
    wp (keeping X empty ms) (executeBatch batch)
      (fun _ s' => Recorded X empty ms s' ∧ s'.migrations = s.migrations) s := by
  induction batch generalizing s with
  | nil => exact ⟨h, rfl⟩
  | cons q batch ih =>
    have hq := wp_statement (Q := fun r t => Recorded X empty ms t ∧ t.migrations = s.migrations)
      q h (fun d hexec => ⟨h.statement hexec, rfl⟩) (fun e => ⟨h, rfl⟩)
    refine wp_bind_of hq ?_ ?_
    · rintro ⟨⟩ t ⟨ht, hmig⟩
      refine wp_mono (ih ht) ?_
      rintro _ u ⟨hu, hmig'⟩
      exact ⟨hu, hmig'.trans hmig⟩
    · exact fun e t ht => ht

theorem name_ne (hnames : (ms.map Migration.name).Nodup) {i k : Nat} (hk : k < ms.length)
    (hik : i < k) : ms[i].name ≠ ms[k].name := by
  have hpair := List.pairwise_iff_getElem.mp hnames i k (by simp; omega) (by simpa using hk) hik
  simpa using hpair

/-- The record of the next migration does not violate the uniqueness of names. -/
theorem step_recordMigration (hnames : (ms.map Migration.name).Nodup) {k : Nat} (hk : k < ms.length)
    (hrows : s.migrations = some ((ms.take k).map (row X))) :
    Database.step X (.recordMigration ms[k].name (X.checksum ms[k].sql)) none s =
      (.ok (), { s with migrations := some ((ms.take (k + 1)).map (row X)) }) := by
  have hnew : (((ms.take k).map (row X)).any fun r => r.1 = ms[k].name) = false := by
    rw [List.any_eq_false]
    intro r hr
    obtain ⟨m, hm, rfl⟩ := List.mem_map.mp hr
    obtain ⟨i, hi, rfl⟩ := List.mem_take_iff_getElem.mp hm
    have hik : i < k := by omega
    have hne : ms[i].name ≠ ms[k].name := name_ne hnames hk hik
    rw [decide_eq_true_iff]
    exact hne
  have htake : (ms.take (k + 1)).map (row X) =
      (ms.take k).map (row X) ++ [(ms[k].name, X.checksum ms[k].sql)] := by
    rw [List.take_succ_eq_append_getElem hk, List.map_append]
    rfl
  unfold Database.step
  simp only [hrows, hnew, htake]
  rfl

/-- Where the first `k` migrations have their record, the next one gets its own. -/
theorem wp_applyMigration (hnames : (ms.map Migration.name).Nodup) {k : Nat} (hk : k < ms.length)
    (h : Recorded X empty ms s) (hrows : s.migrations = some ((ms.take k).map (row X))) :
    wp (keeping X empty ms) (applyMigration ms[k] (X.checksum ms[k].sql))
      (fun r s' => Recorded X empty ms s' ∧
        (r = .ok () → s'.migrations = some ((ms.take (k + 1)).map (row X)))) s := by
  refine wp_bind_of (wp_executeBatch _ h) ?_ ?_
  · rintro ⟨⟩ t ⟨ht, hmig⟩ fault -
    cases fault with
    | some message => exact ⟨ht, ht, nofun⟩
    | none =>
      have hstep := step_recordMigration hnames hk (hmig.trans hrows)
      have hnext : Recorded X empty ms
          { t with migrations := some ((ms.take (k + 1)).map (row X)) } := ⟨⟨k + 1, rfl⟩, ht.schema⟩
      show Recorded X empty ms (Database.step X _ none t).2 ∧ wp _ (.done _) _ _
      rw [wp_done]
      show Recorded X empty ms (Database.step X _ none t).2 ∧
        Recorded X empty ms (Database.step X _ none t).2 ∧
        (_ → (Database.step X _ none t).2.migrations = _)
      rw [hstep]
      exact ⟨hnext, hnext, fun _ => rfl⟩
  · rintro e t ⟨ht, -⟩
    exact ⟨ht, nofun⟩

/-! ### The loop -/

theorem lookup_recorded (hnames : (ms.map Migration.name).Nodup) {i j : Nat} (hi : i < ms.length)
    (hij : i < j) : ((ms.take j).map (row X)).lookup ms[i].name = some (X.checksum ms[i].sql) := by
  induction ms generalizing i j with
  | nil => exact absurd hi (Nat.not_lt_zero i)
  | cons m ms ih =>
    obtain ⟨j, rfl⟩ : ∃ j', j = j' + 1 := ⟨j - 1, by omega⟩
    cases i with
    | zero => simp [row]
    | succ i =>
      have hne : (m :: ms)[i + 1].name ≠ m.name := (name_ne hnames hi (Nat.succ_pos i)).symm
      have htail := ih hnames.of_cons (Nat.lt_of_succ_lt_succ hi) (Nat.lt_of_succ_lt_succ hij)
      have hbeq : ((m :: ms)[i + 1].name == m.name) = false := beq_eq_false_iff_ne.mpr hne
      rw [List.take_succ_cons, List.map_cons, row, List.lookup_cons, hbeq]
      exact htail

theorem lookup_pending (hnames : (ms.map Migration.name).Nodup) {i j : Nat} (hi : i < ms.length)
    (hij : j ≤ i) : ((ms.take j).map (row X)).lookup ms[i].name = none := by
  rw [List.lookup_eq_none_iff]
  intro r hr
  obtain ⟨m, hm, rfl⟩ := List.mem_map.mp hr
  obtain ⟨k, hk, rfl⟩ := List.mem_take_iff_getElem.mp hm
  have hne := name_ne hnames hi (show k < i by omega)
  simpa [row] using hne.symm

/-- The body of the loop at the `i`-th migration, where the first `j` were recorded when the run
loaded the records. -/
theorem runPendingMigrations_recorded [DecidableEq C] (hnames : (ms.map Migration.name).Nodup)
    {i j : Nat} (hi : i < ms.length) (hij : i < j) (rest : List (Migration S)) :
    runPendingMigrations X ((ms.take j).map (row X)) (ms[i] :: rest) =
      runPendingMigrations X ((ms.take j).map (row X)) rest := by
  rw [runPendingMigrations, lookup_recorded hnames hi hij]
  simp [verifyMigrationChecksum]

theorem runPendingMigrations_pending [DecidableEq C] (hnames : (ms.map Migration.name).Nodup)
    {i j : Nat} (hi : i < ms.length) (hij : j ≤ i) (rest : List (Migration S)) :
    runPendingMigrations X ((ms.take j).map (row X)) (ms[i] :: rest) =
      (applyMigration ms[i] (X.checksum ms[i].sql)).bind fun _ =>
        runPendingMigrations X ((ms.take j).map (row X)) rest := by
  rw [runPendingMigrations, lookup_pending hnames hi hij]
  rfl

/-- The loop over the migrations from the `i`-th on: those before the `i`-th and those recorded at
the beginning have their record. -/
theorem wp_runPendingMigrations [DecidableEq C] (hnames : (ms.map Migration.name).Nodup)
    {i j n : Nat} (hn : n ≤ ms.length) {s : Database S D C} (h : Recorded X empty ms s)
    (hrows : s.migrations = some ((ms.take (max i j)).map (row X))) :
    wp (keeping X empty ms) (runPendingMigrations X ((ms.take j).map (row X)) ((ms.take n).drop i))
      (fun _ s' => Recorded X empty ms s') s := by
  rcases Nat.lt_or_ge i n with hin | hin
  · have hi : i < ms.length := by omega
    have hlen : i < (ms.take n).length := by rw [List.length_take]; omega
    have hrest : (ms.take n).drop i = ms[i] :: (ms.take n).drop (i + 1) := by
      rw [List.drop_eq_getElem_cons hlen, List.getElem_take]
    rw [hrest]
    rcases Nat.lt_or_ge i j with hij | hij
    · rw [runPendingMigrations_recorded hnames hi hij]
      rw [show max i j = max (i + 1) j by omega] at hrows
      exact wp_runPendingMigrations hnames hn h hrows
    · rw [runPendingMigrations_pending hnames hi hij]
      rw [show max i j = i by omega] at hrows
      refine wp_bind_of (wp_applyMigration hnames hi h hrows) ?_ fun e t ht => ht.1
      rintro ⟨⟩ t ⟨ht, hmig⟩
      have hrows' := hmig rfl
      rw [show i + 1 = max (i + 1) j by omega] at hrows'
      exact wp_runPendingMigrations hnames hn ht hrows'
  · rw [List.drop_eq_nil_of_le (by rw [List.length_take]; omega)]
    exact h
  termination_by n - i

/-- A run on a prefix of the list keeps the invariant at each of its statements. -/
theorem wp_run [DecidableEq C] (hnames : (ms.map Migration.name).Nodup)
    {earlier : List (Migration S)} (hinit : earlier <+: ms) (h : Recorded X empty ms s) :
    wp (keeping X empty ms) (run X earlier) (fun _ s' => Recorded X empty ms s') s := by
  obtain ⟨j, hj⟩ := h.rows
  intro fault _
  cases fault with
  | some message => exact ⟨h, h⟩
  | none =>
    have hcreated : Recorded X empty ms { s with migrations := some s.rows } :=
      ⟨⟨j, hj⟩, h.schema⟩
    refine ⟨hcreated, fun fault _ => ?_⟩
    cases fault with
    | some message => exact ⟨hcreated, hcreated⟩
    | none =>
      refine ⟨hcreated, ?_⟩
      show wp (keeping X empty ms) (runPendingMigrations X s.rows earlier) _
        { s with migrations := some s.rows }
      rw [hj, show earlier = (ms.take earlier.length).drop 0 from
        List.prefix_iff_eq_take.mp hinit]
      exact wp_runPendingMigrations hnames hinit.length_le ⟨⟨j, rfl⟩, h.schema⟩
        (by rw [Nat.zero_max])

/-- **Every database that runs leave satisfies the invariant.** -/
theorem Left.recorded [DecidableEq C] (hnames : (ms.map Migration.name).Nodup)
    (h : Left X empty ms s) : Recorded X empty ms s := by
  induction h with
  | empty => exact ⟨⟨0, rfl⟩, rfl⟩
  | run hinit _ hvisits ih =>
    exact hvisits.invariant (wp_run hnames hinit ih) (fun _ _ _ _ => trivial)
      (fun _ _ _ hG _ => hG) ih

end Invariant

/-! ## The run without failures -/

/-- How a run ends, from how its statements do. -/
def outcome : Except DbError D → Except EsError Unit
  | .ok _ => .ok ()
  | .error e => .error (.db e)

section Rerun

variable {X : Engine S D C} {ms : List (Migration S)} {s : Database S D C}

theorem eval_executeBatch (batch : List S) (s : Database S D C) :
    ((executeBatch batch).eval (machine X) (fun _ => none) 0 s).1 =
        outcome (applyAll X batch s.schema) ∧
      ∀ d, applyAll X batch s.schema = .ok d →
        ((executeBatch batch).eval (machine X) (fun _ => none) 0 s).2 =
          { s with schema := d, history := s.history ++ batch } := by
  -- induction on the statements: the first that fails ends the batch
  induction batch generalizing s with
  | nil =>
    refine ⟨rfl, fun d hd => ?_⟩
    cases hd
    rw [List.append_nil]
    rfl
  | cons q batch ih =>
    rw [executeBatch, bind_eq, eval_bind_const, applyAll_cons]
    cases hexec : X.exec q s.schema with
    | error e =>
      have hcall : (Program.call (Op.statement q : Op S C) Program.done).eval (machine X)
          (fun _ => none) 0 s = (.error (.db e), s) := step_statement_error hexec
      rw [hcall]
      exact ⟨rfl, nofun⟩
    | ok d =>
      have hcall : (Program.call (Op.statement q : Op S C) Program.done).eval (machine X)
          (fun _ => none) 0 s =
            (.ok (), { s with schema := d, history := s.history ++ [q] }) := step_statement_ok hexec
      rw [hcall]
      have htail := ih { s with schema := d, history := s.history ++ [q] }
      simp only [List.append_assoc, List.singleton_append] at htail
      exact htail

theorem eval_applyMigration [DecidableEq C] (hnames : (ms.map Migration.name).Nodup) {k : Nat}
    (hk : k < ms.length) (hrows : s.migrations = some ((ms.take k).map (row X))) :
    ((applyMigration ms[k] (X.checksum ms[k].sql)).eval (machine X) (fun _ => none) 0 s).1 =
        outcome (applyAll X ms[k].sql s.schema) ∧
      ∀ d, applyAll X ms[k].sql s.schema = .ok d →
        ((applyMigration ms[k] (X.checksum ms[k].sql)).eval (machine X) (fun _ => none) 0 s).2 =
          ⟨d, some ((ms.take (k + 1)).map (row X)), s.history ++ ms[k].sql⟩ := by
  obtain ⟨hfst, hsnd⟩ := eval_executeBatch (X := X) ms[k].sql s
  rw [applyMigration, bind_eq, eval_bind_const]
  cases hall : applyAll X ms[k].sql s.schema with
  | error e =>
    rw [hall] at hfst
    rw [show (executeBatch ms[k].sql).eval (machine X) (fun _ => none) 0 s =
      (.error (.db e), _) from Prod.ext hfst rfl]
    exact ⟨rfl, nofun⟩
  | ok d =>
    rw [hall] at hfst
    rw [show (executeBatch ms[k].sql).eval (machine X) (fun _ => none) 0 s =
      (.ok (), { s with schema := d, history := s.history ++ ms[k].sql }) from
      Prod.ext hfst (hsnd d hall)]
    have hrecord := step_recordMigration (X := X)
      (s := { s with schema := d, history := s.history ++ ms[k].sql }) hnames hk hrows
    refine ⟨congrArg Prod.fst hrecord, ?_⟩
    rintro d' ⟨⟩
    exact congrArg Prod.snd hrecord

/-- The loop from the `i`-th migration on, where the first `j` were recorded at the beginning. -/
theorem eval_runPendingMigrations [DecidableEq C] (hnames : (ms.map Migration.name).Nodup)
    {i j : Nat} {s : Database S D C} (hi : i ≤ ms.length) (hj : j ≤ ms.length)
    (hrows : s.migrations = some ((ms.take (max i j)).map (row X))) :
    ((runPendingMigrations X ((ms.take j).map (row X)) (ms.drop i)).eval (machine X)
          (fun _ => none) 0 s).1 = outcome (applyAll X (allSql (ms.drop (max i j))) s.schema) ∧
      ∀ d, applyAll X (allSql (ms.drop (max i j))) s.schema = .ok d →
        ((runPendingMigrations X ((ms.take j).map (row X)) (ms.drop i)).eval (machine X)
          (fun _ => none) 0 s).2 =
            ⟨d, some (ms.map (row X)), s.history ++ allSql (ms.drop (max i j))⟩ := by
  rcases Nat.lt_or_ge i ms.length with hlt | hge
  · rw [List.drop_eq_getElem_cons hlt]
    rcases Nat.lt_or_ge i j with hij | hij
    · -- recorded when the run began: only its checksum is compared
      rw [runPendingMigrations_recorded hnames hlt hij]
      rw [show max i j = max (i + 1) j by omega] at hrows ⊢
      exact eval_runPendingMigrations hnames hlt hj hrows
    · -- without a record: its statements, and the record
      rw [runPendingMigrations_pending hnames hlt hij, eval_bind_const]
      rw [show max i j = i by omega] at hrows ⊢
      obtain ⟨hfst, hsnd⟩ := eval_applyMigration (X := X) hnames hlt hrows
      rw [List.drop_eq_getElem_cons hlt, allSql, List.flatMap_cons, applyAll_append]
      cases hall : applyAll X ms[i].sql s.schema with
      | error e =>
        rw [hall] at hfst
        rw [show (applyMigration ms[i] _).eval (machine X) (fun _ => none) 0 s =
          (.error (.db e), _) from Prod.ext hfst rfl]
        exact ⟨rfl, nofun⟩
      | ok d =>
        rw [hall] at hfst
        rw [show (applyMigration ms[i] _).eval (machine X) (fun _ => none) 0 s =
          (.ok (), ⟨d, some ((ms.take (i + 1)).map (row X)), s.history ++ ms[i].sql⟩) from
          Prod.ext hfst (hsnd d hall)]
        have htail := eval_runPendingMigrations (i := i + 1) (j := j)
          (s := ⟨d, some ((ms.take (i + 1)).map (row X)), s.history ++ ms[i].sql⟩) hnames hlt hj
          (by rw [show max (i + 1) j = i + 1 by omega])
        rw [show max (i + 1) j = i + 1 by omega, List.append_assoc] at htail
        exact htail
  · -- the list is through
    have hmax : max i j = ms.length := by omega
    rw [hmax, List.take_length] at hrows
    rw [hmax, List.drop_length, List.drop_eq_nil_of_le hge]
    refine ⟨rfl, ?_⟩
    rintro d ⟨⟩
    show s = ⟨s.schema, some (ms.map (row X)), s.history ++ []⟩
    rw [List.append_nil, ← hrows]
  termination_by ms.length - i

/-- **A run without failures** executes the statements of the migrations without a record. -/
theorem rerun_spec [DecidableEq C] (hnames : (ms.map Migration.name).Nodup) {j : Nat}
    (hj : j ≤ ms.length) (hrows : s.rows = (ms.take j).map (row X)) :
    (rerun X ms s).1 = outcome (applyAll X (allSql (ms.drop j)) s.schema) ∧
      ∀ d, applyAll X (allSql (ms.drop j)) s.schema = .ok d →
        (rerun X ms s).2 = ⟨d, some (ms.map (row X)), s.history ++ allSql (ms.drop j)⟩ := by
  have hloop : rerun X ms s =
      (runPendingMigrations X ((ms.take j).map (row X)) (ms.drop 0)).eval (machine X)
        (fun _ => none) 0 { s with migrations := some ((ms.take j).map (row X)) } := by
    rw [← hrows]
    exact eval_const_shift (M := machine X) none 2 0 _ _
  rw [hloop]
  have hspec := eval_runPendingMigrations (X := X) (i := 0) (j := j)
    (s := { s with migrations := some ((ms.take j).map (row X)) }) hnames (Nat.zero_le _) hj
    (by rw [Nat.zero_max])
  rw [Nat.zero_max] at hspec
  exact hspec

end Rerun

section Main

variable {X : Engine S D C} {empty : D} {ms : List (Migration S)} {s : Database S D C}

theorem allSql_append (as bs : List (Migration S)) : allSql (as ++ bs) = allSql as ++ allSql bs :=
  List.flatMap_append

/-- Where the first `j` migrations are recorded, these are the recorded ones. -/
theorem recordedOf_eq (hnames : (ms.map Migration.name).Nodup) {j : Nat}
    (hrows : s.rows = (ms.take j).map (row X)) : recordedOf ms s = ms.take j := by
  have hnames' := hnames
  rw [← List.take_append_drop j ms, List.map_append, List.nodup_append] at hnames'
  have hmem : s.rows.map Prod.fst = (ms.take j).map Migration.name := by
    rw [hrows, List.map_map]
    rfl
  have htaken : ∀ m ∈ ms.take j, decide (m.name ∈ s.rows.map Prod.fst) = true := by
    intro m hm
    rw [hmem, decide_eq_true_iff]
    exact List.mem_map_of_mem hm
  have hdropped : ∀ m ∈ ms.drop j, ¬ decide (m.name ∈ s.rows.map Prod.fst) = true := by
    intro m hm
    rw [hmem, decide_eq_true_iff]
    exact fun hin => hnames'.2.2 _ hin _ (List.mem_map_of_mem hm) rfl
  calc recordedOf ms s = recordedOf (ms.take j ++ ms.drop j) s := by rw [List.take_append_drop]
    _ = recordedOf (ms.take j) s ++ recordedOf (ms.drop j) s := List.filter_append _ _
    _ = ms.take j ++ [] := by
      rw [recordedOf, recordedOf, List.filter_eq_self.mpr htaken,
        List.filter_eq_nil_iff.mpr hdropped]
    _ = ms.take j := List.append_nil _

theorem Recorded.count (h : Recorded X empty ms s) :
    ∃ j ≤ ms.length, s.rows = (ms.take j).map (row X) := by
  obtain ⟨j, hj⟩ := h.rows
  refine ⟨min j ms.length, Nat.min_le_right _ _, ?_⟩
  rw [hj, List.take_eq_take_min]

/-- **Running the list again on a database that earlier runs left applies every migration exactly
once if and only if** the list's SQL can be executed on an empty database, and the statements that
took effect so far are those of the recorded migrations. -/
theorem migrations_exactlyOnce_iff [DecidableEq C] (hnames : (ms.map Migration.name).Nodup)
    (h : Left X empty ms s) :
    ExactlyOnce X ms s ↔
      (∃ d, applyAll X (allSql ms) empty = .ok d) ∧ s.history = allSql (recordedOf ms s) := by
  have hrec := h.recorded hnames
  obtain ⟨j, hj, hrows⟩ := hrec.count
  obtain ⟨hfst, hsnd⟩ := rerun_spec hnames hj hrows
  have hsplit : allSql ms = allSql (ms.take j) ++ allSql (ms.drop j) := by
    rw [← allSql_append, List.take_append_drop]
  rw [recordedOf_eq hnames hrows]
  constructor
  · intro hp
    obtain ⟨d, hd⟩ : ∃ d, applyAll X (allSql (ms.drop j)) s.schema = .ok d := by
      cases hall : applyAll X (allSql (ms.drop j)) s.schema with
      | ok d => exact ⟨d, rfl⟩
      | error e => exact absurd (hp.succeeds.symm.trans (hfst.trans (congrArg outcome hall))) nofun
    have hhistory : s.history = allSql (ms.take j) := by
      have hafter := hp.history
      rw [hsnd d hd, hsplit] at hafter
      exact List.append_cancel_right hafter
    refine ⟨⟨d, ?_⟩, hhistory⟩
    rw [hsplit, ← hhistory, applyAll_append, hrec.schema]
    exact hd
  · rintro ⟨⟨d, hd⟩, hhistory⟩
    rw [hsplit, ← hhistory, applyAll_append, hrec.schema] at hd
    replace hd : applyAll X (allSql (ms.drop j)) s.schema = .ok d := hd
    have hend := hsnd d hd
    rw [hhistory, ← hsplit] at hend
    obtain ⟨hfst', hsnd'⟩ := rerun_spec (X := X)
      (s := ⟨d, some (ms.map (row X)), allSql ms⟩) hnames le_rfl (by rw [List.take_length]; rfl)
    rw [List.drop_length] at hfst' hsnd'
    refine ⟨by rw [hfst, hd]; rfl, by rw [hend], by rw [hend], ?_⟩
    rw [hend]
    refine Prod.ext hfst' ((hsnd' d rfl).trans ?_)
    rw [show allSql ([] : List (Migration S)) = [] from rfl, List.append_nil]

end Main

/-! ## The runner on a database file of the store -/

/-- The statements of the crate's own migrations. -/
def crate : Engine SchemaStmt Db (List SchemaStmt) where
  exec q d := (Stmt.exec (.schema q) d).map Prod.snd
  checksum := id
  hex _ := ""

def ofMigration (m : Events.Migration) : Migration SchemaStmt := ⟨m.name, m.sql⟩

/-- A row of `_migrations`, as the store has it. -/
def storedRow (r : String × List SchemaStmt) : MigrationRow := ⟨r.1, r.2⟩

/-- The statement of the store. -/
def stmtOf : Op SchemaStmt (List SchemaStmt) → Stmt
  | .ensureMigrationsTable => .ensureMigrationsTable
  | .loadAppliedMigrations => .loadAppliedMigrations
  | .statement q => .schema q
  | .recordMigration name checksum => .recordMigration name checksum

/-- The statements on the file `ref`, and their answers. -/
def onFile (ref : DbRef) : Translation StoreI (I SchemaStmt (List SchemaStmt)) where
  op o := .sql ref (stmtOf o)
  answer
    | .ensureMigrationsTable => id
    | .loadAppliedMigrations => Except.map fun rows => rows.map fun r => (r.name, r.checksum)
    | .statement _ => id
    | .recordMigration _ _ => id

/-- The database as a file of the store: the tables of its schema, and its records. -/
def fileOf (s : Database SchemaStmt Db (List SchemaStmt)) : Db :=
  { s.schema with migrations := s.migrations.map fun rows => rows.map storedRow }

/-- The file `ref` is the database. -/
def FileAt {H : Type} (ref : DbRef) (w : World H) (s : Database SchemaStmt Db (List SchemaStmt)) : Prop :=
  w.db ref = some (fileOf s)

section Store

variable {H : Type} [DecidableEq H] {ref : DbRef} {w : World H}
  {s : Database SchemaStmt Db (List SchemaStmt)}

/-- A statement of a migration neither reads nor writes the records. -/
theorem exec_schema_records (q : SchemaStmt) (d : Db) (records : Option (List MigrationRow)) :
    Stmt.exec (.schema q) { d with migrations := records } =
      (Stmt.exec (.schema q) d).map fun r => ((), { r.2 with migrations := records }) := by
  have htable : ∀ t, Db.hasTable { d with migrations := records } t = d.hasTable t := by
    intro t
    cases t <;> rfl
  have hcreate : ∀ t, Db.create { d with migrations := records } t =
      { d.create t with migrations := records } := by
    intro t
    cases t <;> rfl
  cases q with
  | createTable t =>
    simp only [Stmt.exec, htable, hcreate]
    by_cases h : d.hasTable t = true
    · rw [if_pos h, if_pos h]
      rfl
    · rw [if_neg h, if_neg h]
      rfl
  | createIndexIfNotExists name t =>
    simp only [Stmt.exec, htable]
    by_cases h : d.hasTable t = true
    · rw [if_pos h, if_pos h]
      rfl
    · rw [if_neg h, if_neg h]
      rfl

/-- The record of a migration goes behind the others. -/
theorem exec_recordMigration_file (name : String) (checksum : List SchemaStmt) (schema : Db)
    (rows : List (String × List SchemaStmt)) (history : List SchemaStmt) :
    Stmt.exec (.recordMigration name checksum) (fileOf ⟨schema, some rows, history⟩) =
      if rows.any fun r => r.1 = name then .error (.uniqueConstraint "_migrations.name")
      else .ok ((), fileOf ⟨schema, some (rows ++ [(name, checksum)]), history⟩) := by
  have hany : ((rows.map storedRow).any fun r => r.name = name) = rows.any fun r => r.1 = name :=
    List.any_map
  by_cases h : (rows.any fun r => r.1 = name) = true
  · simp only [Stmt.exec, fileOf, Option.map_some, Stmt.need, Bind.bind, Except.bind, hany, if_pos h]
    rfl
  · simp only [Stmt.exec, fileOf, Option.map_some, Stmt.need, Bind.bind, Except.bind, hany, if_neg h,
      List.map_append]
    rfl

omit [DecidableEq H] in
/-- A statement of the runner on the file, and on the database. -/
theorem stepSql_onFile (o : Op SchemaStmt (List SchemaStmt)) (e : StoreEnv) (hw : FileAt ref w s) :
    (onFile ref).answer o (w.stepSql ref (stmtOf o) e).1 = (Database.step crate o e.fault s).1 ∧
      FileAt ref (w.stepSql ref (stmtOf o) e).2 (Database.step crate o e.fault s).2 := by
  obtain ⟨schema, migrations, history⟩ := s
  unfold World.stepSql
  rw [show w.db ref = some (fileOf ⟨schema, migrations, history⟩) from hw]
  cases e.fault with
  -- a failure of the storage does nothing on either side
  | some message => cases o <;> exact ⟨rfl, hw⟩
  | none =>
    cases o with
    | ensureMigrationsTable =>
      cases migrations <;> exact ⟨rfl, World.db_setDb ref⟩
    | loadAppliedMigrations =>
      cases migrations with
      | none => exact ⟨rfl, hw⟩
      | some rows =>
        refine ⟨congrArg Except.ok ?_, hw⟩
        show (rows.map storedRow).map (fun r => (r.name, r.checksum)) = rows
        rw [List.map_map]
        exact List.map_id rows
    | statement q =>
      have hrecords := exec_schema_records q schema (migrations.map fun rows => rows.map storedRow)
      have hfile : Stmt.exec (.schema q) (fileOf ⟨schema, migrations, history⟩) = _ := hrecords
      simp only [stmtOf, hfile, Database.step, crate]
      cases Stmt.exec (.schema q) schema with
      | error err => exact ⟨rfl, hw⟩
      | ok r => exact ⟨rfl, World.db_setDb ref⟩
    | recordMigration name checksum =>
      cases migrations with
      | none => exact ⟨rfl, hw⟩
      | some rows =>
        simp only [stmtOf, exec_recordMigration_file, Database.step]
        by_cases h : (rows.any fun r => r.1 = name) = true
        · rw [if_pos h, if_pos h]
          exact ⟨rfl, hw⟩
        · rw [if_neg h, if_neg h]
          exact ⟨rfl, World.db_setDb ref⟩

/-- **The store's database files are databases of the runner**: its statements answer and do the same. -/
theorem simulates_onFile (h : H) : Simulates (onFile ref) (storeMachine h) (machine crate)
    StoreEnv.fault (FileAt ref) where
  answer o e _ _ hw := (stepSql_onFile o e hw).1
  state o e _ _ hw := (stepSql_onFile o e hw).2

/-! ### The runner -/

theorem carries_statement (q : SchemaStmt) : Carries (onFile ref) Eq (Events.sql ref (.schema q))
    (.call (Op.statement q : Op SchemaStmt (List SchemaStmt)) .done) := by
  refine .call (T := onFile ref) (Op.statement q) fun x => ?_
  cases x with
  | ok a => exact .ok rfl
  | error e => exact .error _ e

theorem carries_recordMigration (name : String) (checksum : List SchemaStmt) :
    Carries (onFile ref) Eq (Events.sql ref (.recordMigration name checksum))
      (.call (Op.recordMigration name checksum : Op SchemaStmt (List SchemaStmt)) .done) := by
  refine .call (T := onFile ref) (Op.recordMigration name checksum) fun x => ?_
  cases x with
  | ok a => exact .ok rfl
  | error e => exact .error _ e

theorem carries_executeBatch (batch : List SchemaStmt) :
    Carries (onFile ref) Eq (Events.executeBatch ref batch) (executeBatch batch) := by
  induction batch with
  | nil => exact .ok rfl
  | cons q batch ih => exact (carries_statement q).bind fun _ _ _ => ih

theorem carries_applyMigration (m : Events.Migration) :
    Carries (onFile ref) Eq (Events.applyMigration ref m) (applyMigration (ofMigration m) m.checksum) :=
  (carries_executeBatch m.sql).bind fun _ _ _ => carries_recordMigration m.name m.checksum

/-- The texts of the two errors differ: the store's model has the SQL itself for its hash. -/
theorem carries_verifyMigrationChecksum (m : Events.Migration) (applied : List SchemaStmt) :
    Carries (onFile ref) Eq (Events.verifyMigrationChecksum m applied)
      (verifyMigrationChecksum crate (ofMigration m) applied m.checksum) := by
  unfold Events.verifyMigrationChecksum verifyMigrationChecksum
  by_cases h : applied ≠ m.checksum
  · rw [if_pos h, if_pos h]
    exact .error _ _
  · rw [if_neg h, if_neg h]
    exact .ok rfl

/-- The record of a migration, found by its name. -/
theorem lookup_records (applied : List MigrationRow) (name : String) :
    (applied.map fun r => (r.name, r.checksum)).lookup name =
      (applied.find? fun row => row.name = name).map MigrationRow.checksum := by
  induction applied with
  | nil => rfl
  | cons r applied ih =>
    rw [List.map_cons, List.lookup_cons, List.find?_cons]
    by_cases h : r.name = name
    · simp [h]
    · have hbeq : (name == r.name) = false := beq_eq_false_iff_ne.2 (Ne.symm h)
      rw [hbeq, decide_eq_false h]
      exact ih

theorem carries_runPendingMigrations (applied : List MigrationRow) (ms : List Events.Migration) :
    Carries (onFile ref) Eq (Events.runPendingMigrations ref applied ms)
      (runPendingMigrations crate (applied.map fun r => (r.name, r.checksum)) (ms.map ofMigration)) := by
  induction ms with
  | nil => exact .ok rfl
  | cons m ms ih =>
    rw [List.map_cons, runPendingMigrations, Events.runPendingMigrations, Events.runMigration]
    rw [show (ofMigration m).name = m.name from rfl, lookup_records]
    cases applied.find? fun row => row.name = m.name with
    | some row => exact (carries_verifyMigrationChecksum m row.checksum).bind fun _ _ _ => ih
    | none => exact (carries_applyMigration m).bind fun _ _ _ => ih

/-- **The store's runner carries out the runner of this module**, statement by statement. -/
theorem carries_run (ms : List Events.Migration) : Carries (onFile ref) Eq (Events.runMigrations ref ms)
    (run crate (ms.map ofMigration)) := by
  refine .call (T := onFile ref) Op.ensureMigrationsTable fun created => ?_
  cases created with
  | error e => exact .error _ e
  | ok a =>
    refine .call (T := onFile ref) Op.loadAppliedMigrations fun loaded => ?_
    cases loaded with
    | error e => exact .error _ e
    | ok applied => exact carries_runPendingMigrations applied ms

/-- Whatever the environment does to an operation of the store. -/
def anyStore (h : H) : Contract (storeMachine h) := ⟨fun _ _ _ => True, fun _ _ _ => True⟩

/-- A database file that runs of the store's runner leave is one of those that `Left` is about, wherever
each of them stopped. -/
theorem Left.runMigrations {h : H} {ms earlier : List Events.Migration} {w' : World H}
    (hleft : Left crate {} (ms.map ofMigration) s) (hw : FileAt ref w s) (hinit : earlier <+: ms)
    (hvisits : Visits (anyStore h) (Events.runMigrations ref earlier) w w') :
    ∃ s', Left crate {} (ms.map ofMigration) s' ∧ FileAt ref w' s' := by
  have hsame : ∃ s', Visits (anyFault crate) (MigrationRunner.run crate (earlier.map ofMigration)) s s' ∧
      FileAt ref w' s' :=
    (carries_run earlier).visits (simulates_onFile h) (fun _ _ _ _ _ _ => trivial) hw hvisits
  obtain ⟨s', hvisits', hw'⟩ := hsame
  exact ⟨s', .run (hinit.map ofMigration) hleft hvisits', hw'⟩

/-- **A run without failures on such a file** ends as `rerun` does, and leaves what `rerun` leaves. -/
theorem runMigrations_rerun (h : H) {ms : List Events.Migration} {e : StoreEnv} (he : e.fault = none)
    (hw : FileAt ref w s) :
    Agree Eq ((Events.runMigrations ref ms).eval (storeMachine h) (fun _ => e) 0 w).1
        (rerun crate (ms.map ofMigration) s).1 ∧
      FileAt ref ((Events.runMigrations ref ms).eval (storeMachine h) (fun _ => e) 0 w).2
        (rerun crate (ms.map ofMigration) s).2 := by
  have heval := (carries_run ms).eval (simulates_onFile h) (fun _ => e) 0 hw
  rw [show (fun _ : Nat => StoreEnv.fault e) = fun _ => none from funext fun _ => he] at heval
  exact heval

end Store

/-- The migrations of the crate run on an empty database. -/
example : (rerun crate (partitionMigrations.map ofMigration) (.empty {})).1 = .ok () := by
  decide +kernel

/-- The migrations of the catalog and of event files as one list. -/
def bothMigrations : List (Migration SchemaStmt) :=
  (catalogMigrations ++ partitionMigrations).map ofMigration

/-- The first migration is recorded, and nothing of the second one has taken effect. -/
def stoppedBetween : Database SchemaStmt Db (List SchemaStmt) :=
  ⟨{ Db.create {} .eventFileRanges with indexes := ["idx_event_file_ranges_range"] },
    some ((bothMigrations.take 1).map (row crate)), allSql (bothMigrations.take 1)⟩

/-- A complete run on the first migration alone, a run on both that ends with an error at the second
one's first statement, and one that is stopped in front of that statement. -/
theorem left_stoppedBetween : Left crate {} bothMigrations stoppedBetween := by
  have hfirst : Left crate {} bothMigrations stoppedBetween :=
    .run (List.take_prefix 1 _) .empty
      (.next none trivial (.next none trivial (.next none trivial (.next none trivial
        (.next none trivial (.here _ _))))))
  have hfailed : Left crate {} bothMigrations stoppedBetween :=
    .run (List.prefix_refl _) hfirst
      (.next none trivial (.next none trivial (.next (some "disk full") trivial (.here _ _))))
  exact .run (List.prefix_refl _) hfailed (.next none trivial (.next none trivial (.here _ _)))

theorem migrations_exactlyOnce_stoppedBetween :
    Left crate {} bothMigrations stoppedBetween ∧ ExactlyOnce crate bothMigrations stoppedBetween :=
  ⟨left_stoppedBetween, (migrations_exactlyOnce_iff (by decide +kernel) left_stoppedBetween).mpr
    ⟨⟨_, rfl⟩, by decide +kernel⟩⟩

/-- An event file whose creation stopped after the first statement of its migration. -/
def stoppedEventFile : Database SchemaStmt Db (List SchemaStmt) :=
  ⟨Db.create {} .events, some [], [.createTable .events]⟩

/-- **The migration of an event file stopped after its first `CREATE TABLE`** cannot be run again. -/
theorem not_exactlyOnce_stoppedEventFile :
    Left crate {} (partitionMigrations.map ofMigration) stoppedEventFile ∧
      ¬ ExactlyOnce crate (partitionMigrations.map ofMigration) stoppedEventFile := by
  constructor
  · refine .run (List.prefix_refl _) .empty ?_
    exact .next none trivial (.next none trivial (.next none trivial (.here _ _)))
  · intro h
    have hsucceeds := h.succeeds
    revert hsucceeds
    decide +kernel

end Events.MigrationRunner
