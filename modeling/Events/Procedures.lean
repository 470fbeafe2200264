import Events.Effects

/-!
# What the procedures do

Specifications of the procedures that `EventStream` is made of, for any contract on the operations
of one handle: what they leave behind when they succeed, and what when they fail. Under a `Calm`
contract nothing fails by itself, so that a failure has a reason in the state.

* **`wp_createPartitionDb`** — preparing an event file, under any failures.
* **`wp_sealEventFileRange`**, **`wp_createEventFileRange`**, **`wp_replaceEventFileRanges`** — the
  catalog's methods.
* **`Rotating`**, **`Rotated`** — what a rotation leaves behind at each of its stages;
  **`wp_rotatePartitionLocked`** — a rotation goes through them.
-/

namespace Events

open Proc Program

/-- The handle `h` writes to `active` from now on. -/
def World.activate {H : Type} [DecidableEq H] (w : World H) (h : H) (active : ActivePartition) :
    World H :=
  { w with handles := Function.update w.handles h ((w.handles h).map fun p => (p.1, active)) }

/-- The range of a file that a rotation makes active, the append head being `head`. -/
def rangeOf (name : Text) (head : Int) : EventFileRange where
  name := name
  path := name
  firstVersion := head + 1
  lastVersion := none
  isSealed := false

/-- The part of a rotation that writes. -/
def rotateTo (old : Text) (head : Int) (new : ActivePartition) : StoreProgram Unit := do
  sealEventFileRange old head
  createPartitionDb new.name head
  createEventFileRange (rangeOf new.name head)
  setActive new

section Rules

variable {H : Type} [DecidableEq H] {h : H} {C : Contract (storeMachine h)} {w w₀ : World H}
  {name : Text} {v : Int} {α : Type}

/-- No step fails by itself. -/
def Calm (C : Contract (storeMachine h)) : Prop :=
  ∀ o e w, C.assume o e w → e.fault = none ∧ ∀ i, e.statementFault i = none

/-- An operation that only looks. -/
theorem wp_look {o : StoreOp} {k : o.Resp → StoreProgram α} {Q : Except Abort α → World H → Prop}
    (ho : o.isPassive = true) (hG : C.guarantee o w w)
    (hk : ∀ e, C.assume o e w → wp C (k (World.step h o e w).1) Q w) : wp C (.call o k) Q w := by
  intro e he
  show C.guarantee o w (World.step h o e w).2 ∧ wp C _ Q (World.step h o e w).2
  rw [step_passive ho]
  exact ⟨hG, hk e he⟩

theorem wp_getConnection {ref : DbRef} {Q : Except Abort Unit → World H → Prop}
    (hG : C.guarantee (.getConnection ref) w w)
    (hok : (w.db ref).isSome → Q (.ok ()) w)
    (herr : ∀ err, ¬Calm C ∨ w.db ref = none → Q (.error (.es err)) w) :
    wp C (getConnection ref) Q w := by
  refine wp_look rfl hG fun e he => ?_
  simp only [World.step]
  split
  · rename_i hdb
    unfold dbFault
    split
    · rename_i message hf
      exact herr _ (.inl fun hC => by simp [(hC _ e w he).1] at hf)
    · exact hok hdb
  · rename_i hdb
    exact herr _ (.inr (by simpa using hdb))

theorem wp_connect {ref : DbRef} {Q : Except Abort Unit → World H → Prop}
    (hG : C.guarantee (.connect ref) w w) (hok : Q (.ok ()) w)
    (herr : ∀ err, ¬Calm C → Q (.error (.es err)) w) : wp C (connect ref) Q w := by
  refine wp_look rfl hG fun e he => ?_
  simp only [World.step, dbFault]
  split
  · rename_i message hf
    exact herr _ fun hC => by simp [(hC _ e w he).1] at hf
  · exact hok

theorem wp_configureDatabase {ref : DbRef} {Q : Except Abort Unit → World H → Prop}
    (hG : C.guarantee (.configureDatabase ref) w w) (hok : Q (.ok ()) w)
    (herr : ∀ err, ¬Calm C → Q (.error (.es err)) w) : wp C (configureDatabase ref) Q w := by
  refine wp_look rfl hG fun e he => ?_
  simp only [World.step, dbFault]
  split
  · rename_i message hf
    exact herr _ fun hC => by simp [(hC _ e w he).1] at hf
  · exact hok

/-- A statement with `?`: it fails, or it does what it does on a database that is there. -/
theorem wp_sql {ref : DbRef} {s : Stmt} {Q : Except Abort s.Ans → World H → Prop}
    (hG : C.guarantee (.sql ref s) w w)
    (hok : ∀ d a d', w.db ref = some d → s.exec d = .ok (a, d') →
      C.guarantee (.sql ref s) w (if s.isQuery then w else w.setDb ref d') ∧
        Q (.ok a) (if s.isQuery then w else w.setDb ref d'))
    (herr : ∀ err, ¬Calm C ∨ w.db ref = none ∨
      (∃ d x, w.db ref = some d ∧ s.exec d = .error x) → Q (.error (.es err)) w) :
    wp C (sql ref s) Q w := by
  intro e he
  show C.guarantee _ w (World.stepSql w ref s e).2 ∧
    wp C (orEs (World.stepSql w ref s e).1) Q (World.stepSql w ref s e).2
  unfold World.stepSql
  split
  · rename_i hf
    exact ⟨hG, herr _ (.inl fun hC => by simp [(hC _ e w he).1] at hf)⟩
  · rename_i hdb
    exact ⟨hG, herr _ (.inr (.inl hdb))⟩
  · rename_i d _ hdb
    split
    · exact hok _ _ _ hdb ‹_›
    · exact ⟨hG, herr _ (.inr (.inr ⟨d, _, hdb, ‹_›⟩))⟩

/-- Reading an append head. -/
theorem wp_readEventFileAppendHead {Q : Except Abort Int → World H → Prop}
    (hG : C.guarantee (.sql (.eventFile name) .readEventFileAppendHead) w w)
    (hok : ∀ head, w.headOf name = some head → Q (.ok head) w)
    (herr : ∀ err, ¬Calm C ∨ w.headOf name = none → Q (.error (.es err)) w) :
    wp C (readEventFileAppendHead name) Q w := by
  unfold readEventFileAppendHead
  rw [bind_eq, wp_bind]
  refine wp_sql hG (fun d row d' hd hex => ⟨hG, ?_⟩) fun err he => herr err (he.imp_right ?_)
  · obtain ⟨hhead, -⟩ := Stmt.exec_readHead.1 hex
    have hlookup : w.files.lookup name = some d := hd
    cases row with
    | none => exact herr _ (.inr (by simp [World.headOf, hlookup, Db.headVersion, hhead]))
    | some row => exact hok _ (by simp [World.headOf, hlookup, Db.headVersion, hhead])
  · rintro (hd | ⟨d, x, hd, hex⟩)
    · have hlookup : w.files.lookup name = none := hd
      simp [World.headOf, hlookup]
    · have hlookup : w.files.lookup name = some d := hd
      cases hhead : d.head with
      | none => simp [World.headOf, hlookup, Db.headVersion, hhead]
      | some row => rw [Stmt.exec_readHead.2 ⟨hhead, rfl⟩] at hex; cases hex

/-- `create_partition_db` changes only the file it prepares, no event in it, and leaves it with the
append head it was given, whatever fails. -/
theorem wp_createPartitionDb_building
    (hG : ∀ o e w, o.prepares name v = true → C.assume o e w → Building name v w₀ w →
      C.guarantee o w (World.step h o e w).2) (hb : Building name v w₀ w) :
    wp C (createPartitionDb name v)
      (fun r w' => Building name v w₀ w' ∧ (r = .ok () → w'.headOf name = some v)) w := by
  have hstep : ∀ o, o.prepares name v = true → ∀ e w, C.assume o e w → Building name v w₀ w →
      C.guarantee o w (World.step h o e w).2 ∧ Building name v w₀ (World.step h o e w).2 :=
    fun o ho e w he hw => ⟨hG o e w ho he hw, step_prepares ho hw⟩
  have hopen : (openPartitionDb name).All fun o : StoreOp => o.prepares name v = true :=
    all_openPartitionDb (by simp [StoreOp.prepares]) rfl
  have hconnect : (connect (.eventFile name)).All fun o : StoreOp => o.prepares name v = true :=
    all_connect rfl
  have hrun : (runMigrations (.eventFile name) partitionMigrations).All
      fun o : StoreOp => o.prepares name v = true := by
    refine all_runMigrations ?_ ?_ ?_ ?_ <;>
      simp [StoreOp.prepares, Stmt.prepares, Stmt.migrates, Stmt.isQuery]
  have hinit : (StoreOp.sql (.eventFile name) (.initializeEventFileAppendHead v none)).prepares
      name v = true := by simp [StoreOp.prepares, Stmt.prepares]
  unfold createPartitionDb
  simp only [bind_eq]
  refine wp_bind_of (wp_of_all hopen hb hstep) (fun _ w hb => ?_) fun _ w hb => ⟨hb, by simp⟩
  refine wp_bind_of (wp_of_all hconnect hb hstep) (fun _ w hb => ?_) fun _ w hb => ⟨hb, by simp⟩
  refine wp_bind_of (wp_of_all hrun hb hstep) (fun _ w hb => ?_) fun _ w hb => ⟨hb, by simp⟩
  intro e he
  have hnext := hstep _ hinit e w he hb
  refine ⟨hnext.1, ?_⟩
  -- the head row is there once the last statement has succeeded
  have hhead : ∀ a, (World.step h (.sql (.eventFile name) (.initializeEventFileAppendHead v none))
      e w).1 = .ok a → (World.step h (.sql (.eventFile name)
        (.initializeEventFileAppendHead v none)) e w).2.headOf name = some v := by
    intro a ha
    simp only [World.step, World.stepSql] at ha ⊢
    split at ha <;> try cases ha
    split at ha <;> try cases ha
    rename_i a d' hex
    obtain ⟨-, rfl⟩ := Stmt.exec_initializeHead.1 hex
    simp [*, Stmt.isQuery, World.headOf, Db.headVersion]
  revert hhead
  cases (World.step h (.sql (.eventFile name) (.initializeEventFileAppendHead v none)) e w).1 with
  | ok a => exact fun hhead => ⟨hnext.2, fun _ => hhead a rfl⟩
  | error err => exact fun _ => ⟨hnext.2, by simp⟩

/-- A statement on an event file that has just been written. -/
theorem wp_sql_file {s : Stmt} {d : Db} {a : s.Ans} {d' : Db} {Q : Except Abort s.Ans → World H → Prop}
    (hG : ∀ o w w', C.guarantee o w w') (hexec : s.exec d = .ok (a, d')) (hquery : s.isQuery = true → d' = d)
    (hok : Q (.ok a) (w.setDb (.eventFile name) d'))
    (herr : ∀ err, ¬Calm C → Q (.error err) (w.setDb (.eventFile name) d)) :
    wp C (sql (.eventFile name) s) Q (w.setDb (.eventFile name) d) := by
  refine wp_sql (hG _ _ _) (fun d₀ a₀ d₁ hd hex => ⟨hG _ _ _, ?_⟩) fun err he => herr _ ?_
  · obtain rfl : d = d₀ := by simpa [World.db] using hd
    obtain ⟨rfl, rfl⟩ : a = a₀ ∧ d' = d₁ := by simpa [hexec] using hex
    split
    · rename_i hq
      rw [hquery hq] at hok
      exact hok
    · have hset : (w.setDb (.eventFile name) d).setDb (.eventFile name) d' =
          w.setDb (.eventFile name) d' := by
        simp [World.setDb, AList.insert_insert]
      rw [hset]
      exact hok
  · rcases he with he | he | ⟨d₀, x, hd, hex⟩
    · exact he
    · simp [World.db] at he
    · obtain rfl : d = d₀ := by simpa [World.db] using hd
      rw [hexec] at hex
      cases hex

/-- The statements of a migration on an event file. -/
theorem wp_executeBatch_file {batch : List SchemaStmt} {d d' : Db}
    {Q : Except Abort Unit → World H → Prop} (hG : ∀ o w w', C.guarantee o w w')
    (hexec : batch.foldlM (fun d s => (Stmt.schema s).exec d |>.map Prod.snd) d = .ok d')
    (hok : Q (.ok ()) (w.setDb (.eventFile name) d'))
    (herr : ∀ err d, ¬Calm C → Q (.error err) (w.setDb (.eventFile name) d)) :
    wp C (executeBatch (.eventFile name) batch) Q (w.setDb (.eventFile name) d) := by
  induction batch generalizing d with
  | nil =>
    obtain rfl : d = d' := by simpa [pure, Except.pure] using hexec
    exact hok
  | cons s batch ih =>
    simp only [List.foldlM_cons, Bind.bind] at hexec
    cases hex : (Stmt.schema s).exec d with
    | error x => simp [hex, Except.map, Except.bind] at hexec
    | ok r =>
      obtain ⟨a, d₁⟩ := r
      simp only [hex, Except.map, Except.bind] at hexec
      show wp C ((sql _ _).bind _) Q _
      rw [wp_bind]
      exact wp_sql_file hG hex (by simp [Stmt.isQuery]) (ih hexec) fun err => herr err d

/-- What a new event file holds. -/
def freshFile (v : Int) : Db where
  migrations := some (partitionMigrations.map fun m => ⟨m.name, m.checksum⟩)
  indexes := ["idx_events_actor_type", "idx_events_actor", "idx_events_workflow_started_version",
    "idx_events_global", "idx_events_version"]
  events := some []
  head := some (some ⟨v, none⟩)

/-- On a name without a file `create_partition_db` makes a new event file. -/
theorem wp_createPartitionDb_fresh (hG : ∀ o w w', C.guarantee o w w')
    (hnone : w.files.lookup name = none) :
    wp C (createPartitionDb name v) (fun r w' =>
      (r = .ok () → w'.files.lookup name = some (freshFile v)) ∧ (Calm C → r = .ok ())) w := by
  have herr : ∀ (err : Abort) (w' : World H), ¬Calm C →
      (((.error err : Except Abort Unit) = .ok () → w'.files.lookup name = some (freshFile v)) ∧
        (Calm C → (.error err : Except Abort Unit) = .ok ())) :=
    fun err w' hC => ⟨by rintro ⟨⟩, fun h => absurd h hC⟩
  unfold createPartitionDb openPartitionDb
  simp only [bind_eq]
  rw [wp_bind, wp_bind]
  intro e he
  refine ⟨hG _ _ _, ?_⟩
  simp only [World.step, World.db, hnone, Option.isSome_none, Bool.false_eq_true, if_false]
  cases hfault : e.fault with
  | some message => exact herr _ _ fun hC => by simp [(hC _ e w he).1] at hfault
  | none =>
    refine wp_configureDatabase (hG _ _ _) ?_ fun err hC => herr _ _ hC
    show wp C ((connect (.eventFile name)).bind _) _ _
    rw [wp_bind]
    refine wp_connect (hG _ _ _) ?_ fun err hC => herr _ _ hC
    -- the migrations, none of which is recorded yet
    show wp C ((runMigrations (.eventFile name) partitionMigrations).bind _) _ _
    unfold runMigrations
    simp only [bind_eq]
    rw [wp_bind, wp_bind]
    refine wp_sql_file hG rfl (by simp [Stmt.isQuery]) ?_ fun err hC => herr _ _ hC
    show wp C ((sql (.eventFile name) .loadAppliedMigrations).bind _) _ _
    rw [wp_bind]
    refine wp_sql_file hG rfl (fun _ => rfl) ?_ fun err hC => herr _ _ hC
    show wp C (((executeBatch _ _).bind fun _ => sql _ _).bind _) _ _
    rw [wp_bind, wp_bind]
    refine wp_executeBatch_file hG rfl ?_ fun err d hC => herr _ _ hC
    refine wp_sql_file hG rfl (by simp [Stmt.isQuery]) ?_ fun err hC => herr _ _ hC
    refine wp_sql_file hG rfl (by simp [Stmt.isQuery]) ?_ fun err hC => herr _ _ hC
    exact ⟨fun _ => World.lookup_setDb, fun _ => rfl⟩

/-- **`create_partition_db`** changes only the file it prepares, no event in it, and leaves it with
the append head it was given, whatever fails. On a name without a file it makes a new one, and fails
only if a step fails. -/
theorem wp_createPartitionDb
    (hG : ∀ o e w, o.prepares name v = true → C.assume o e w → Building name v w₀ w →
      C.guarantee o w (World.step h o e w).2) :
    wp C (createPartitionDb name v)
      (fun r w' => Building name v w₀ w' ∧ (r = .ok () → w'.headOf name = some v) ∧
        (w₀.files.lookup name = none → (r = .ok () → w'.files.lookup name = some (freshFile v)) ∧
          (Calm C → r = .ok ()))) w₀ := by
  have hbuilding := wp_createPartitionDb_building hG (Building.refl name v w₀)
  by_cases hnone : w₀.files.lookup name = none
  · refine wp_mono (wp_and hbuilding (wp_createPartitionDb_fresh
      (C := { assume := C.assume, guarantee := fun _ _ _ => True }) (fun _ _ _ => trivial) hnone)
      fun _ _ _ he => he) fun r w' hr => ?_
    exact ⟨hr.1.1, hr.1.2, fun _ => hr.2⟩
  · exact wp_mono hbuilding fun r w' hr => ⟨hr.1, hr.2, fun h => absurd h hnone⟩

/-! ## The catalog -/

/-- A statement on the ranges of the catalog. -/
theorem wp_updateRanges {s : Stmt} {f : List EventFileRange → List EventFileRange}
    {Q : Except Abort s.Ans → World H → Prop} (hquery : s.isQuery = false)
    (hexec : ∀ d a d', s.exec d = .ok (a, d') → ∃ rs, d.ranges = some rs ∧
      d' = { d with ranges := some (f rs) })
    (hexists : ∀ d x, s.exec d = .error x → d.ranges = none)
    (hG : ∀ o : StoreOp, o.onCatalog = true → C.guarantee o w w)
    (hok : ∀ a w', RangesUpdated f w w' → C.guarantee (.sql .catalog s) w w' ∧ Q (.ok a) w')
    (herr : ∀ err, ¬Calm C ∨ w.catalog.bind Db.ranges = none → Q (.error (.es err)) w) :
    wp C (getConnection .catalog >>= fun _ => sql .catalog s) Q w := by
  rw [bind_eq, wp_bind]
  refine wp_getConnection (hG _ rfl) (fun _ => ?_) fun err he => herr err (he.imp_right ?_)
  · refine wp_sql (hG _ rfl) (fun d a d' hd hex => ?_) fun err he => herr err (he.imp_right ?_)
    · obtain ⟨rs, hrs, rfl⟩ := hexec d a d' hex
      rw [hquery]
      exact hok a _ ⟨⟨rfl, rfl, rfl⟩, d, rs, hd, hrs, rfl⟩
    · rintro (hd | ⟨d, x, hd, hex⟩)
      · have hcat : w.catalog = none := hd
        simp [hcat]
      · have hcat : w.catalog = some d := hd
        simp [hcat, hexists d x hex]
  · intro hd
    have hcat : w.catalog = none := hd
    simp [hcat]

theorem wp_createEventFileRange {range : EventFileRange} {Q : Except Abort Unit → World H → Prop}
    (hG : ∀ o : StoreOp, o.onCatalog = true → C.guarantee o w w)
    (hok : ∀ w', RangesUpdated (Stmt.upsert range) w w' →
      C.guarantee (.sql .catalog (.createEventFileRange range)) w w' ∧ Q (.ok ()) w')
    (herr : ∀ err, ¬Calm C ∨ w.catalog.bind Db.ranges = none → Q (.error (.es err)) w) :
    wp C (createEventFileRange range) Q w := by
  refine wp_updateRanges rfl (fun d a d' hex => ?_) (fun d x hex => ?_) hG (fun _ => hok) herr
  · obtain ⟨rs, hrs, rfl⟩ := Stmt.exec_createRange.1 hex
    exact ⟨rs, hrs, rfl⟩
  · cases hrs : d.ranges with
    | none => rfl
    | some rs => rw [(Stmt.exec_createRange (a := ())).2 ⟨rs, hrs, rfl⟩] at hex; cases hex

theorem wp_sealEventFileRange {Q : Except Abort Unit → World H → Prop}
    (hG : ∀ o : StoreOp, o.onCatalog = true → C.guarantee o w w)
    (hok : ∀ w', RangesUpdated (Stmt.sealRange name v) w w' →
      C.guarantee (.sql .catalog (.sealEventFileRange name v)) w w' ∧ Q (.ok ()) w')
    (herr : ∀ err, ¬Calm C ∨ w.catalog.bind Db.ranges = none → Q (.error (.es err)) w) :
    wp C (sealEventFileRange name v) Q w := by
  refine wp_updateRanges rfl (fun d a d' hex => ?_) (fun d x hex => ?_) hG (fun _ => hok) herr
  · obtain ⟨rs, hrs, rfl⟩ := Stmt.exec_sealRange.1 hex
    exact ⟨rs, hrs, rfl⟩
  · cases hrs : d.ranges with
    | none => rfl
    | some rs => rw [(Stmt.exec_sealRange (a := ())).2 ⟨rs, hrs, rfl⟩] at hex; cases hex

theorem wp_getAllEventFileRanges {Q : Except Abort (List EventFileRange) → World H → Prop}
    (hG : ∀ o : StoreOp, o.onCatalog = true → C.guarantee o w w)
    (hok : (w.catalog.bind Db.ranges).isSome → Q (.ok (w.ranges.insertionSort rangeLe)) w)
    (herr : ∀ err, ¬Calm C ∨ w.catalog.bind Db.ranges = none → Q (.error (.es err)) w) :
    wp C getAllEventFileRanges Q w := by
  unfold getAllEventFileRanges
  rw [bind_eq, wp_bind]
  refine wp_getConnection (hG _ rfl) (fun _ => ?_) fun err he => herr err (he.imp_right ?_)
  · refine wp_sql (hG _ rfl) (fun d a d' hd hex => ⟨hG _ rfl, ?_⟩) fun err he =>
      herr err (he.imp_right ?_)
    · obtain ⟨rs, hrs, rfl, -⟩ := Stmt.exec_getAllRanges.1 hex
      have hcat : w.catalog = some d := hd
      have hranges : w.ranges = rs := by simp [World.ranges, hcat, hrs]
      rw [← hranges]
      exact hok (by simp [hcat, hrs])
    · rintro (hd | ⟨d, x, hd, hex⟩)
      · have hcat : w.catalog = none := hd
        simp [hcat]
      · have hcat : w.catalog = some d := hd
        cases hrs : d.ranges with
        | none => simp [hcat, hrs]
        | some rs => rw [Stmt.exec_getAllRanges.2 ⟨rs, hrs, rfl, rfl⟩] at hex; cases hex
  · intro hd
    have hcat : w.catalog = none := hd
    simp [hcat]

/-- The ranges that may hold events after `version`. -/
def rangesAfter (version : Int) (ranges : List EventFileRange) : List EventFileRange :=
  ranges.filter fun r =>
    match r.lastVersion with
    | none => true
    | some last => decide (version < last)

theorem wp_getEventFileRangesAfterVersion {version : Int}
    {Q : Except Abort (List EventFileRange) → World H → Prop}
    (hG : ∀ o : StoreOp, o.onCatalog = true → C.guarantee o w w)
    (hok : (w.catalog.bind Db.ranges).isSome →
      Q (.ok ((rangesAfter version w.ranges).insertionSort rangeLe)) w)
    (herr : ∀ err, ¬Calm C ∨ w.catalog.bind Db.ranges = none → Q (.error (.es err)) w) :
    wp C (getEventFileRangesAfterVersion version) Q w := by
  unfold getEventFileRangesAfterVersion
  rw [bind_eq, wp_bind]
  refine wp_getConnection (hG _ rfl) (fun _ => ?_) fun err he => herr err (he.imp_right ?_)
  · refine wp_sql (hG _ rfl) (fun d a d' hd hex => ⟨hG _ rfl, ?_⟩) fun err he =>
      herr err (he.imp_right ?_)
    · obtain ⟨rs, hrs, rfl, -⟩ := Stmt.exec_getRangesAfter.1 hex
      have hcat : w.catalog = some d := hd
      have hranges : w.ranges = rs := by simp [World.ranges, hcat, hrs]
      have := hok (by simp [hcat, hrs])
      rw [hranges] at this
      exact this
    · rintro (hd | ⟨d, x, hd, hex⟩)
      · have hcat : w.catalog = none := hd
        simp [hcat]
      · have hcat : w.catalog = some d := hd
        cases hrs : d.ranges with
        | none => simp [hcat, hrs]
        | some rs => rw [Stmt.exec_getRangesAfter.2 ⟨rs, hrs, rfl, rfl⟩] at hex; cases hex
  · intro hd
    have hcat : w.catalog = none := hd
    simp [hcat]

theorem wp_listDirectory {Q : Except Abort (List Text) → World H → Prop}
    (hG : C.guarantee .listDirectory w w)
    (hok : ∀ names, names.Perm w.directory → Q (.ok names) w)
    (herr : ∀ err, ¬Calm C → Q (.error (.es err)) w) : wp C listDirectory Q w := by
  refine wp_look rfl hG fun e he => ?_
  simp only [World.step]
  split
  · rename_i message hf
    exact herr _ fun hC => by simp [(hC _ e w he).1] at hf
  · refine hok _ ?_
    split
    · rename_i hp
      exact List.isPerm_iff.1 hp
    · exact List.Perm.refl _

theorem wp_replaceEventFileRanges {ranges : List EventFileRange}
    {Q : Except Abort Unit → World H → Prop}
    (hG : ∀ o : StoreOp, o.onCatalog = true → C.guarantee o w w)
    (hok : ∀ w', RangesUpdated (fun _ => ranges) w w' →
      C.guarantee (.replaceTransaction ranges) w w' ∧ Q (.ok ()) w')
    (herr : ∀ err, ¬Calm C ∨ w.catalog.bind Db.ranges = none ∨
      ¬(ranges.map EventFileRange.name).Nodup → Q (.error (.es err)) w) :
    wp C (replaceEventFileRanges ranges) Q w := by
  unfold replaceEventFileRanges
  rw [bind_eq, wp_bind]
  refine wp_getConnection (hG _ rfl) (fun _ => ?_) fun err he => herr err (he.imp_right ?_)
  · intro e he
    show C.guarantee _ w (World.step h (.replaceTransaction ranges) e w).2 ∧
      wp C (orEs (World.step h (.replaceTransaction ranges) e w).1) Q
        (World.step h (.replaceTransaction ranges) e w).2
    generalize (World.step h (.replaceTransaction ranges) e w).1 = r,
      (World.step h (.replaceTransaction ranges) e w).2 = w',
      step_replaceTransaction ranges (h := h) (e := e) (w := w) = hstep
    cases hstep with
    | replaced hw => exact hok _ hw
    | refused hwhy =>
      refine ⟨hG _ rfl, herr _ ?_⟩
      rcases hwhy with ⟨i, hi⟩ | hwhy
      · exact .inl fun hC => hi ((hC _ e w he).2 i)
      · exact .inr hwhy
  · intro hd
    have hcat : w.catalog = none := hd
    simp [hcat]

/-! ## Rotating -/

/-- Rotating from `old` to `new`, `w₀` being the store before: the range of `old` is sealed at
`head`, and the file of `new` is being prepared. -/
def Rotating (old : Text) (head : Int) (new : Text) (w₀ w : World H) : Prop :=
  ∃ w₁, RangesUpdated (Stmt.sealRange old head) w₀ w₁ ∧ Building new head w₁ w

/-- The file of `new` is ready; where there was no file, it is a new one. -/
def Prepared (old : Text) (head : Int) (new : Text) (w₀ w : World H) : Prop :=
  Rotating old head new w₀ w ∧ w.headOf new = some head ∧
    (w₀.files.lookup new = none → w.files.lookup new = some (freshFile head))

/-- Moreover its range is there. -/
def Rotated (old : Text) (head : Int) (new : Text) (w₀ w : World H) : Prop :=
  ∃ w₁, Prepared old head new w₀ w₁ ∧ RangesUpdated (Stmt.upsert (rangeOf new head)) w₁ w

/-- A rotation reads the head of the active file and then writes. -/
theorem wp_rotatePartitionLocked {rotation : RotationPolicy} {nowMs : Int}
    {Q : Except Abort Unit → World H → Prop}
    (hG : ∀ o : StoreOp, o.isPassive = true → C.guarantee o w w)
    (herr : ∀ e, Q (.error e) w)
    (hgo : ∀ p a new head, w.handles h = some (p, a) →
      determineNewPartitionInfo rotation a.startMs a.ordinal nowMs =
        .ok (new.name, new.startMs, new.ordinal) →
      w.headOf a.name = some head → wp C (rotateTo a.name head new) Q w) :
    wp C (rotatePartitionLocked rotation nowMs) Q w := by
  unfold rotatePartitionLocked
  simp only [bind_eq]
  rw [wp_bind]
  refine wp_look rfl (hG _ rfl) fun e _ => ?_
  cases ha : w.handles h with
  | none =>
    simp only [World.step, ha, Option.map_none]
    exact herr .panic
  | some pa =>
    obtain ⟨p, a⟩ := pa
    simp only [World.step, ha, Option.map_some]
    show wp C ((ofAbort (determineNewPartitionInfo rotation a.startMs a.ordinal nowMs)).bind _) Q w
    cases hnew : determineNewPartitionInfo rotation a.startMs a.ordinal nowMs with
    | error err => exact herr err
    | ok new =>
      obtain ⟨newName, newStartMs, newOrdinal⟩ := new
      show wp C ((getConnection _).bind _) Q w
      rw [wp_bind]
      refine wp_getConnection (hG _ rfl) (fun _ => ?_) fun err _ => herr _
      show wp C ((readEventFileAppendHead _).bind _) Q w
      rw [wp_bind]
      refine wp_readEventFileAppendHead (hG _ rfl) (fun head hhead => ?_) fun err _ => herr _
      exact hgo p a ⟨newName, newStartMs, newOrdinal⟩ head ha hnew hhead

/-- **A rotation goes through its stages**; where it fails it stays in the one it has reached. -/
theorem wp_rotateTo {old : Text} {head : Int} {new : ActivePartition}
    {Q : Except Abort Unit → World H → Prop}
    (hstart : ∀ o : StoreOp, o.onCatalog = true → C.guarantee o w₀ w₀)
    (hseal : ∀ w, RangesUpdated (Stmt.sealRange old head) w₀ w →
      C.guarantee (.sql .catalog (.sealEventFileRange old head)) w₀ w)
    (hprepare : ∀ o w w', o.prepares new.name head = true ∨ o.onCatalog = true ∧ w = w' →
      Rotating old head new.name w₀ w → Rotating old head new.name w₀ w' → C.guarantee o w w')
    (hlist : ∀ w w', Prepared old head new.name w₀ w →
      RangesUpdated (Stmt.upsert (rangeOf new.name head)) w w' →
      C.guarantee (.sql .catalog (.createEventFileRange (rangeOf new.name head))) w w')
    (hswitch : ∀ w, Rotated old head new.name w₀ w →
      C.guarantee (.setActive new) w (w.activate h new) ∧ Q (.ok ()) (w.activate h new))
    (herr₀ : ∀ err, ¬Calm C ∨ w₀.catalog.bind Db.ranges = none → Q (.error err) w₀)
    (herr₁ : ∀ err w, Rotating old head new.name w₀ w →
      ¬Calm C ∨ w₀.files.lookup new.name ≠ none → Q (.error err) w) :
    wp C (rotateTo old head new) Q w₀ := by
  unfold rotateTo
  simp only [bind_eq]
  rw [wp_bind]
  refine wp_sealEventFileRange hstart (fun w₁ hw₁ => ⟨hseal w₁ hw₁, ?_⟩) fun err he => herr₀ _ he
  -- whatever the preparation does, the sealing comes before it
  have hrot : ∀ {w}, Building new.name head w₁ w → Rotating old head new.name w₀ w :=
    fun hb => ⟨w₁, hw₁, hb⟩
  refine wp_bind_of (wp_createPartitionDb fun o e w ho _ hb => ?_)
    (fun _ w₂ ⟨hb, hhead, hfresh⟩ => ?_) fun e w₂ ⟨hb, _, hfresh⟩ => herr₁ _ _ (hrot hb) ?_
  · exact hprepare o w _ (.inl ho) (hrot hb) (hrot (step_prepares ho hb))
  · -- the new file is there with its head; its range comes next, then the switch
    have hprepared : Prepared old head new.name w₀ w₂ :=
      ⟨hrot hb, hhead rfl, fun hnone => (hfresh (by rw [hw₁.files]; exact hnone)).1 rfl⟩
    rw [wp_bind]
    refine wp_createEventFileRange
      (fun o ho => hprepare o w₂ w₂ (.inr ⟨ho, rfl⟩) (hrot hb) (hrot hb))
      (fun w₃ hw₃ => ⟨hlist w₂ w₃ hprepared hw₃, ?_⟩)
      fun err he => herr₁ _ _ (hrot hb) ?_
    · exact fun e _ => hswitch w₃ ⟨w₂, hprepared, hw₃⟩
    · -- the sealing has found the table of the ranges
      obtain ⟨d, rs, -, -, hcat⟩ := hw₁.catalog
      refine he.imp_right fun hnone => ?_
      rw [hb.catalog, hcat] at hnone
      cases hnone
  · -- a preparation fails on a calm store only where the file is there already
    by_cases hnone : w₁.files.lookup new.name = none
    · exact .inl fun hC => by cases (hfresh hnone).2 hC
    · exact .inr (by rwa [hw₁.files] at hnone)

/-! ## Reading the current version -/

/-- Without failures `current_version` answers the append head of the active file. -/
theorem wp_currentVersionLocked {p : RotationPolicy} {a : ActivePartition} {n : Int}
    (hC : Calm C) (hG : ∀ o : StoreOp, o.isPassive = true → C.guarantee o w w)
    (ha : w.handles h = some (p, a)) (hhead : w.headOf a.name = some n) (hn : 0 ≤ n) :
    wp C currentVersionLocked (fun r _ => r = .ok ⟨n⟩) w := by
  have hdb : w.db (.eventFile a.name) ≠ none := fun hnone => by
    have hlookup : w.files.lookup a.name = none := hnone
    simp [World.headOf, hlookup] at hhead
  unfold currentVersionLocked
  simp only [bind_eq]
  rw [wp_bind]
  refine wp_look rfl (hG _ rfl) fun e _ => ?_
  simp only [World.step, ha, Option.map_some]
  show wp C ((getConnection _).bind _) _ w
  rw [wp_bind]
  refine wp_getConnection (hG _ rfl) (fun _ => ?_) fun err he => absurd he (by simp [hC, hdb])
  show wp C ((readEventFileAppendHead _).bind _) _ w
  rw [wp_bind]
  refine wp_readEventFileAppendHead (hG _ rfl) (fun head hh => ?_) fun err he =>
    absurd he (by simp [hC, hhead])
  obtain rfl : head = n := by simpa [hhead] using hh.symm
  by_cases hz : head = 0
  · subst hz
    exact rfl
  · simp only [if_neg hz, EventStreamVersion.new_ok (show 0 < head by omega)]
    exact rfl

end Rules

/-- The contract of the steps that do not fail. -/
def calm {H : Type} [DecidableEq H] (h : H) : Contract (storeMachine h) where
  assume _ e _ := e.fault = none ∧ ∀ i, e.statementFault i = none
  guarantee _ _ _ := True

/-- What `current_version` answers when nothing fails and nobody writes meanwhile. -/
def World.currentVersion (w : World Unit) : Except Abort EventStreamVersion :=
  (currentVersionLocked.eval (storeMachine ()) (fun _ => {}) 0 w).1

theorem World.currentVersion_eq {w : World Unit} {p : RotationPolicy} {a : ActivePartition} {n : Int}
    (ha : w.handles () = some (p, a)) (hhead : w.headOf a.name = some n) (hn : 0 ≤ n) :
    w.currentVersion = .ok ⟨n⟩ :=
  wp_eval (C := calm ()) (fun _ _ _ => ⟨rfl, fun _ => rfl⟩) 0
    (wp_currentVersionLocked (fun _ _ _ he => he) (fun _ _ => trivial) ha hhead hn)

end Events
