import Events.Transactions
import Events.EventStream

/-!
# What each operation does to the store

One lemma for each kind of operation, so that no later proof unfolds `World.step`: an operation
that only looks (`step_passive`), one on the catalog (`step_onCatalog`), one on the event file that
`create_partition_db` prepares (`step_building`), and the append transaction
(`step_appendTransaction`).

* **`World.rowsOutside`** — the events outside one file; `allRows_perm` splits off those inside.
* **`Building`** — what preparing an event file changes: that file only, and no event in it.
* **`RangesUpdated`** — what a statement on the ranges of the catalog changes.
-/

namespace Events

open Proc Program

/-- The operations of the handle `h` as a machine. -/
abbrev storeMachine {H : Type} [DecidableEq H] (h : H) : Machine StoreI :=
  ⟨World H, StoreEnv, World.step h⟩

/-! ## The events of the files -/

/-- A file map, with one file in front. -/
theorem entries_perm {s : AList (fun _ : Text => Db)} {name : Text} {d : Db}
    (h : s.lookup name = some d) : s.entries.Perm (⟨name, d⟩ :: (s.erase name).entries) := by
  have hmem : name ∈ s.entries.keys := by
    rw [← List.dlookup_isSome]
    show (s.lookup name).isSome
    rw [h]
    rfl
  obtain ⟨d', l₁, l₂, hl₁, hl, hk⟩ := List.exists_of_kerase hmem
  have hd : d' = d := by
    have := List.mem_dlookup s.nodupKeys (hl ▸ List.mem_append_right l₁ List.mem_cons_self)
    exact Option.some.inj (Eq.trans this.symm h)
  show s.entries.Perm (⟨name, d⟩ :: s.entries.kerase name)
  rw [hk, hl, hd]
  exact List.perm_middle

namespace World

variable {H : Type} (w : World H) (name : Text)

/-- The events stored outside one event file. -/
def rowsOutside : List EventRow := (w.files.erase name).entries.flatMap fun f => f.2.rows

/-- The events of the store are those of one file and those of the others, in some order. -/
theorem allRows_perm : w.allRows.Perm (w.rowsOf name ++ w.rowsOutside name) := by
  unfold allRows rowsOf rowsOutside
  cases h : w.files.lookup name with
  | some d => simpa using (entries_perm h).flatMap_right fun f => f.2.rows
  | none =>
    have herase : (w.files.erase name).entries = w.files.entries :=
      List.kerase_of_notMem_keys (List.dlookup_eq_none.1 h)
    simp [herase]

variable {w name} {d : Db} {other : Text}

/-- An event of a file is one of the store. -/
theorem rowsOf_subset : w.rowsOf name ⊆ w.allRows := fun _ hr =>
  (w.allRows_perm name).mem_iff.2 (List.mem_append_left _ hr)

@[simp] theorem db_setDb (ref : DbRef) : (w.setDb ref d).db ref = some d := by
  cases ref <;> simp [setDb, db]

@[simp] theorem lookup_setDb : (w.setDb (.eventFile name) d).files.lookup name = some d := by
  simp [setDb]

/-- Setting a file leaves the others alone. -/
theorem lookup_setDb_ne (h : other ≠ name) :
    (w.setDb (.eventFile name) d).files.lookup other = w.files.lookup other := by
  simp [setDb, AList.lookup_insert_ne h]

@[simp] theorem rowsOf_setDb : (w.setDb (.eventFile name) d).rowsOf name = d.rows := by
  simp [rowsOf]

@[simp] theorem rowsOutside_setDb :
    (w.setDb (.eventFile name) d).rowsOutside name = w.rowsOutside name := by
  have : (w.files.insert name d).entries.kerase name = w.files.entries.kerase name := by
    rw [AList.entries_insert]
    exact List.kerase_cons_eq rfl
  simp only [rowsOutside, setDb]
  show ((w.files.insert name d).entries.kerase name).flatMap _ = _
  rw [this]
  rfl

end World

/-! ## Operations that only look -/

def StoreOp.isPassive : StoreOp → Bool
  | .now => true
  | .createDirAll => true
  | .listDirectory => true
  | .fileSize _ => true
  | .readActive => true
  | .configureDatabase _ => true
  | .connect _ => true
  | .getConnection _ => true
  | .sql _ s => s.isQuery
  | _ => false

def StoreOp.isAppend : StoreOp → Bool
  | .appendTransaction _ _ _ _ => true
  | _ => false

section Steps

variable {H : Type} [DecidableEq H] {h : H} {o : StoreOp} {e : StoreEnv} {w w₀ : World H}
  {name : Text} {v : Int}

/-- An operation that only looks changes nothing, whatever it answers and whether or not it fails. -/
theorem step_passive (ho : o.isPassive = true) : (World.step h o e w).2 = w := by
  cases o <;> simp only [StoreOp.isPassive, Bool.false_eq_true] at ho <;> try rfl
  · simp only [World.step]; split <;> rfl
  · rename_i ref s
    simp only [World.step, World.stepSql]
    split
    · rfl
    · rfl
    · split
      · simp [ho]
      · rfl

/-! ## Operations on the catalog -/

/-- The operations on the catalog, and those that only look. -/
def StoreOp.onCatalog : StoreOp → Bool
  | .buildDatabase .catalog => true
  | .sql .catalog _ => true
  | .replaceTransaction _ => true
  | o => o.isPassive

/-- What an operation on the catalog leaves alone. -/
structure SameFiles (w w' : World H) : Prop where
  files : w'.files = w.files
  handles : w'.handles = w.handles
  log : w'.log = w.log

omit [DecidableEq H] in
theorem SameFiles.refl (w : World H) : SameFiles w w := ⟨rfl, rfl, rfl⟩

omit [DecidableEq H] in
/-- Two operations on the catalog leave alone what each of them does. -/
theorem SameFiles.trans {w₁ w₂ w₃ : World H} (h : SameFiles w₁ w₂) (h' : SameFiles w₂ w₃) :
    SameFiles w₁ w₃ :=
  ⟨h'.files.trans h.files, h'.handles.trans h.handles, h'.log.trans h.log⟩

/-- **An operation on the catalog** leaves the event files, the handles and the log alone, also where it
fails half way. -/
theorem step_onCatalog (ho : o.onCatalog = true) : SameFiles w (World.step h o e w).2 := by
  unfold StoreOp.onCatalog at ho
  split at ho
  · simp only [World.step]
    repeat' split
    all_goals exact ⟨rfl, rfl, rfl⟩
  · simp only [World.step, World.stepSql]
    repeat' split
    all_goals exact ⟨rfl, rfl, rfl⟩
  · simp only [World.step, World.stepReplace]
    repeat' split
    all_goals exact ⟨rfl, rfl, rfl⟩
  · rw [step_passive ho]
    exact SameFiles.refl w

/-- The ranges of the catalog are rewritten by `f`. -/
structure RangesUpdated (f : List EventFileRange → List EventFileRange) (w w' : World H) : Prop
    extends SameFiles w w' where
  catalog : ∃ d rs, w.catalog = some d ∧ d.ranges = some rs ∧
    w'.catalog = some { d with ranges := some (f rs) }

omit [DecidableEq H] in
/-- The ranges as a list, without the database around them. -/
theorem RangesUpdated.ranges {f : List EventFileRange → List EventFileRange} {w' : World H}
    (hu : RangesUpdated f w w') : w'.ranges = f w.ranges := by
  obtain ⟨d, rs, hw, hd, hw'⟩ := hu.catalog
  simp [World.ranges, hw, hw', hd]

/-! ## Migrations -/

/-- The statements of the migration runner, and the queries. -/
def Stmt.migrates : Stmt → Bool
  | .ensureMigrationsTable => true
  | .schema _ => true
  | .recordMigration _ _ => true
  | s => s.isQuery

/-- A migration writes no event, no append head and no range: it creates tables without rows. -/
theorem exec_migrates {s : Stmt} {d d' : Db} {a : s.Ans} (hs : s.migrates = true)
    (h : s.exec d = .ok (a, d')) :
    d'.rows = d.rows ∧ d'.headVersion = d.headVersion ∧ d'.ranges.getD [] = d.ranges.getD [] := by
  unfold Stmt.migrates at hs
  split at hs
  · obtain rfl := Stmt.exec_ensureMigrationsTable.1 h
    exact ⟨rfl, rfl, rfl⟩
  · rename_i s
    cases s with
    | createTable t =>
      simp only [Stmt.exec] at h
      split at h
      · cases h
      · rename_i hno
        cases h
        cases t with
        | events =>
          have : d.events = none := by simpa [Db.hasTable] using hno
          exact ⟨by simp [Db.rows, Db.create, this], rfl, rfl⟩
        | eventFileAppendHead =>
          have : d.head = none := by simpa [Db.hasTable] using hno
          exact ⟨rfl, by simp [Db.headVersion, Db.create, this], rfl⟩
        | eventFileRanges =>
          have : d.ranges = none := by simpa [Db.hasTable] using hno
          exact ⟨rfl, rfl, by simp [Db.create, this]⟩
    | createIndexIfNotExists name t =>
      simp only [Stmt.exec] at h
      split at h
      · cases h; exact ⟨rfl, rfl, rfl⟩
      · cases h
  · obtain ⟨rows, -, -, rfl⟩ := Stmt.exec_recordMigration.1 h
    exact ⟨rfl, rfl, rfl⟩
  · rw [Stmt.exec_query hs h]
    exact ⟨rfl, rfl, rfl⟩

/-- The operations that open the catalog, and those that only look. -/
def StoreOp.opensCatalog : StoreOp → Bool
  | .buildDatabase .catalog => true
  | .sql .catalog s => s.migrates
  | o => o.isPassive

/-- Opening the catalog changes no range. -/
theorem step_opensCatalog (ho : o.opensCatalog = true) :
    SameFiles w (World.step h o e w).2 ∧ (World.step h o e w).2.ranges = w.ranges := by
  unfold StoreOp.opensCatalog at ho
  split at ho
  · refine ⟨step_onCatalog rfl, ?_⟩
    simp only [World.step]
    repeat' split
    · rfl
    · rfl
    · rename_i hdb
      have hnone : w.catalog = none := by simpa [World.db] using hdb
      simp [World.ranges, World.setDb, hnone]
  · refine ⟨step_onCatalog rfl, ?_⟩
    simp only [World.step, World.stepSql]
    split
    · rfl
    · rfl
    · rename_i d _ hdb
      have hcat : w.catalog = some d := hdb
      split
      · rename_i a d' hex
        obtain ⟨-, -, hranges⟩ := exec_migrates ho hex
        split
        · rfl
        · simpa [World.ranges, World.setDb, hcat] using hranges
      · rfl
  · rw [step_passive ho]
    exact ⟨SameFiles.refl w, rfl⟩

/-! ## Preparing an event file -/

/-- The statements that prepare an event file with the append head `v`. -/
def Stmt.prepares (v : Int) : Stmt → Bool
  | .initializeEventFileAppendHead v' _ => v' = v
  | s => s.migrates

/-- The operations that prepare the event file `name`, and those that only look. -/
def StoreOp.prepares (name : Text) (v : Int) : StoreOp → Bool
  | .buildDatabase (.eventFile n) => n = name
  | .sql (.eventFile n) s => n = name && s.prepares v
  | o => o.isPassive

/-- `w` is `w₀` but for the event file `name`, which is being prepared with the append head `v`. -/
structure Building (name : Text) (v : Int) (w₀ w : World H) : Prop where
  catalog : w.catalog = w₀.catalog
  handles : w.handles = w₀.handles
  log : w.log = w₀.log
  others : ∀ other, other ≠ name → w.files.lookup other = w₀.files.lookup other
  kept : w₀.files.lookup name ≠ none → w.files.lookup name ≠ none
  rows : w.rowsOf name = w₀.rowsOf name
  outside : w.rowsOutside name = w₀.rowsOutside name
  head : w.headOf name = w₀.headOf name ∨ w.headOf name = some v

namespace Building

omit [DecidableEq H] in
/-- Nothing has been done yet. -/
theorem refl (name : Text) (v : Int) (w : World H) : Building name v w w :=
  ⟨rfl, rfl, rfl, fun _ _ => rfl, id, rfl, rfl, .inl rfl⟩

variable (hb : Building name v w₀ w)
include hb

omit [DecidableEq H]

/-- No file has got an event. -/
theorem rowsOf (other : Text) : w.rowsOf other = w₀.rowsOf other := by
  by_cases h : other = name
  · rw [h]; exact hb.rows
  · simp only [World.rowsOf, hb.others other h]

/-- The heads of the other files are as before. -/
theorem headOf_ne {other : Text} (h : other ≠ name) : w.headOf other = w₀.headOf other := by
  simp only [World.headOf, hb.others other h]

/-- The events of the store are those of before. -/
theorem allRows : w.allRows.Perm w₀.allRows := by
  have hw := w.allRows_perm name
  rw [hb.rows, hb.outside] at hw
  exact hw.trans (w₀.allRows_perm name).symm

/-- A change of the file that keeps its rows. -/
theorem setDb {d : Db} (hrows : d.rows = w.rowsOf name)
    (hhead : d.headVersion = w.headOf name ∨ d.headVersion = some v) :
    Building name v w₀ (w.setDb (.eventFile name) d) where
  catalog := hb.catalog
  handles := hb.handles
  log := hb.log
  others other h := by rw [World.lookup_setDb_ne h, hb.others other h]
  kept := fun _ => by simp
  rows := by rw [World.rowsOf_setDb, hrows, hb.rows]
  outside := by rw [World.rowsOutside_setDb, hb.outside]
  head := by
    have hd : (w.setDb (.eventFile name) d).headOf name = d.headVersion := by simp [World.headOf]
    rw [hd]
    rcases hhead with h | h
    · rw [h]; exact hb.head
    · exact .inr h

end Building

/-- A statement that prepares an event file writes no event. -/
theorem exec_prepares {s : Stmt} {d d' : Db} {a : s.Ans} (hs : s.prepares v = true)
    (h : s.exec d = .ok (a, d')) :
    d'.rows = d.rows ∧ (d'.headVersion = d.headVersion ∨ d'.headVersion = some v) := by
  unfold Stmt.prepares at hs
  split at hs
  · obtain ⟨-, rfl⟩ := Stmt.exec_initializeHead.1 h
    have hv := of_decide_eq_true hs
    exact ⟨rfl, .inr (by simp [Db.headVersion, hv])⟩
  · obtain ⟨hrows, hhead, -⟩ := exec_migrates hs h
    exact ⟨hrows, .inl hhead⟩

/-- **A step of preparing a file** keeps the file one that is being prepared: it may be there now, and have
the append head `v`, and nothing else has changed. -/
theorem step_prepares (ho : o.prepares name v = true) (hb : Building name v w₀ w) :
    Building name v w₀ (World.step h o e w).2 := by
  unfold StoreOp.prepares at ho
  split at ho
  · obtain rfl := of_decide_eq_true ho
    simp only [World.step]
    repeat' split
    · exact hb
    · exact hb
    · rename_i n _ _ hdb
      -- the file was not there: it is created empty
      have hnone : w.files.lookup n = none := by simpa [World.db] using hdb
      exact hb.setDb (by simp [World.rowsOf, hnone, Db.rows])
        (.inl (by simp [World.headOf, hnone, Db.headVersion]))
  · rename_i n s
    obtain ⟨hn, hs⟩ : n = name ∧ s.prepares v = true := by simpa using ho
    subst hn
    simp only [World.step, World.stepSql]
    split
    · exact hb
    · exact hb
    · rename_i d _ hdb
      have hd : w.files.lookup n = some d := hdb
      split
      · rename_i a d' hex
        obtain ⟨hrows, hhead⟩ := exec_prepares hs hex
        split
        · exact hb
        · exact hb.setDb (by simp [World.rowsOf, hd, hrows])
            (by simpa [World.headOf, hd] using hhead)
      · exact hb
  · rw [step_passive ho]
    exact hb

/-! ## The append transaction -/

/-- A transaction on a database ends as its weakest precondition says. -/
theorem onConnection_spec {α : Type} {p : ConnProgram α} {d : Db} (fault : DbError → Prop)
    {Q : Except EsError α → Tx.Conn sqlDialect → Prop}
    (hfault : ∀ i m, e.statementFault i = some m → fault (.storage m))
    (hp : wp (Tx.faulty fault) p Q ⟨d, none⟩) :
    ∃ c, Q (onConnection e p d).1 c ∧ (onConnection e p d).2 = c.db := by
  refine ⟨_, wp_eval (fun i o c err herr => ?_) 0 hp, rfl⟩
  obtain ⟨m, hm, rfl⟩ := Option.map_eq_some_iff.1 herr
  exact hfault i m hm

/-- The two outcomes of the append transaction in the store. -/
inductive AppendStep (name : Text) (expected : ExpectedVersion) (events : List NewEvent)
    (baseTime : OffsetDateTime) (e : StoreEnv) (w : World H) :
    Except EsError AppendResult → World H → Prop where
  | committed {d d' : Db} {head : Int} {result : AppendResult} (hd : w.files.lookup name = some d)
      (hc : AppendCommitted e.ids e.span expected events baseTime d d' head result) :
      AppendStep name expected events baseTime e w (.ok result)
        { w.setDb (.eventFile name) d' with log := w.log ++ result.events }
  | refused {err : EsError} {w' : World H} (hw : ∀ v, Building name v w w')
      (hfiles : ∀ other, w'.files.lookup other = w.files.lookup other)
      (hver : ∀ ex ac, err = .incorrectEventVersion ex ac → ∃ head, w.headOf name = some head ∧
        (validateExpectedVersionAgainst expected head = .error err ∨
          ∃ row ∈ w.rowsOf name, head < row.version)) :
      AppendStep name expected events baseTime e w (.error err) w'

/-- **The transaction of an append** commits its batch, or is refused and has changed no row. What is proved
of the statements on the connection is carried over to the store here, once for all callers. -/
theorem step_appendTransaction (expected : ExpectedVersion) (events : List NewEvent)
    (baseTime : OffsetDateTime) (name : Text) :
    AppendStep name expected events baseTime e w
      (World.step h (.appendTransaction name expected events baseTime) e w).1
      (World.step h (.appendTransaction name expected events baseTime) e w).2 := by
  cases hd : w.files.lookup name with
  | none =>
    simp only [World.step, World.stepAppend, hd]
    exact .refused (fun v => Building.refl name v w) (fun _ => rfl) (by simp)
  | some d =>
    obtain ⟨c, hQ, hdb⟩ := onConnection_spec _ (e := e)
      (p := appendOnConnection e.ids e.span expected events baseTime) (fun _ m _ => ⟨m, rfl⟩)
      wp_appendOnConnection
    rcases hr : onConnection e (appendOnConnection e.ids e.span expected events baseTime) d with ⟨r, d'⟩
    rw [hr] at hQ hdb
    obtain rfl : d' = c.db := hdb
    simp only [World.step, World.stepAppend, hd, hr]
    cases r with
    | ok result =>
      obtain ⟨head, hc⟩ := hQ
      exact .committed hd hc
    | error err =>
      obtain ⟨hsame, hver⟩ := hQ
      rw [hsame]
      refine .refused (fun v => (Building.refl name v w).setDb ?_ (.inl ?_)) (fun other => ?_) ?_
      · simp [World.rowsOf, hd]
      · simp [World.headOf, hd]
      · by_cases hother : other = name
        · rw [hother, hd, World.lookup_setDb]
        · exact World.lookup_setDb_ne hother
      · simpa [World.headOf, World.rowsOf, hd] using hver

/-! ## Replacing the ranges -/

/-- The two outcomes of the transaction that replaces the ranges. Without a fault it fails only for
want of the table, or for a name that comes twice. -/
inductive ReplaceStep (ranges : List EventFileRange) (e : StoreEnv) (w : World H) :
    Except EsError Unit → World H → Prop where
  | replaced {w' : World H} (hw : RangesUpdated (fun _ => ranges) w w') :
      ReplaceStep ranges e w (.ok ()) w'
  | refused {err : EsError} (hwhy : (∃ i, e.statementFault i ≠ none) ∨
      w.catalog.bind Db.ranges = none ∨ ¬(ranges.map EventFileRange.name).Nodup) :
      ReplaceStep ranges e w (.error err) w

/-- **The transaction of a rebuild** replaces all ranges or none. -/
theorem step_replaceTransaction (ranges : List EventFileRange) :
    ReplaceStep ranges e w (World.step h (.replaceTransaction ranges) e w).1
      (World.step h (.replaceTransaction ranges) e w).2 := by
  cases hd : w.catalog with
  | none =>
    simp only [World.step, World.stepReplace, hd]
    exact .refused (.inr (.inl (by simp [hd])))
  | some d =>
    obtain ⟨c, hQ, hdb⟩ := onConnection_spec (fun _ => ∃ i, e.statementFault i ≠ none) (e := e)
      (p := replaceRangesOnConnection ranges) (fun i m hm => ⟨i, by simp [hm]⟩)
      (wp_replaceRangesOnConnection (d := d))
    rcases hr : onConnection e (replaceRangesOnConnection ranges) d with ⟨r, d'⟩
    rw [hr] at hQ hdb
    obtain rfl : d' = c.db := hdb
    simp only [World.step, World.stepReplace, hd, hr]
    cases r with
    | ok u =>
      obtain ⟨hrs, hdb⟩ := hQ
      obtain ⟨rs, hrs⟩ := Option.ne_none_iff_exists'.1 hrs
      exact .replaced ⟨⟨rfl, rfl, rfl⟩, d, rs, hd, hrs, by rw [← hdb]; rfl⟩
    | error err =>
      obtain ⟨hsame, hwhy⟩ := hQ
      have hw : w.setDb .catalog c.db = w := by
        rw [hsame]
        show { w with catalog := some d } = w
        rw [← hd]
      rw [hw]
      refine .refused ?_
      rcases hwhy with ⟨-, hf⟩ | hrs | hnd
      · exact .inl hf
      · exact .inr (.inl (by simp [hd, hrs]))
      · exact .inr (.inr hnd)

/-! ## Kinds of operations -/

/-- What only looks is no append. This lemma and the next ones order the kinds of operations, so that a
discipline has to be checked on the largest kind only. -/
theorem isAppend_of_isPassive (ho : o.isPassive = true) : o.isAppend = false := by
  cases o <;> first | rfl | cases ho

theorem isAppend_of_onCatalog (ho : o.onCatalog = true) : o.isAppend = false := by
  unfold StoreOp.onCatalog at ho
  split at ho
  · rfl
  · rfl
  · rfl
  · exact isAppend_of_isPassive ho

theorem isAppend_of_opensCatalog (ho : o.opensCatalog = true) : o.isAppend = false := by
  unfold StoreOp.opensCatalog at ho
  split at ho
  · rfl
  · rfl
  · exact isAppend_of_isPassive ho

/-- The operations that store no event: a statement on an event file prepares it or only looks. -/
def StoreOp.isUpkeep : StoreOp → Bool
  | .appendTransaction _ _ _ _ => false
  | .sql (.eventFile _) (.initializeEventFileAppendHead _ _) => true
  | .sql (.eventFile _) s => s.migrates
  | _ => true

/-- Those of them that set no append head but to `v`. -/
def StoreOp.setsHeadTo (v : Int) : StoreOp → Bool
  | .sql (.eventFile _) (.initializeEventFileAppendHead v' _) => v' = v
  | o => o.isUpkeep

theorem setsHeadTo_of_isPassive (ho : o.isPassive = true) : o.setsHeadTo v = true := by
  cases o with
  | sql ref s => cases ref <;> cases s <;> first | rfl | cases ho
  | _ => first | rfl | cases ho

theorem setsHeadTo_of_opensCatalog (ho : o.opensCatalog = true) : o.setsHeadTo v = true := by
  unfold StoreOp.opensCatalog at ho
  split at ho
  · rfl
  · rfl
  · exact setsHeadTo_of_isPassive ho

/-- An operation that may set the head to `v` alone is one of the upkeep. -/
theorem isUpkeep_of_setsHeadTo (ho : o.setsHeadTo v = true) : o.isUpkeep = true := by
  unfold StoreOp.setsHeadTo at ho
  split at ho
  · rfl
  · exact ho

theorem isAppend_of_isUpkeep (ho : o.isUpkeep = true) : o.isAppend = false := by
  cases o <;> first | rfl | cases ho

theorem isAppend_of_prepares (ho : o.prepares name v = true) : o.isAppend = false := by
  unfold StoreOp.prepares at ho
  split at ho
  · rfl
  · rfl
  · exact isAppend_of_isPassive ho

end Steps

/-! ## Programs of such operations -/

section Programs

variable {P : StoreOp → Prop} {ref : DbRef} {name : Text} {v : Int}

/-- `?` has no operation. -/
theorem all_orEs {α : Type} (r : Except EsError α) : All P (orEs r : StoreProgram α) := by
  cases r <;> trivial

/-- A statement with `?` is one operation. -/
theorem all_sql {s : Stmt} (ho : P (.sql ref s)) : All P (sql ref s) := ⟨ho, fun r => all_orEs r⟩

/-- The statements of a migration, by induction on the batch. -/
theorem all_executeBatch {batch : List SchemaStmt} (h : ∀ s, P (.sql ref (.schema s))) :
    All P (executeBatch ref batch) := by
  induction batch with
  | nil => trivial
  | cons s batch ih => exact (all_sql (h s)).bind fun _ => ih

/-- The statements of the migration runner. -/
theorem all_runMigrations {ms : List Migration} (h₁ : P (.sql ref .ensureMigrationsTable))
    (h₂ : P (.sql ref .loadAppliedMigrations)) (h₃ : ∀ s, P (.sql ref (.schema s)))
    (h₄ : ∀ m c, P (.sql ref (.recordMigration m c))) : All P (runMigrations ref ms) := by
  have hpending : ∀ applied, All P (runPendingMigrations ref applied ms) := by
    intro applied
    induction ms with
    | nil => trivial
    | cons m ms ih =>
      refine All.bind ?_ fun _ => ih
      unfold runMigration
      split
      · unfold verifyMigrationChecksum
        split <;> trivial
      · exact (all_executeBatch h₃).bind fun _ => all_sql (h₄ _ _)
  exact (all_sql h₁).bind fun _ => (all_sql h₂).bind fun applied => hpending applied

/-- Opening a file builds its database and configures it. -/
theorem all_openPartitionDb (h₁ : P (.buildDatabase (.eventFile name)))
    (h₂ : P (.configureDatabase (.eventFile name))) : All P (openPartitionDb name) :=
  All.bind (p := buildDatabase _) ⟨h₁, fun r => all_orEs r⟩ fun _ => ⟨h₂, fun r => all_orEs r⟩

theorem all_connect (ho : P (.connect ref)) : All P (connect ref) := ⟨ho, fun r => all_orEs r⟩

theorem all_getConnection (ho : P (.getConnection ref)) : All P (getConnection ref) :=
  ⟨ho, fun r => all_orEs r⟩

end Programs

end Events
