import Events.NameOrder

/-!
# Rebuilding the catalog

Where a catalog has not just one unsealed range, opening the partition lists the directory, reads what
every event file holds and writes the ranges anew, in the order of their first versions and names; the
last of them becomes active.

* **`rebuiltRanges`**, **`wp_rebuild`** — what the rebuild writes; it does not depend on the order of the
  directory's entries.
* **`Shelved`** — the event files hold the log one behind the other.
* **`Shelved.rebuilt`** — their ranges, if the names agree with that order where first versions tie.
* **`rebuild_active_iff`** — when the file that becomes active has all events behind it.
-/

namespace Events

open Proc Program

/-! ## What a directory says -/

/-- What `discover_event_file_summaries` finds in an event file. -/
def World.summary {H : Type} (w : World H) (name : Text) : EventFileSummary where
  name := name
  firstVersion := ((w.rowsOf name).map EventRow.version).min?.getD ((w.headOf name).getD 0 + 1)
  currentVersion := (w.headOf name).getD 0

theorem summary_of_files {H : Type} {w w' : World H} (h : w'.files = w.files) :
    w'.summary = w.summary := by
  funext name
  unfold World.summary World.rowsOf World.headOf
  rw [h]

/-- The event file has its tables, and the row of its append head. -/
structure Readable {H : Type} (w : World H) (name : Text) : Prop where
  accepted : ∃ v, parsePartitionName name = .ok v
  events : ∃ d, w.files.lookup name = some d ∧ d.events.isSome
  head : w.headOf name ≠ none

/-- The ranges that the rebuild writes, of a directory with the entries `names`. -/
def rebuiltRanges {H : Type} (w : World H) (names : List Text) : List EventFileRange :=
  rangesOfSummaries (((names.filter isEventFileName).map w.summary).insertionSort summaryLe)

instance : Std.Total summaryLe where
  total a b := by
    unfold summaryLe
    rcases lt_trichotomy a.firstVersion b.firstVersion with h | h | h
    · exact .inl (.inl h)
    · rcases le_total a.name b.name with hn | hn
      · exact .inl (.inr ⟨h, hn⟩)
      · exact .inr (.inr ⟨h.symm, hn⟩)
    · exact .inr (.inl h)

instance : IsTrans EventFileSummary summaryLe where
  trans a b c := by
    rintro (h | ⟨h, hn⟩) (h' | ⟨h', hn'⟩)
    · exact .inl (h.trans h')
    · exact .inl (h' ▸ h)
    · exact .inl (h ▸ h')
    · exact .inr ⟨h.trans h', hn.trans hn'⟩

/-- Two summaries of one directory that come before each other are those of one file. -/
theorem summaryLe_antisymm {H : Type} {w : World H} {n n' : Text}
    (h : summaryLe (w.summary n) (w.summary n')) (h' : summaryLe (w.summary n') (w.summary n)) :
    n = n' := by
  rcases h with h | ⟨h, hn⟩
  · rcases h' with h' | ⟨h', -⟩ <;> omega
  · rcases h' with h' | ⟨-, hn'⟩
    · omega
    · exact le_antisymm hn hn'

/-- A sorted list of summaries is determined by its elements. -/
theorem insertionSort_summaries {H : Type} {w : World H} {names : List Text} {l : List EventFileSummary}
    (hp : (names.map w.summary).Perm l) (hl : l.Pairwise summaryLe) :
    (names.map w.summary).insertionSort summaryLe = l := by
  have hsort := List.perm_insertionSort summaryLe (names.map w.summary)
  refine (hsort.trans hp).eq_of_pairwise (fun a b ha hb hab hba => ?_)
    (List.pairwise_insertionSort summaryLe _) hl
  obtain ⟨n, -, rfl⟩ := List.mem_map.1 (hsort.mem_iff.1 ha)
  obtain ⟨n', -, rfl⟩ := List.mem_map.1 (hp.mem_iff.2 hb)
  rw [summaryLe_antisymm hab hba]

/-- **The order of the directory's entries does not matter.** -/
theorem rebuiltRanges_perm {H : Type} {w : World H} {names names' : List Text} (h : names.Perm names') :
    rebuiltRanges w names = rebuiltRanges w names' := by
  have hsummaries := (h.filter isEventFileName).map w.summary
  unfold rebuiltRanges
  rw [insertionSort_summaries (hsummaries.trans (List.perm_insertionSort summaryLe _).symm)
    (List.pairwise_insertionSort summaryLe _)]

/-- The names that are accepted are those of event files. -/
theorem isEventFileName_of_accepted {name : Text} (h : ∃ v, parsePartitionName name = .ok v) :
    isEventFileName name = true := by
  obtain ⟨v, hv⟩ := h
  obtain ⟨p, -, rfl, -⟩ := named_of_parse hv
  unfold isEventFileName NameParts.text
  refine Bool.and_eq_true_iff.2 ⟨List.isPrefixOf_iff_prefix.2 (List.prefix_append _ _), ?_⟩
  refine List.isSuffixOf_iff_suffix.2 ?_
  simp only [← List.append_assoc]
  exact List.suffix_append _ _

/-! ## Reading the files -/

section Rebuild

variable {H : Type} [DecidableEq H] {h : H} {C : Contract (storeMachine h)} {w : World H}

/-- A database file that is there is only opened. -/
theorem step_buildDatabase_present {ref : DbRef} (hdb : (w.db ref).isSome) (e : StoreEnv) :
    (World.step h (.buildDatabase ref) e w).2 = w ∧
      (e.fault = none → (World.step h (.buildDatabase ref) e w).1 = .ok ()) := by
  simp only [World.step]
  cases e.fault with
  | some message => exact ⟨rfl, fun he => by cases he⟩
  | none => exact ⟨by simp [hdb], fun _ => rfl⟩

/-- An event file that is there is only opened. -/
theorem wp_openPartitionDb_present {name : Text} {Q : Except Abort Unit → World H → Prop}
    (hG : ∀ o : StoreOp, o.isAppend = false → C.guarantee o w w)
    (hfile : w.files.lookup name ≠ none) (hok : Q (.ok ()) w)
    (herr : ∀ err, ¬Calm C → Q (.error err) w) : wp C (openPartitionDb name) Q w := by
  have hdb : (w.db (.eventFile name)).isSome := Option.isSome_iff_ne_none.2 hfile
  unfold openPartitionDb
  rw [bind_eq, wp_bind]
  intro e he
  obtain ⟨hsame, hanswer⟩ := step_buildDatabase_present (h := h) hdb e
  refine ⟨by rw [hsame]; exact hG _ rfl, ?_⟩
  rw [hsame]
  cases hr : (World.step h (.buildDatabase (.eventFile name)) e w).1 with
  | error err => exact herr _ fun hC => by simp [hanswer (hC _ e w he).1] at hr
  | ok u => exact wp_configureDatabase (hG _ rfl) hok fun err hC => herr _ hC

/-- **The summary of a file**, or an error if it is not readable. -/
theorem wp_summarizeEventFile {name : Text} {Q : Except Abort EventFileSummary → World H → Prop}
    (hG : ∀ o : StoreOp, o.isAppend = false → C.guarantee o w w)
    (hfile : w.files.lookup name ≠ none)
    (hok : Readable w name → Q (.ok (w.summary name)) w)
    (herr : ∀ err, ¬Calm C ∨ ¬Readable w name → Q (.error err) w) :
    wp C (summarizeEventFile name) Q w := by
  obtain ⟨d, hd⟩ := Option.ne_none_iff_exists'.1 hfile
  have hdb : w.db (.eventFile name) = some d := hd
  unfold summarizeEventFile
  simp only [bind_eq]
  -- the name is parsed first: a name that is refused is not a readable file
  cases hparse : parsePartitionName name with
  | error e => exact herr _ (.inr fun hr => by
      obtain ⟨v, hv⟩ := hr.accepted
      rw [hparse] at hv
      cases hv)
  | ok v =>
    show wp C ((openPartitionDb name).bind _) Q w
    rw [wp_bind]
    refine wp_openPartitionDb_present hG hfile ?_ fun err hC => herr _ (.inl hC)
    rw [wp_bind]
    refine wp_connect (hG _ rfl) ?_ fun err hC => herr _ (.inl hC)
    rw [wp_bind]
    refine wp_readEventFileAppendHead (hG _ rfl) (fun head hhead => ?_) fun err he => herr _ ?_
    · show wp C ((sql (.eventFile name) .readFirstEventVersion).bind _) Q w
      rw [wp_bind]
      refine wp_sql (hG _ rfl) (fun d' first d'' hd' hex => ⟨hG _ rfl, ?_⟩)
        fun err he => herr _ ?_
      · -- the first version among the rows, or the one after the head where there is none
        obtain rfl : d = d' := Option.some.inj (hdb.symm.trans hd')
        obtain ⟨rows, hrows, rfl, -⟩ := Stmt.exec_readFirst.1 hex
        have hsummary : w.summary name =
            ⟨name, (rows.map EventRow.version).min?.getD (head + 1), head⟩ := by
          simp [World.summary, World.rowsOf, hd, Db.rows, hrows, hhead]
        have hgood := hok ⟨⟨v, hparse⟩, ⟨d, hd, by rw [hrows]; rfl⟩, by rw [hhead]; simp⟩
        rw [hsummary] at hgood
        exact hgood
      · refine he.imp_right fun hwhy hr => ?_
        obtain ⟨d', hd', hevents⟩ := hr.events
        obtain rfl : d = d' := Option.some.inj (hd.symm.trans hd')
        obtain ⟨rows, hrows⟩ := Option.isSome_iff_exists.1 hevents
        rcases hwhy with hnone | ⟨d', x, hd', hex⟩
        · rw [hdb] at hnone
          cases hnone
        · obtain rfl : d = d' := Option.some.inj (hdb.symm.trans hd')
          rw [Stmt.exec_readFirst.2 ⟨rows, hrows, rfl, rfl⟩] at hex
          cases hex
    · exact he.imp_right fun hnone hr => hr.head hnone

/-- The event files of a listing, one after the other; the first one that is not readable ends it. -/
theorem wp_summarizeEventFiles {names : List Text}
    {Q : Except Abort (List EventFileSummary) → World H → Prop}
    (hG : ∀ o : StoreOp, o.isAppend = false → C.guarantee o w w)
    (hfiles : ∀ n ∈ names, isEventFileName n = true → w.files.lookup n ≠ none)
    (hok : (∀ n ∈ names, isEventFileName n = true → Readable w n) →
      Q (.ok ((names.filter isEventFileName).map w.summary)) w)
    (herr : ∀ err, ¬Calm C ∨ (∃ n ∈ names, isEventFileName n = true ∧ ¬Readable w n) →
      Q (.error err) w) : wp C (summarizeEventFiles names) Q w := by
  -- induction on the listing, as the loop goes through it
  induction names generalizing Q with
  | nil => exact hok fun n hn => by cases hn
  | cons name names ih =>
    have hrest : ∀ n ∈ names, isEventFileName n = true → w.files.lookup n ≠ none :=
      fun n hn => hfiles n (List.mem_cons_of_mem _ hn)
    have hlater : (∃ n ∈ names, isEventFileName n = true ∧ ¬Readable w n) →
        ∃ n ∈ name :: names, isEventFileName n = true ∧ ¬Readable w n :=
      fun ⟨n, hn, hwhy⟩ => ⟨n, List.mem_cons_of_mem _ hn, hwhy⟩
    by_cases hname : isEventFileName name = true
    · rw [summarizeEventFiles, if_pos hname]
      rw [List.filter_cons_of_pos hname] at hok
      show wp C ((summarizeEventFile name).bind _) Q w
      rw [wp_bind]
      refine wp_summarizeEventFile hG
        (hfiles name List.mem_cons_self hname) (fun hread => ?_) fun err hwhy => herr err ?_
      · show wp C ((summarizeEventFiles names).bind _) Q w
        rw [wp_bind]
        refine ih hrest (fun hall => hok fun n hn hevent => ?_) fun err hwhy =>
          herr err (hwhy.imp_right hlater)
        rcases List.mem_cons.1 hn with rfl | hn
        · exact hread
        · exact hall n hn hevent
      · exact hwhy.imp_right fun hnot => ⟨name, List.mem_cons_self, hname, hnot⟩
    · -- an entry that is no event file is passed over
      rw [summarizeEventFiles, if_neg hname]
      rw [List.filter_cons_of_neg hname] at hok
      refine ih hrest (fun hall => hok fun n hn hevent => ?_) fun err hwhy =>
        herr err (hwhy.imp_right hlater)
      rcases List.mem_cons.1 hn with rfl | hn
      · exact absurd hevent hname
      · exact hall n hn hevent

omit [DecidableEq H] in
/-- The event files of a directory are those with a database. -/
theorem mem_directory {n : Text} (hn : isEventFileName n = true) :
    n ∈ w.directory ↔ w.files.lookup n ≠ none := by
  have hkeys : n ∈ w.files.keys ↔ w.files.lookup n ≠ none := by
    rw [← AList.mem_keys, ← AList.lookup_isSome, Option.isSome_iff_ne_none]
  have hcatalog : n ≠ ['c', 'a', 't', 'a', 'l', 'o', 'g', '.', 'd', 'b'] := by
    rintro rfl
    revert hn
    decide
  unfold World.directory
  rw [List.mem_append, hkeys]
  refine or_iff_right fun hmem => hcatalog ?_
  split at hmem
  · exact List.mem_singleton.1 hmem
  · cases hmem

theorem names_rangesOfSummaries (l : List EventFileSummary) :
    (rangesOfSummaries l).map EventFileRange.name = l.map EventFileSummary.name := by
  induction l with
  | nil => rfl
  | cons s l ih =>
    cases l with
    | nil => rfl
    | cons s' l =>
      show (rangeOfSummary false s :: rangesOfSummaries (s' :: l)).map EventFileRange.name = _
      rw [List.map_cons, List.map_cons, ih]
      rfl

omit [DecidableEq H] in
/-- The rebuilt ranges are those of the event files, each once. -/
theorem names_rebuiltRanges (names : List Text) :
    ((rebuiltRanges w names).map EventFileRange.name).Perm (names.filter isEventFileName) := by
  unfold rebuiltRanges
  rw [names_rangesOfSummaries]
  refine ((List.perm_insertionSort summaryLe _).map EventFileSummary.name).trans ?_
  rw [List.map_map]
  exact List.Perm.of_eq (List.map_id'' (fun _ => rfl) _)

omit [DecidableEq H] in
theorem nodup_directory (w : World H) : (w.directory.filter isEventFileName).Nodup := by
  have hcatalog : isEventFileName ['c', 'a', 't', 'a', 'l', 'o', 'g', '.', 'd', 'b'] = false := by decide
  unfold World.directory
  rw [List.filter_append]
  split
  · rw [List.filter_singleton, hcatalog]
    exact w.files.keys_nodup.filter _
  · exact w.files.keys_nodup.filter _

/-- **The rebuild** writes the ranges that the files say, or it changes nothing. -/
theorem wp_rebuild {Q : Except Abort (List EventFileRange) → World H → Prop}
    (hG : ∀ o : StoreOp, o.isAppend = false → C.guarantee o w w)
    (hok : ∀ w', (∀ n, isEventFileName n = true → w.files.lookup n ≠ none → Readable w n) →
      RangesUpdated (fun _ => rebuiltRanges w w.directory) w w' →
      C.guarantee (.replaceTransaction (rebuiltRanges w w.directory)) w w' ∧
        Q (.ok (rebuiltRanges w w.directory)) w')
    (herr : ∀ err, ¬Calm C ∨ w.catalog.bind Db.ranges = none ∨
      (∃ n, isEventFileName n = true ∧ w.files.lookup n ≠ none ∧ ¬Readable w n) → Q (.error err) w) :
    wp C rebuildEventFileRanges Q w := by
  -- both branches end in the transaction that replaces the rows
  have hreplace : ∀ {ranges : List EventFileRange},
      (∀ n, isEventFileName n = true → w.files.lookup n ≠ none → Readable w n) →
      rebuiltRanges w w.directory = ranges →
      wp C ((replaceEventFileRanges ranges).bind fun _ => pure ranges) Q w := by
    rintro ranges hall rfl
    rw [wp_bind]
    refine wp_replaceEventFileRanges (fun o ho => hG o (isAppend_of_onCatalog ho)) (fun w' hw' => hok w' hall hw')
      fun err hwhy => herr _ ?_
    rcases hwhy with hC | hnone | hdup
    · exact .inl hC
    · exact .inr (.inl hnone)
    · -- the names come from one listing of the directory, hence each once
      exact absurd ((names_rebuiltRanges w.directory).nodup_iff.2 (nodup_directory w)) hdup
  unfold rebuildEventFileRanges discoverEventFileSummaries
  simp only [bind_eq]
  rw [wp_bind, wp_bind]
  refine wp_listDirectory (hG _ rfl) (fun names hperm => ?_) fun err hC => herr _ (.inl hC)
  show wp C (summarizeEventFiles names) _ w
  have hmem : ∀ n, isEventFileName n = true → (n ∈ names ↔ w.files.lookup n ≠ none) :=
    fun n hn => hperm.mem_iff.trans (mem_directory hn)
  refine wp_summarizeEventFiles hG (fun n hn hevent => (hmem n hevent).1 hn) (fun hall => ?_)
    fun err hwhy => herr _ (hwhy.imp_right fun ⟨n, hn, hevent, hnot⟩ =>
      .inr ⟨n, hevent, (hmem n hevent).1 hn, hnot⟩)
  have hread : ∀ n, isEventFileName n = true → w.files.lookup n ≠ none → Readable w n :=
    fun n hevent hfile => hall n ((hmem n hevent).2 hfile) hevent
  have hsorted := rebuiltRanges_perm (w := w) hperm
  dsimp only
  split
  · -- no event file: the rows are replaced by none
    rename_i hempty
    refine hreplace hread ?_
    rw [← hsorted]
    unfold rebuiltRanges
    rw [List.isEmpty_iff.1 hempty]
    rfl
  · refine hreplace hread ?_
    rw [← hsorted]
    rfl

/-! ## Opening the catalog -/

/-- The migration of the catalog. -/
def catalogSchema : Migration where
  name := "001_catalog_schema"
  sql := [.createTable .eventFileRanges,
    .createIndexIfNotExists "idx_event_file_ranges_range" .eventFileRanges]

/-- The row of the migration, among those of a catalog. -/
def catalogRow (rows : List MigrationRow) : Option MigrationRow :=
  rows.find? fun row => row.name = catalogSchema.name

/-- The migration has been applied and has its row, or nothing of it has been done. -/
def Db.CatalogReady (d : Db) : Prop :=
  match catalogRow (d.migrations.getD []) with
  | some row => row.checksum = catalogSchema.checksum ∧ d.ranges.isSome
  | none => d.ranges = none

/-- The catalog is ready, or it is not there yet. -/
def CatalogReady (w : World H) : Prop := ∀ d, w.catalog = some d → d.CatalogReady

/-- A statement on a catalog that is there. -/
theorem wp_sql_catalog {s : Stmt} {d : Db} {Q : Except Abort s.Ans → World H → Prop}
    (hG : ∀ o w w', C.guarantee o w w') (hd : w.catalog = some d)
    (hok : ∀ a d', s.exec d = .ok (a, d') → Q (.ok a) (if s.isQuery then w else w.setDb .catalog d'))
    (herr : ∀ err, ¬Calm C ∨ (∃ x, s.exec d = .error x) → Q (.error err) w) :
    wp C (sql .catalog s) Q w := by
  have hdb : w.db .catalog = some d := hd
  refine wp_sql (hG _ _ _) (fun d₁ a d' hd₁ hex => ⟨hG _ _ _, ?_⟩) fun err he => herr _ ?_
  · obtain rfl : d = d₁ := Option.some.inj (hdb.symm.trans hd₁)
    exact hok a d' hex
  · refine he.imp_right fun hwhy => ?_
    rcases hwhy with hnone | ⟨d₁, x, hd₁, hex⟩
    · rw [hdb] at hnone
      cases hnone
    · obtain rfl : d = d₁ := Option.some.inj (hdb.symm.trans hd₁)
      exact ⟨x, hex⟩

/-- A statement on the catalog that writes it. -/
theorem wp_write_catalog {s : Stmt} {d d' : Db} {a : s.Ans} {Q : Except Abort s.Ans → World H → Prop}
    (hG : ∀ o w w', C.guarantee o w w') (hd : w.catalog = some d) (hex : s.exec d = .ok (a, d'))
    (hquery : s.isQuery = false) (hok : Q (.ok a) (w.setDb .catalog d'))
    (herr : ∀ err, ¬Calm C → Q (.error err) w) : wp C (sql .catalog s) Q w := by
  refine wp_sql_catalog hG hd (fun a₁ d₁ hex₁ => ?_) fun err hwhy => herr _ ?_
  · obtain ⟨rfl, rfl⟩ := Prod.mk.inj (Except.ok.inj (hex.symm.trans hex₁))
    rw [hquery]
    exact hok
  · refine hwhy.resolve_right ?_
    rintro ⟨x, hx⟩
    rw [hex] at hx
    cases hx

/-- The migration is applied where it is not recorded: it creates the table. -/
theorem wp_applyMigration_catalog (hG : ∀ o w w', C.guarantee o w w') {d : Db} {rows : List MigrationRow}
    {Q : Except Abort Unit → World H → Prop} (hd : w.catalog = some d) (hrows : d.migrations = some rows)
    (hnone : catalogRow rows = none)
    (hok : ∀ w', d.ranges = none → (w'.catalog.bind Db.ranges).isSome → Q (.ok ()) w')
    (herr : ∀ err w', ¬Calm C ∨ d.ranges ≠ none → Q (.error err) w') :
    wp C (applyMigration .catalog catalogSchema) Q w := by
  show wp C (((sql .catalog (.schema (.createTable .eventFileRanges))).bind fun _ =>
    (sql .catalog (.schema (.createIndexIfNotExists "idx_event_file_ranges_range"
      .eventFileRanges))).bind fun _ => pure ()).bind fun _ =>
        sql .catalog (.recordMigration catalogSchema.name catalogSchema.checksum)) Q w
  rw [wp_bind, wp_bind]
  by_cases hranges : d.ranges = none
  · have hexec : (Stmt.schema (.createTable .eventFileRanges)).exec d =
        .ok ((), { d with ranges := some [] }) := by
      simp [Stmt.exec, Db.hasTable, hranges, Db.create]
    refine wp_write_catalog hG hd hexec rfl ?_ fun err hC => herr _ _ (.inl hC)
    rw [wp_bind]
    refine wp_write_catalog hG rfl (a := ()) rfl rfl ?_ fun err hC => herr _ _ (.inl hC)
    refine wp_write_catalog hG rfl (a := ()) (Stmt.exec_recordMigration.2 ⟨rows, hrows, ?_, rfl⟩) rfl
      (hok _ hranges rfl) fun err hC => herr _ _ (.inl hC)
    exact fun row hrow => by simpa using List.find?_eq_none.1 hnone row hrow
  · refine wp_sql_catalog hG hd (fun a d' hex => ?_) fun err _ => herr _ _ (.inr hranges)
    obtain ⟨rs, hrs⟩ := Option.ne_none_iff_exists'.1 hranges
    simp [Stmt.exec, Db.hasTable, hrs] at hex

/-- What the result says about a catalog that was `d`, if there was one. -/
def OpensIfReady (C : Contract (storeMachine h)) (d : Option Db) (r : Except Abort Unit) (w' : World H) :
    Prop :=
  (Calm C → (∀ d', d = some d' → d'.CatalogReady) → r = .ok () ∧ (w'.catalog.bind Db.ranges).isSome) ∧
    (r = .ok () → (w'.catalog.bind Db.ranges).isSome → ∀ d', d = some d' → d'.CatalogReady)

theorem OpensIfReady.error {w' : World H} {d : Option Db} {err : Abort}
    (hwhy : ¬Calm C ∨ ¬∀ d', d = some d' → d'.CatalogReady) : OpensIfReady C d (.error err) w' := by
  refine ⟨fun hC hready => ?_, fun h => by cases h⟩
  rcases hwhy with hnot | hnot
  · exact absurd hC hnot
  · exact absurd hready hnot

theorem wp_runMigrations_catalog (hG : ∀ o w w', C.guarantee o w w') {d : Db} (hd : w.catalog = some d) :
    wp C (runMigrations .catalog catalogMigrations) (OpensIfReady C (some d)) w := by
  have hself : ∀ {P : Db → Prop}, (∀ d', some d = some d' → P d') ↔ P d :=
    ⟨fun h => h d rfl, fun h d' hd' => Option.some.inj hd' ▸ h⟩
  unfold runMigrations
  simp only [bind_eq]
  rw [wp_bind]
  refine wp_write_catalog hG hd (a := ()) rfl rfl ?_ fun err hC => .error (.inl hC)
  rw [wp_bind]
  refine wp_sql_catalog hG rfl (fun rows d₁ hex => ?_) fun err hwhy => .error (.inl ?_)
  · obtain ⟨hrows, -⟩ := Stmt.exec_loadAppliedMigrations.1 hex
    obtain rfl : d.migrations.getD [] = rows := Option.some.inj hrows
    show wp C ((runMigration .catalog (d.migrations.getD []) catalogSchema).bind fun _ => pure ()) _
      (w.setDb .catalog _)
    rw [wp_bind]
    unfold runMigration
    cases hrow : catalogRow (d.migrations.getD []) with
    | some row =>
      -- recorded: the checksum is compared
      have hfind : ((d.migrations.getD []).find? fun r => r.name = catalogSchema.name) = some row := hrow
      rw [hfind]
      have hready : d.CatalogReady ↔ row.checksum = catalogSchema.checksum ∧ d.ranges.isSome := by
        unfold Db.CatalogReady
        rw [hrow]
      show wp C (verifyMigrationChecksum catalogSchema row.checksum) _ _
      unfold verifyMigrationChecksum
      by_cases hsum : row.checksum = catalogSchema.checksum
      · rw [if_neg (not_not.2 hsum)]
        refine ⟨fun _ hok => ⟨rfl, ?_⟩, fun _ hranges => ?_⟩
        · exact (hready.1 (hself.1 hok)).2
        · exact hself.2 (hready.2 ⟨hsum, hranges⟩)
      · rw [if_pos hsum]
        exact .error (.inr fun hok => hsum (hready.1 (hself.1 hok)).1)
    | none =>
      have hfind : ((d.migrations.getD []).find? fun r => r.name = catalogSchema.name) = none := hrow
      rw [hfind]
      have hready : d.CatalogReady ↔ d.ranges = none := by
        unfold Db.CatalogReady
        rw [hrow]
      refine wp_applyMigration_catalog hG rfl rfl hrow (fun w' hranges hsome => ?_) fun err w' hwhy => ?_
      · exact ⟨fun _ _ => ⟨rfl, hsome⟩, fun _ _ => hself.2 (hready.2 hranges)⟩
      · exact .error (hwhy.imp_right fun hne hok => hne (hready.1 (hself.1 hok)))
  · refine hwhy.resolve_right ?_
    rintro ⟨x, hx⟩
    rw [Stmt.exec_loadAppliedMigrations.2 ⟨rfl, rfl⟩] at hx
    cases hx

/-- **Opening a catalog** gives its table of ranges if and only if it is ready, as far as no step
fails. -/
theorem wp_openCatalog_ready (hG : ∀ o w w', C.guarantee o w w') :
    wp C openCatalog (OpensIfReady C w.catalog) w := by
  unfold openCatalog
  simp only [bind_eq]
  rw [wp_bind]
  intro e he
  refine ⟨hG _ _ _, ?_⟩
  show wp C (orEs (World.step h (.buildDatabase .catalog) e w).1) _
    (World.step h (.buildDatabase .catalog) e w).2
  simp only [World.step]
  cases hfault : e.fault with
  | some message => exact .error (.inl fun hC => by simp [(hC _ e w he).1] at hfault)
  | none =>
    -- what follows the opening is the same with a new catalog and with one there was
    have hrest : ∀ {w₁ : World H} {d : Db}, w₁.catalog = some d →
        (∀ {r w'}, OpensIfReady C (some d) r w' → OpensIfReady C w.catalog r w') →
        wp C ((configureDatabase .catalog).bind fun _ => (getConnection .catalog).bind fun _ =>
          runMigrations .catalog catalogMigrations) (OpensIfReady C w.catalog) w₁ := by
      intro w₁ d hd himp
      have hdb : w₁.db .catalog = some d := hd
      rw [wp_bind]
      refine wp_configureDatabase (hG _ _ _) ?_ fun err hC => .error (.inl hC)
      rw [wp_bind]
      refine wp_getConnection (hG _ _ _) (fun _ => ?_) fun err hwhy => .error (.inl ?_)
      · exact wp_mono (wp_runMigrations_catalog hG hd) fun r w' hr => himp hr
      · exact hwhy.resolve_right (by rw [hdb]; simp)
    cases hcat : w.catalog with
    | some d =>
      have hdb : (w.db .catalog).isSome := by
        show w.catalog.isSome
        rw [hcat]
        rfl
      -- the database is as it was
      rw [← hcat]
      simp only [hdb, if_true]
      exact hrest hcat fun hr => by rw [hcat]; exact hr
    | none =>
      have hdb : ¬(w.db .catalog).isSome := by
        show ¬w.catalog.isSome
        rw [hcat]
        simp
      rw [← hcat]
      simp only [hdb]
      -- the empty one is made, and the migrations run on it
      refine hrest (d := {}) rfl fun hr => ?_
      rw [hcat]
      exact ⟨fun hC _ => hr.1 hC fun d' hd' => by
        obtain rfl := Option.some.inj hd'
        exact rfl, fun _ _ d' hd' => by cases hd'⟩

end Rebuild

/-! ## Files that hold the log one behind the other -/

/-- The event file `name` holds the versions behind `lo`, up to its append head `hi`. -/
def World.Holds (w : World Unit) (lo : Int) (name : Text) (hi : Int) : Prop :=
  w.headOf name = some hi ∧ Block (lo + 1) hi (w.rowsOf name)

/-- The event files are `names`, and each goes on from where the one before it has ended. -/
structure Shelved (w : World Unit) (names : List Text) : Prop extends Ledger w where
  storable : ∀ e ∈ w.log, e.Storable
  nodup : names.Nodup
  files : ∀ n, n ∈ names ↔ w.files.lookup n ≠ none
  tables : ∀ n ∈ names, ∃ d, w.files.lookup n = some d ∧ d.events.isSome
  accepted : ∀ n ∈ names, ∃ v, parsePartitionName n = .ok v
  stacked : Tiles.Stacked w.Holds 0 names w.log.length

/-- The ranges of files in the order of their events. -/
def World.shelfRanges (w : World Unit) (names : List Text) : List EventFileRange :=
  rangesOfSummaries (names.map w.summary)

theorem rangesOfSummaries_concat (l : List EventFileSummary) (s : EventFileSummary) :
    rangesOfSummaries (l ++ [s]) = l.map (rangeOfSummary false) ++ [rangeOfSummary true s] := by
  induction l with
  | nil => rfl
  | cons a l ih =>
    cases l with
    | nil => rfl
    | cons b l =>
      show rangeOfSummary false a :: rangesOfSummaries (b :: l ++ [s]) = _
      rw [ih]
      rfl

/-- Only the last range is not sealed. -/
theorem unsealed_rangesOfSummaries (l : List EventFileSummary) (s : EventFileSummary) :
    ((rangesOfSummaries (l ++ [s])).filter fun r => !r.isSealed) = [rangeOfSummary true s] := by
  rw [rangesOfSummaries_concat]
  refine filter_unsealed (List.Perm.refl _) (fun r hr => ?_) rfl
  obtain ⟨a, -, rfl⟩ := List.mem_map.1 hr
  rfl

section Shelved

variable {w w' : World Unit} {names init : List Text} {name n : Text} {lo hi : Int}

/-- What a summary says of a file that goes on from `lo`. -/
theorem World.Holds.summary (h : w.Holds lo name hi) : w.summary name = ⟨name, lo + 1, hi⟩ := by
  obtain ⟨hhead, hblock⟩ := h
  have hfirst : ((w.rowsOf name).map EventRow.version).min?.getD (hi + 1) = lo + 1 := by
    rcases hblock with ⟨hrows, hlo⟩ | ⟨⟨row, hrow, hv⟩, -, hbounds⟩
    · rw [hrows]
      exact hlo
    · have hmin : ((w.rowsOf name).map EventRow.version).min? = some (lo + 1) := by
        refine List.min?_eq_some_iff.2 ⟨List.mem_map.2 ⟨row, hrow, hv⟩, fun v hv => ?_⟩
        obtain ⟨row', hrow', rfl⟩ := List.mem_map.1 hv
        exact (hbounds row' hrow').1
      rw [hmin]
      rfl
  unfold World.summary
  rw [hhead]
  show (⟨name, ((w.rowsOf name).map EventRow.version).min?.getD (hi + 1), hi⟩ : EventFileSummary) = _
  rw [hfirst]

theorem World.Holds.le (lo : Int) (name : Text) (hi : Int) (h : w.Holds lo name hi) : lo ≤ hi := by
  have := h.2.first_le
  omega

/-- What a file holds does not depend on the others. -/
theorem World.Holds.of_file (h : w.Holds lo name hi)
    (hfile : w'.files.lookup name = w.files.lookup name) : w'.Holds lo name hi := by
  have hrows : w'.rowsOf name = w.rowsOf name := by rw [World.rowsOf, hfile, World.rowsOf]
  have hhead : w'.headOf name = w.headOf name := by rw [World.headOf, hfile, World.headOf]
  exact ⟨by rw [hhead]; exact h.1, by rw [hrows]; exact h.2⟩

theorem World.shelfRanges_eq (h : names = init ++ [n]) : w.shelfRanges names =
    init.map (fun m => rangeOfSummary false (w.summary m)) ++ [rangeOfSummary true (w.summary n)] := by
  unfold World.shelfRanges
  rw [h, List.map_append, List.map_singleton, rangesOfSummaries_concat, List.map_map]
  rfl

/-- A range of the shelf is that of one of its files. -/
theorem World.mem_shelfRanges {r : EventFileRange} (hr : r ∈ w.shelfRanges names) :
    ∃ n ∈ names, r.name = n ∧ r.path = n ∧ r.firstVersion = (w.summary n).firstVersion ∧
      ∀ l, r.lastVersion = some l → l = (w.summary n).currentVersion := by
  rcases names.eq_nil_or_concat with rfl | ⟨init, n, h⟩
  · cases hr
  · rw [List.concat_eq_append] at h
    rw [World.shelfRanges_eq h] at hr
    rcases List.mem_append.1 hr with hr | hr
    · obtain ⟨m, hm, rfl⟩ := List.mem_map.1 hr
      exact ⟨m, by rw [h]; exact List.mem_append_left _ hm, rfl, rfl, rfl,
        fun l hl => (Option.some.inj hl).symm⟩
    · obtain rfl := List.mem_singleton.1 hr
      exact ⟨n, by rw [h]; simp, rfl, rfl, rfl, fun l hl => by cases hl⟩

theorem World.names_shelfRanges : (w.shelfRanges names).map EventFileRange.name = names := by
  unfold World.shelfRanges
  rw [names_rangesOfSummaries, List.map_map]
  exact List.map_id'' (fun _ => rfl) _

namespace Shelved

variable (hs : Shelved w names)
include hs

/-- The place of a file among the events. -/
theorem holds (hn : n ∈ names) : ∃ lo hi, w.Holds lo n hi ∧ 0 ≤ lo ∧ hi ≤ w.log.length :=
  hs.stacked.mem World.Holds.le hn

theorem readable (hn : n ∈ names) : Readable w n where
  accepted := hs.accepted n hn
  events := hs.tables n hn
  head := by
    obtain ⟨lo, hi, ⟨hhead, -⟩, -⟩ := hs.holds hn
    rw [hhead]
    simp

theorem isEventFileName (hn : n ∈ names) : isEventFileName n = true :=
  isEventFileName_of_accepted (hs.accepted n hn)

/-- The event files of the directory. -/
theorem directory : (w.directory.filter Events.isEventFileName).Perm names := by
  refine (List.perm_ext_iff_of_nodup (nodup_directory w) hs.nodup).2 fun n => ?_
  rw [List.mem_filter]
  constructor
  · rintro ⟨hn, hevent⟩
    exact (hs.files n).2 ((mem_directory hevent).1 hn)
  · intro hn
    have hevent := hs.isEventFileName hn
    exact ⟨(mem_directory hevent).2 ((hs.files n).1 hn), hevent⟩

/-- The last file has all events behind it. -/
theorem last (h : names = init ++ [n]) : ∃ lo, w.Holds lo n w.log.length := by
  have hstacked := hs.stacked
  rw [h] at hstacked
  obtain ⟨lo, -, hn⟩ := Tiles.stacked_concat.1 hstacked
  exact ⟨lo, hn⟩

/-- A file ends before a later one begins. -/
theorem pairwise : names.Pairwise fun m n => (w.summary m).currentVersion < (w.summary n).firstVersion := by
  refine (hs.stacked.pairwise World.Holds.le).imp fun {m n} h => ?_
  obtain ⟨a, b, c, d, hm, hn, hle⟩ := h
  rw [hm.summary, hn.summary]
  show b < c + 1
  omega

/-- A file that is not empty has its first version, and its head, among its rows. -/
theorem first_le (hn : n ∈ names) : (w.summary n).firstVersion ≤ (w.summary n).currentVersion + 1 := by
  obtain ⟨lo, hi, h, -⟩ := hs.holds hn
  rw [h.summary]
  exact h.2.first_le

/-- The rows of the files are all events. -/
theorem covered : (names.flatMap w.rowsOf).Perm (w.log.map EventEnvelope.toRow) := by
  refine List.Perm.trans ?_ hs.rows
  have hkeys : names.Perm w.files.keys := by
    refine (List.perm_ext_iff_of_nodup hs.nodup w.files.keys_nodup).2 fun n => ?_
    rw [hs.files, ← AList.mem_keys, ← AList.lookup_isSome, Option.isSome_iff_ne_none]
  refine (hkeys.flatMap_right w.rowsOf).trans (List.Perm.of_eq ?_)
  show (w.files.entries.map Sigma.fst).flatMap w.rowsOf = w.allRows
  rw [List.flatMap_map]
  refine List.flatMap_congr fun f hf => ?_
  have hlookup : w.files.lookup f.1 = some f.2 := List.mem_dlookup w.files.nodupKeys hf
  rw [World.rowsOf, hlookup]
  rfl

/-- A file begins where a later one does, or before. -/
theorem firsts : names.Pairwise fun m n => (w.summary m).firstVersion ≤ (w.summary n).firstVersion :=
  hs.pairwise.imp_of_mem fun {m n} hm _ h => by
    have := hs.first_le hm
    omega

theorem of_same (hfiles : ∀ n, w'.files.lookup n = w.files.lookup n) (hl : Ledger w')
    (hlog : w'.log = w.log) : Shelved w' names where
  toLedger := hl
  storable := by
    rw [hlog]
    exact hs.storable
  nodup := hs.nodup
  files n := by
    rw [hfiles]
    exact hs.files n
  tables n hn := by
    rw [hfiles]
    exact hs.tables n hn
  accepted := hs.accepted
  stacked := by
    rw [hlog]
    exact hs.stacked.congr fun n _ a b h => h.of_file (hfiles n)

/-! ### The ranges -/

theorem rebuiltRanges_eq : rebuiltRanges w w.directory = rebuiltRanges w names := by
  have hfilter : names.filter Events.isEventFileName = names :=
    List.filter_eq_self.2 fun n hn => hs.isEventFileName hn
  unfold rebuiltRanges
  rw [hfilter, insertionSort_summaries ((hs.directory.map w.summary).trans
    (List.perm_insertionSort summaryLe _).symm) (List.pairwise_insertionSort summaryLe _)]

/-- **Rebuilding the catalog** of files whose names agree with their order, where two of them begin with
one version. -/
theorem rebuilt (hties : names.Pairwise fun m n =>
      (w.summary m).firstVersion = (w.summary n).firstVersion → m < n) :
    rebuiltRanges w w.directory = w.shelfRanges names := by
  unfold rebuiltRanges World.shelfRanges
  rw [insertionSort_summaries (hs.directory.map w.summary)]
  refine List.pairwise_map.2 ((hs.firsts.and hties).imp fun {m n} h => ?_)
  rcases h.1.lt_or_eq with hlt | heq
  · exact .inl hlt
  · exact .inr ⟨heq, (h.2 heq).le⟩

/-- **A catalog with the ranges of its files** has tiles, the newest of which is open. -/
theorem tiled (hne : names ≠ []) (hranges : w.ranges = w.shelfRanges names) :
    Tiled w ∧ OpenNewest w := by
  obtain ⟨init, n, h⟩ : ∃ init n, names = init ++ [n] := by
    rcases names.eq_nil_or_concat with rfl | ⟨init, n, h⟩
    · exact absurd rfl hne
    · exact ⟨init, n, by rw [h, List.concat_eq_append]⟩
  have heq := hranges.trans (World.shelfRanges_eq h)
  have hnames : w.ranges.map EventFileRange.name = names := by
    rw [hranges]
    exact World.names_shelfRanges
  -- every range is the one of its file
  have hmem : ∀ r ∈ w.ranges, _ := fun r hr => World.mem_shelfRanges (by rw [← hranges]; exact hr)
  obtain ⟨lo, hlast⟩ := hs.last h
  refine ⟨{ toLedger := hs.toLedger, storable := hs.storable, nodup := ?_, path := fun r hr => ?_,
            tables := fun r hr => ?_, covered := ?_, blocks := fun r hr => ?_, order := ?_, newest := ?_ },
    ?_⟩
  · rw [hnames]
    exact hs.nodup
  · obtain ⟨m, -, hname, hpath, -⟩ := hmem r hr
    rw [hname, hpath]
  · obtain ⟨m, hm, hname, -⟩ := hmem r hr
    rw [hname]
    exact hs.tables m hm
  · refine List.Perm.trans (List.Perm.of_eq ?_) hs.covered
    rw [← hnames, List.flatMap_map]
  · obtain ⟨m, hm, hname, -, hfirst, -⟩ := hmem r hr
    obtain ⟨a, b, hholds, -⟩ := hs.holds hm
    rw [hname, hfirst, hholds.summary]
    exact ⟨b, hholds.1, hholds.2⟩
  · -- a file ends before the next one begins
    have horder : (w.ranges.map EventFileRange.name).Pairwise fun m n =>
        (w.summary m).currentVersion < (w.summary n).firstVersion := by
      rw [hnames]
      exact hs.pairwise
    refine (List.pairwise_map.1 horder).imp_of_mem fun {r r'} hr hr' hlt => ?_
    obtain ⟨m, hm, hname, -, hfirst, -⟩ := hmem r hr
    obtain ⟨m', -, hname', -, hfirst', -⟩ := hmem r' hr'
    rw [hname, hname'] at hlt
    rw [hfirst, hfirst', hname]
    refine ⟨?_, fun row hrow => ?_⟩
    · have := hs.first_le hm
      omega
    · obtain ⟨a, b, hholds, -⟩ := hs.holds hm
      have hle := (hholds.2.bounds hrow).2
      rw [hholds.summary] at hlt
      exact lt_of_le_of_lt hle hlt
  · -- the newest range is the last file, which is open
    refine ⟨_, _, heq, hlast.1, fun l hl => (by cases hl), fun r' hr' l hl row hrow => ?_⟩
    obtain ⟨m, hm, rfl⟩ := List.mem_map.1 hr'
    obtain ⟨a, b, hholds, -⟩ := hs.holds (n := m) (by rw [h]; exact List.mem_append_left _ hm)
    obtain rfl := Option.some.inj hl
    rw [hholds.summary]
    exact (hholds.2.bounds hrow).2
  · refine ⟨_, _, heq, fun r' hr' => ?_, rfl, rfl⟩
    obtain ⟨m, -, rfl⟩ := List.mem_map.1 hr'
    rfl

/-! ### The active file -/

/-- The file that becomes active is the last one in the order of the rebuild. -/
theorem active (hne : names ≠ []) : ∃ n ∈ names, (∀ m ∈ names, summaryLe (w.summary m) (w.summary n)) ∧
    ((rebuiltRanges w w.directory).filter fun r => !r.isSealed) =
      [rangeOfSummary true (w.summary n)] := by
  have hperm := (List.perm_insertionSort summaryLe _).trans (hs.directory.map w.summary)
  have hsorted := List.pairwise_insertionSort summaryLe
    ((w.directory.filter Events.isEventFileName).map w.summary)
  unfold rebuiltRanges
  generalize ((w.directory.filter Events.isEventFileName).map w.summary).insertionSort summaryLe = l
    at hperm hsorted
  rcases l.eq_nil_or_concat with rfl | ⟨l, s, rfl⟩
  · exact absurd (List.map_eq_nil_iff.1 hperm.symm.eq_nil) hne
  · rw [List.concat_eq_append] at hperm hsorted ⊢
    obtain ⟨n, hn, rfl⟩ := List.mem_map.1 (hperm.mem_iff.1 (List.mem_append_right _ (List.mem_singleton.2 rfl)))
    refine ⟨n, hn, fun m hm => ?_, unsealed_rangesOfSummaries l (w.summary n)⟩
    rcases List.mem_append.1 (hperm.mem_iff.2 (List.mem_map_of_mem hm)) with hmem | hmem
    · exact (List.pairwise_append.1 hsorted).2.2 _ hmem _ (List.mem_singleton.2 rfl)
    · rw [List.mem_singleton.1 hmem]
      exact .inr ⟨rfl, le_refl _⟩

end Shelved

/-- If the newest file is not empty, the files that begin with its first version have earlier names. -/
def NewestLast (w : World Unit) (names : List Text) : Prop :=
  ∀ init n, names = init ++ [n] → w.rowsOf n ≠ [] → ∀ m ∈ init,
    (w.summary m).firstVersion = (w.summary n).firstVersion → m < n

/-- **The file that becomes active** has all events behind it if the newest one is empty, or comes last
among those that begin with its first version. -/
theorem Shelved.active_head_iff (hs : Shelved w names) (hn : n ∈ names)
    (hlast : ∀ m ∈ names, summaryLe (w.summary m) (w.summary n)) :
    w.headOf n = some (w.log.length : Int) ↔ NewestLast w names := by
  obtain ⟨lo, hi, hholds, -, hle⟩ := hs.holds hn
  have hsummary := hholds.summary
  have hhead : w.headOf n = some (w.log.length : Int) ↔ hi = w.log.length := by
    rw [hholds.1, Option.some.injEq]
  rw [hhead]
  constructor
  · rintro rfl init newest h hrows m hm hfirst
    have hmem : m ∈ names := by rw [h]; exact List.mem_append_left _ hm
    obtain ⟨start, hnewest⟩ := hs.last h
    have hlater := (List.pairwise_append.1 (by rw [← h]; exact hs.pairwise)).2.2
    -- a file before the newest one has not all events behind it, as the newest one stores some
    have hnot : ∀ m ∈ init, (w.summary m).currentVersion < w.log.length := by
      intro m hm
      have hlt := hlater m hm newest (List.mem_singleton.2 rfl)
      rw [hnewest.summary] at hlt
      obtain ⟨row, hrow⟩ := List.exists_mem_of_ne_nil _ hrows
      have hbounds := hnewest.2.bounds hrow
      exact lt_of_lt_of_le hlt (hbounds.1.trans hbounds.2)
    obtain rfl : n = newest := by
      rw [h] at hn
      rcases List.mem_append.1 hn with hn | hn
      · have := hnot n hn
        rw [hsummary] at this
        exact absurd this (lt_irrefl _)
      · exact List.mem_singleton.1 hn
    have hne : m ≠ n := by
      have hnodup := hs.nodup
      rw [h, List.nodup_append] at hnodup
      exact hnodup.2.2 m hm n (List.mem_singleton.2 rfl)
    rcases hlast m hmem with hlt | ⟨-, hname⟩
    · exact absurd hfirst hlt.ne
    · exact lt_of_le_of_ne hname hne
  · intro hnewest
    obtain ⟨init, last, h⟩ : ∃ init last, names = init ++ [last] := by
      rcases names.eq_nil_or_concat with rfl | ⟨init, last, h⟩
      · cases hn
      · exact ⟨init, last, by rw [h, List.concat_eq_append]⟩
    obtain ⟨start, hfinal⟩ := hs.last h
    have hmax := hlast last (by rw [h]; simp)
    rw [hfinal.summary, hsummary] at hmax
    by_cases hrows : w.rowsOf last = []
    · -- the newest file is empty, and so is every one that begins with the same version
      have hstart : start = w.log.length := by
        rcases hfinal.2 with ⟨-, hstart⟩ | ⟨⟨row, hrow, -⟩, -⟩
        · omega
        · rw [hrows] at hrow
          cases hrow
      have hfirst := hholds.2.first_le
      rcases hmax with hlt | ⟨heq, -⟩
      · have : start + 1 < lo + 1 := hlt
        omega
      · have : start + 1 = lo + 1 := heq
        omega
    · rw [h] at hn
      rcases List.mem_append.1 hn with hn | hn
      · -- the newest one would come behind the file that comes last
        have hlt := (List.pairwise_append.1 (by rw [← h]; exact hs.firsts)).2.2 n hn last
          (List.mem_singleton.2 rfl)
        rw [hsummary, hfinal.summary] at hlt
        have hfirst : (w.summary n).firstVersion = (w.summary last).firstVersion := by
          rw [hsummary, hfinal.summary]
          rcases hmax with hmax | ⟨heq, -⟩
          · exact absurd hmax (not_lt.2 hlt)
          · exact heq.symm
        have hname := hnewest init last h hrows n hn hfirst
        rcases hmax with hmax | ⟨-, hmax⟩
        · exact absurd hmax (not_lt.2 hlt)
        · exact absurd hname (not_lt.2 hmax)
      · obtain rfl := List.mem_singleton.1 hn
        exact Option.some.inj (hholds.1.symm.trans hfinal.1)

end Shelved

/-! ## Opening the partition -/

/-- The name of a range is not one of an event file. -/
def NotAccepted (name : Text) : Prop := ∀ v, parsePartitionName name ≠ .ok v

/-- The store with its handle open. -/
def World.held (w : World Unit) (rotation : RotationPolicy) (a : ActivePartition) : World Unit :=
  { w with handles := Function.update w.handles () (some (rotation, a)) }

section Opening

variable {C : Contract (storeMachine ())} {w : World Unit} {rotation : RotationPolicy}

/-- Opening a partition, given what becomes of it once the catalog has been opened. -/
theorem wp_openPartitioned_of {Q : Except Abort Unit → World Unit → Prop}
    (hG : ∀ (o : StoreOp) w₁ w₂, o.opensCatalog = true → CatalogOpened w w₁ → CatalogOpened w w₂ →
      C.guarantee o w₁ w₂)
    (hinit : ∀ w₁, CatalogOpened w w₁ → ((w₁.catalog.bind Db.ranges).isSome → CatalogReady w) →
      (Calm C → CatalogReady w → (w₁.catalog.bind Db.ranges).isSome) →
      wp C (initializeActivePartition rotation) (fun r w' => match r with
        | .ok a => C.guarantee (.openHandle rotation a) w' (w'.held rotation a) ∧
            Q (.ok ()) (w'.held rotation a)
        | .error e => Q (.error e) w') w₁)
    (herr : ∀ e w', CatalogOpened w w' → ¬Calm C ∨ ¬CatalogReady w → Q (.error e) w') :
    wp C (openPartitioned rotation) Q w := by
  have hw : CatalogOpened w w := ⟨SameFiles.refl w, rfl⟩
  unfold openPartitioned
  simp only [bind_eq]
  show wp C (createDirAll.bind _) Q w
  rw [wp_bind]
  refine wp_look rfl (hG _ w w rfl hw hw) fun e he => ?_
  cases hr : (World.step () .createDirAll e w).1 with
  | error err => exact herr _ w hw (.inl fun hC => by simp [World.step, (hC _ e w he).1] at hr)
  | ok u =>
    show wp C (openCatalog.bind _) Q w
    have hopen := wp_and (wp_openCatalog (C := C) (w := w) fun o e w₁ ho _ hsame hranges => ?_)
      (wp_openCatalog_ready (C := { assume := C.assume, guarantee := fun _ _ _ => True }) (w := w)
        fun _ _ _ => trivial) fun _ _ _ he => he
    · refine wp_bind_of hopen (fun _ w₁ hw₁ => ?_) fun err w₁ hw₁ => ?_
      · rw [wp_bind]
        refine wp_mono (hinit w₁ ⟨hw₁.1.1, hw₁.1.2⟩ (hw₁.2.2 rfl) fun hC hready =>
          (hw₁.2.1 hC hready).2) fun r w' hr => ?_
        cases r with
        | error err => exact hr
        | ok a => exact fun e _ => hr
      · refine herr _ w₁ ⟨hw₁.1.1, hw₁.1.2⟩ (not_and_or.1 fun hboth => ?_)
        cases (hw₁.2.1 hboth.1 hboth.2).1
    · obtain ⟨hsame', hranges'⟩ := step_opensCatalog (h := ()) (e := e) (w := w₁) ho
      exact hG o w₁ _ ho ⟨hsame, hranges⟩ ⟨hsame.trans hsame', hranges'.trans hranges⟩

/-- A check of names that are accepted goes on. -/
theorem wp_checkRangeNames_of {α : Type} {ranges : List EventFileRange} {f : Unit → StoreProgram α}
    {Q : Except Abort α → World Unit → Prop}
    (hok : (∀ r ∈ ranges, ∃ v, parsePartitionName r.name = .ok v) → wp C (f ()) Q w)
    (herr : ∀ e, (∃ r ∈ ranges, NotAccepted r.name) → Q (.error e) w) :
    wp C ((checkRangeNames ranges).bind f) Q w := by
  induction ranges with
  | nil => exact hok fun r hr => by cases hr
  | cons range ranges ih =>
    show wp C (((ofAbort (parsePartitionName range.name)).bind _).bind f) Q w
    cases hparse : parsePartitionName range.name with
    | error e =>
      refine herr e ⟨range, List.mem_cons_self, fun v hv => ?_⟩
      rw [hparse] at hv
      cases hv
    | ok v =>
      refine ih (fun hall => hok fun r hr => ?_) fun e ⟨r, hr, hnot⟩ =>
        herr e ⟨r, List.mem_cons_of_mem _ hr, hnot⟩
      rcases List.mem_cons.1 hr with rfl | hr
      · exact ⟨v, hparse⟩
      · exact hall r hr

/-- The unsealed ranges decide whether the catalog is rebuilt. -/
theorem wp_initialize_of {Q : Except Abort ActivePartition → World Unit → Prop}
    (hG : ∀ o : StoreOp, o.isAppend = false → C.guarantee o w w)
    (hsingle : ∀ r, (w.ranges.filter fun r => !r.isSealed) = [r] →
      (∀ r ∈ w.ranges, ∃ v, parsePartitionName r.name = .ok v) → (w.catalog.bind Db.ranges).isSome →
      wp C (openUnsealed rotation (some r)) Q w)
    (hrebuild : (w.ranges.filter fun r => !r.isSealed).length ≠ 1 →
      (∀ r ∈ w.ranges, ∃ v, parsePartitionName r.name = .ok v) → (w.catalog.bind Db.ranges).isSome →
      wp C (rebuildEventFileRanges.bind fun ranges =>
        openUnsealed rotation (maxRange (ranges.filter fun r => !r.isSealed))) Q w)
    (herr : ∀ e, ¬Calm C ∨ w.catalog.bind Db.ranges = none ∨ (∃ r ∈ w.ranges, NotAccepted r.name) →
      Q (.error e) w) : wp C (initializeActivePartition rotation) Q w := by
  have hperm := List.perm_insertionSort rangeLe w.ranges
  have hunsealed := hperm.filter fun r => !r.isSealed
  rw [initializeActivePartition_eq, wp_bind]
  refine wp_getAllEventFileRanges (fun o ho => hG o (isAppend_of_onCatalog ho)) (fun hthere => ?_)
    fun err hwhy => herr _ (hwhy.imp_right .inl)
  show wp C ((checkRangeNames (w.ranges.insertionSort rangeLe)).bind _) Q w
  refine wp_checkRangeNames_of (fun hall => ?_) fun e ⟨r, hr, hnot⟩ =>
    herr e (.inr (.inr ⟨r, hperm.mem_iff.1 hr, hnot⟩))
  have haccepted : ∀ r ∈ w.ranges, ∃ v, parsePartitionName r.name = .ok v :=
    fun r hr => hall r (hperm.mem_iff.2 hr)
  by_cases hone : (w.ranges.filter fun r => !r.isSealed).length = 1
  · obtain ⟨r, hr⟩ := List.length_eq_one_iff.1 hone
    rw [hr] at hunsealed
    have hsorted := List.perm_singleton.1 hunsealed
    rw [hsorted, if_neg (by simp)]
    show wp C (openUnsealed rotation (maxRange ((w.ranges.insertionSort rangeLe).filter
      fun r => !r.isSealed))) Q w
    rw [hsorted]
    exact hsingle r hr haccepted hthere
  · rw [if_pos (by rw [hunsealed.length_eq]; exact hone)]
    exact hrebuild hone haccepted hthere

/-- The file of an unsealed range that is there becomes active. -/
theorem wp_openUnsealed_some {Q : Except Abort ActivePartition → World Unit → Prop} {r : EventFileRange}
    {v : Int × Option Nat}
    (hG : ∀ o : StoreOp, o.isAppend = false → C.guarantee o w w)
    (hparse : parsePartitionName r.name = .ok v) (hfile : w.files.lookup r.path ≠ none)
    (hok : Q (.ok ⟨r.name, v.1, v.2⟩) w) (herr : ∀ err, ¬Calm C → Q (.error err) w) :
    wp C (openUnsealed rotation (some r)) Q w := by
  show wp C ((ofAbort (parsePartitionName r.name)).bind _) Q w
  rw [hparse]
  show wp C ((openPartitionDb r.path).bind _) Q w
  rw [wp_bind]
  exact wp_openPartitionDb_present hG hfile hok herr

/-- The rebuild of files that hold the log, and the opening of the one that comes last. -/
theorem Shelved.wp_rebuild_open {names : List Text} {Q : Except Abort ActivePartition → World Unit → Prop}
    (hs : Shelved w names) (hne : names ≠ []) (hG : ∀ o : StoreOp, o.isAppend = false → C.guarantee o w w)
    (hok : ∀ w' n v, n ∈ names → (∀ m ∈ names, summaryLe (w.summary m) (w.summary n)) →
      parsePartitionName n = .ok v → RangesUpdated (fun _ => rebuiltRanges w w.directory) w w' →
      C.guarantee (.replaceTransaction (rebuiltRanges w w.directory)) w w' ∧
        (∀ o : StoreOp, o.isAppend = false → C.guarantee o w' w') ∧ Q (.ok ⟨n, v.1, v.2⟩) w' ∧
        ∀ err, ¬Calm C → Q (.error err) w')
    (herr : ∀ err, ¬Calm C ∨ w.catalog.bind Db.ranges = none → Q (.error err) w) :
    wp C (rebuildEventFileRanges.bind fun ranges =>
      openUnsealed rotation (maxRange (ranges.filter fun r => !r.isSealed))) Q w := by
  obtain ⟨n, hn, hlast, hactive⟩ := hs.active hne
  obtain ⟨v, hv⟩ := hs.accepted n hn
  rw [wp_bind]
  refine wp_rebuild hG (fun w' _ hw' => ?_) fun err hwhy => herr err ?_
  · obtain ⟨hreplace, hstay, hdone, hfail⟩ := hok w' n v hn hlast hv hw'
    refine ⟨hreplace, ?_⟩
    dsimp only
    rw [hactive]
    refine wp_openUnsealed_some hstay hv ?_ hdone hfail
    show w'.files.lookup n ≠ none
    rw [hw'.files]
    exact (hs.files n).1 hn
  · rcases hwhy with hC | hnone | ⟨m, hevent, hfile, hnot⟩
    · exact .inl hC
    · exact .inr hnone
    · exact absurd (hs.readable ((hs.files m).2 hfile)) hnot

end Opening

/-- The partition is open, its catalog rebuilt. -/
structure Rebuilt (rotation : RotationPolicy) (names : List Text) (w w' : World Unit) : Prop where
  files : w'.files = w.files
  log : w'.log = w.log
  ranges : w'.ranges = rebuiltRanges w names
  active : ∃ a, w'.handles () = some (rotation, a) ∧ a.name ∈ names ∧
    (w'.headOf a.name = some (w'.log.length : Int) ↔ NewestLast w names)

/-- **Rebuilding a damaged catalog**: whatever ranges are lost or flipped, so that not just one is
unsealed, and in whatever order the directory is listed, the partition opens with the ranges that its
files say. The file that becomes active has all events behind it if and only if the newest one is empty,
or comes last by name among the files that begin with its first version. -/
theorem rebuild_active_iff {w w' : World Unit} {names : List Text} {rotation : RotationPolicy}
    {r : Except Abort Unit} (hs : Shelved w names) (hne : names ≠ []) (hready : CatalogReady w)
    (haccepted : ∀ r ∈ w.ranges, ∃ v, parsePartitionName r.name = .ok v)
    (hdamaged : (w.ranges.filter fun r => !r.isSealed).length ≠ 1)
    (hruns : Runs (calm ()) (openPartitioned rotation) w r w') :
    r = .ok () ∧ Rebuilt rotation names w w' := by
  have hcalm : Calm (calm ()) := fun _ _ _ he => he
  have hpost : wp (calm ()) (openPartitioned rotation)
      (fun r w' => r = .ok () ∧ Rebuilt rotation names w w') w := ?_
  · exact hruns.post hpost
  refine wp_openPartitioned_of (fun _ _ _ _ _ _ => trivial) (fun w₁ hw₁ _ hthere => ?_)
    fun e w' _ hwhy => ?_
  · have hs₁ : Shelved w₁ names := hs.of_same (fun n => by rw [hw₁.files]) (hs.toLedger.sameFiles hw₁.1) hw₁.log
    have hsome := hthere hcalm hready
    refine wp_initialize_of (fun _ _ => trivial) (fun r hr _ _ => ?_) (fun _ _ _ => ?_) fun e hwhy => ?_
    · -- exactly one unsealed range would be no damage
      rw [hw₁.ranges] at hr
      rw [hr] at hdamaged
      exact absurd rfl hdamaged
    · refine hs₁.wp_rebuild_open hne (fun _ _ => trivial) (fun w₂ n v hn hlast hv hw₂ => ?_)
        fun err hwhy => absurd hwhy (by simp [hcalm, Option.isSome_iff_ne_none.1 hsome])
      refine ⟨trivial, fun _ _ => trivial, ⟨trivial, rfl, ?_⟩, fun err hC => absurd hcalm hC⟩
      -- the last of the rebuilt ranges becomes active
      have hhead := hs₁.active_head_iff hn hlast
      refine ⟨hw₂.files.trans hw₁.files, hw₂.log.trans hw₁.log, ?_, ⟨n, v.1, v.2⟩, ?_, hn, ?_⟩
      · show w₂.ranges = _
        rw [hw₂.ranges, hs₁.rebuiltRanges_eq, rebuiltRanges, summary_of_files hw₁.files]
        rfl
      · show Function.update w₂.handles () (some (rotation, _)) () = _
        rw [Function.update_self]
      · have hnewest : NewestLast w₁ names ↔ NewestLast w names := by
          simp only [NewestLast, summary_of_files hw₁.files, World.rowsOf, hw₁.files]
        rw [← hnewest, ← hhead]
        show w₂.headOf n = some (w₂.log.length : Int) ↔ _
        rw [World.headOf, hw₂.files, hw₂.log, World.headOf]
    · -- no error: nothing fails, the table is there and the names are accepted
      rcases hwhy with hC | hnone | ⟨r, hr, hnot⟩
      · exact absurd hcalm hC
      · rw [hnone] at hsome
        cases hsome
      · rw [hw₁.ranges] at hr
        obtain ⟨v, hv⟩ := haccepted r hr
        exact absurd hv (hnot v)
  · rcases hwhy with hC | hnot
    · exact absurd hcalm hC
    · exact absurd hready hnot

/-- **The order of the directory does not matter**: two rebuilds of one store, each listing the directory
in an order of its own, write the same ranges, or both fail and change nothing. -/
theorem rebuild_ignores_order {w w₁ w₂ : World Unit} {r₁ r₂ : Except Abort (List EventFileRange)}
    (h₁ : Runs (calm ()) rebuildEventFileRanges w r₁ w₁)
    (h₂ : Runs (calm ()) rebuildEventFileRanges w r₂ w₂) :
    SameFiles w w₁ ∧ SameFiles w w₂ ∧ w₁.ranges = w₂.ranges ∧
      ((∃ ranges, r₁ = .ok ranges ∧ r₂ = .ok ranges ∧ w₁.ranges = ranges) ∨
        (∃ e₁ e₂, r₁ = .error e₁ ∧ r₂ = .error e₂) ∧ w₁.ranges = w.ranges) := by
  have hcalm : Calm (calm ()) := fun _ _ _ he => he
  -- whether the rebuild succeeds is up to the store
  have hpost : wp (calm ()) rebuildEventFileRanges (fun r w' => SameFiles w w' ∧
      ((∃ ranges, r = .ok ranges ∧ w'.ranges = ranges ∧ ranges = rebuiltRanges w w.directory ∧
          (w.catalog.bind Db.ranges).isSome ∧
          ∀ n, isEventFileName n = true → w.files.lookup n ≠ none → Readable w n) ∨
        (∃ e, r = .error e) ∧ w'.ranges = w.ranges ∧ (w.catalog.bind Db.ranges = none ∨
          ∃ n, isEventFileName n = true ∧ w.files.lookup n ≠ none ∧ ¬Readable w n))) w := by
    refine wp_rebuild (fun _ _ => trivial) (fun w' hall hw' => ⟨trivial, hw'.toSameFiles, .inl ?_⟩)
      fun err hwhy => ⟨SameFiles.refl w, .inr ⟨⟨err, rfl⟩, rfl, hwhy.resolve_left (not_not.2 hcalm)⟩⟩
    obtain ⟨d, rs, hd, hrs, -⟩ := hw'.catalog
    exact ⟨_, rfl, hw'.ranges, rfl, by simp [hd, hrs], hall⟩
  have hnot : (w.catalog.bind Db.ranges).isSome →
      (∀ n, isEventFileName n = true → w.files.lookup n ≠ none → Readable w n) →
      ¬(w.catalog.bind Db.ranges = none ∨
        ∃ n, isEventFileName n = true ∧ w.files.lookup n ≠ none ∧ ¬Readable w n) := by
    rintro hsome hall (hnone | ⟨n, hevent, hfile, hunread⟩)
    · rw [hnone] at hsome
      cases hsome
    · exact hunread (hall n hevent hfile)
  obtain ⟨hsame₁, hr₁⟩ := h₁.post hpost
  obtain ⟨hsame₂, hr₂⟩ := h₂.post hpost
  refine ⟨hsame₁, hsame₂, ?_⟩
  rcases hr₁ with ⟨ranges, hok₁, hranges₁, heq₁, hsome, hall⟩ | ⟨⟨e₁, he₁⟩, hranges₁, hwhy₁⟩
  · rcases hr₂ with ⟨ranges', hok₂, hranges₂, heq₂, -⟩ | ⟨-, -, hwhy₂⟩
    · obtain rfl := heq₁.trans heq₂.symm
      exact ⟨hranges₁.trans hranges₂.symm, .inl ⟨ranges, hok₁, hok₂, hranges₁⟩⟩
    · exact absurd hwhy₂ (hnot hsome hall)
  · rcases hr₂ with ⟨ranges', -, -, -, hsome, hall⟩ | ⟨⟨e₂, he₂⟩, hranges₂, -⟩
    · exact absurd hwhy₁ (hnot hsome hall)
    · exact ⟨hranges₁.trans hranges₂.symm, .inr ⟨⟨e₁, e₂, he₁, he₂⟩, hranges₁⟩⟩

/-- A store with the files of two hours. -/
def twoFiles : World Unit := opened.setDb (.eventFile "events_19700101T01.db".toList) (freshFile 0)

/-- The rebuild, when the directory is listed as `listing`. -/
def rebuildListed (listing : List Text) : Except Abort (List EventFileRange) × World Unit :=
  eval (storeMachine ()) (fun _ => { listing := listing }) 0 rebuildEventFileRanges twoFiles

theorem rebuild_ignores_order_twoFiles :
    (rebuildListed twoFiles.directory.reverse).2.ranges = (rebuildListed twoFiles.directory).2.ranges ∧
      (rebuildListed twoFiles.directory).2.ranges.length = 2 := by
  have hruns : ∀ listing, Runs (calm ()) rebuildEventFileRanges twoFiles (rebuildListed listing).1
      (rebuildListed listing).2 := fun listing =>
    eval_runs (C := calm ()) (fun _ _ _ => ⟨rfl, fun _ => rfl⟩) 0 _ _
  exact ⟨(rebuild_ignores_order (hruns _) (hruns _)).2.2.1, by decide +kernel⟩

end Events
