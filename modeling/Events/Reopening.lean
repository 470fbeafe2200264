import Events.CursorReads

/-!
# Reopening a partition

A partition that was closed between two calls has one range that is not sealed, the newest. Opening it
again reads the ranges, rebuilds nothing, and makes the file of that range active; where it fails, it has
changed no file and no range.

* **`wp_openPartitioned_clean`** — opening a partition with one unsealed range.
* **`lawful_reopenedDiscipline`** — the calls, clean reopens among them, keep the tiles.
* **`loadAfterVersion_never_panics`** — `limit - events.len()` does not go below zero.
* **`reads_logical_stream`** — a bounded read answers the first events after its cursor.
-/

namespace Events

open Proc Program Discipline

/-! ## Opening -/

/-- The rest of an open: the newest unsealed range is opened, and there is a first one if there is none. -/
def openUnsealed (rotation : RotationPolicy) (unsealed : Option EventFileRange) :
    StoreProgram ActivePartition :=
  unsealed.elim (createNewActivePartition rotation 1) fun activeRef =>
    (ofAbort (parsePartitionName activeRef.name)).bind fun new =>
      (openPartitionDb activeRef.path).bind fun _ =>
        pure { name := activeRef.name, startMs := new.1, ordinal := new.2 }

theorem initializeActivePartition_eq (rotation : RotationPolicy) :
    initializeActivePartition rotation = getAllEventFileRanges.bind fun ranges =>
      (checkRangeNames ranges).bind fun _ =>
        (if (ranges.filter fun r => !r.isSealed).length ≠ 1 then rebuildEventFileRanges
          else pure ranges).bind fun ranges =>
            openUnsealed rotation (maxRange (ranges.filter fun r => !r.isSealed)) := by
  unfold initializeActivePartition
  simp only [bind_eq]
  congr 1
  funext ranges
  congr 1
  funext _
  split <;>
  · congr 1
    funext ranges
    cases maxRange (ranges.filter fun r => !r.isSealed) <;> rfl

/-- Opening a partition stores no event, and sets the head of a new file to zero. -/
theorem all_openPartitioned (rotation : RotationPolicy) :
    (openPartitioned rotation).All fun o : StoreOp => o.setsHeadTo 0 = true := by
  -- a database is made with the head 0 only
  have hcreate : ∀ name, (createPartitionDb name 0).All fun o : StoreOp => o.setsHeadTo 0 = true := by
    refine fun name => All.bind (all_openPartitionDb rfl rfl) fun _ => ?_
    refine All.bind (all_connect rfl) fun _ => All.bind ?_ fun _ => all_sql rfl
    exact all_runMigrations rfl rfl (fun _ => rfl) fun _ _ => rfl
  have hcheck : ∀ ranges, (checkRangeNames ranges).All fun o : StoreOp => o.setsHeadTo 0 = true := by
    intro ranges
    induction ranges with
    | nil => trivial
    | cons range ranges ih => exact All.bind (all_done _) fun _ => ih
  -- the others only look
  have hsummarize : ∀ names, (summarizeEventFiles names).All
      fun o : StoreOp => o.setsHeadTo 0 = true := by
    intro names
    induction names with
    | nil => trivial
    | cons name names ih =>
      rw [summarizeEventFiles]
      split
      · refine All.bind (All.bind (all_done _) fun _ => ?_) fun summary => ih.bind fun rest => trivial
        refine All.bind (all_openPartitionDb rfl rfl) fun _ => All.bind (all_connect rfl) fun _ => ?_
        refine All.bind (All.bind (all_sql rfl) fun _ => all_orEs _) fun head => ?_
        exact All.bind (all_sql rfl) fun _ => trivial
      · exact ih
  have hreplace : ∀ ranges, (replaceEventFileRanges ranges).All
      fun o : StoreOp => o.setsHeadTo 0 = true :=
    fun ranges => All.bind (all_getConnection rfl) fun _ => ⟨rfl, fun r => all_orEs r⟩
  have hrebuild : rebuildEventFileRanges.All fun o : StoreOp => o.setsHeadTo 0 = true := by
    refine All.bind (All.bind ⟨rfl, fun r => all_orEs r⟩ fun names => hsummarize names)
      fun summaries => ?_
    split
    · exact (hreplace _).bind fun _ => trivial
    · exact (hreplace _).bind fun _ => trivial
  have hnew : (createNewActivePartition rotation 1).All fun o : StoreOp => o.setsHeadTo 0 = true := by
    refine All.bind (p := now) ⟨rfl, fun t => trivial⟩ fun t => ?_
    refine All.bind ?_ fun startMs => All.bind (all_orEs _) fun name => ?_
    · cases floorToWindowMs t.unixTimestampMs rotation.window <;> trivial
    · refine (hcreate _).bind fun _ => All.bind ?_ fun _ => trivial
      exact All.bind (all_getConnection rfl) fun _ => all_sql rfl
  have hpick : ∀ unsealed, (openUnsealed rotation unsealed).All
      fun o : StoreOp => o.setsHeadTo 0 = true := by
    intro unsealed
    cases unsealed with
    | none => exact hnew
    | some activeRef =>
      refine All.bind (all_done _) fun _ => All.bind ?_ fun _ => trivial
      exact all_openPartitionDb rfl rfl
  -- the parts in their order
  unfold openPartitioned
  refine All.bind ⟨rfl, fun r => all_orEs r⟩ fun _ => ?_
  refine All.bind (all_openCatalog.mono fun o ho => setsHeadTo_of_opensCatalog ho) fun _ => ?_
  refine All.bind ?_ fun active => ⟨rfl, fun _ => trivial⟩
  rw [initializeActivePartition_eq]
  refine All.bind (All.bind (all_getConnection rfl) fun _ => all_sql rfl) fun ranges => ?_
  refine (hcheck ranges).bind fun _ => All.bind ?_ fun ranges => hpick _
  split
  · exact hrebuild
  · exact all_done _

section Opening

variable {C : Contract (storeMachine ())} {w : World Unit}

/-- The ranges that are not sealed, when only the newest one is not. -/
theorem filter_unsealed {rs init : List EventFileRange} {r : EventFileRange}
    (hperm : rs.Perm (init ++ [r])) (hinit : ∀ r' ∈ init, r'.isSealed = true)
    (hr : r.isSealed = false) : (rs.filter fun r => !r.isSealed) = [r] := by
  have hnone : (init.filter fun r => !r.isSealed) = [] := by
    refine List.filter_eq_nil_iff.2 fun r' hr' => ?_
    rw [hinit r' hr']
    decide
  have hfilter := hperm.filter fun r => !r.isSealed
  rw [List.filter_append, hnone, List.nil_append, List.filter_singleton, hr] at hfilter
  exact List.perm_singleton.1 hfilter

/-- A check of the names only ends or goes on. -/
theorem wp_checkRangeNames {α : Type} {ranges : List EventFileRange} {f : Unit → StoreProgram α}
    {Q : Except Abort α → World Unit → Prop} (hok : wp C (f ()) Q w) (herr : ∀ e, Q (.error e) w) :
    wp C ((checkRangeNames ranges).bind f) Q w := by
  induction ranges with
  | nil => exact hok
  | cons range ranges ih =>
    show wp C (((ofAbort (parsePartitionName range.name)).bind _).bind f) Q w
    cases parsePartitionName range.name with
    | error e => exact herr e
    | ok _ => exact ih

/-- The catalog has been opened, and nothing else has happened. -/
structure CatalogOpened (w w' : World Unit) : Prop extends SameFiles w w' where
  ranges : w'.ranges = w.ranges

theorem CatalogOpened.db {w w' : World Unit} (h : CatalogOpened w w') (name : Text) :
    w'.db (.eventFile name) = w.db (.eventFile name) := by
  show w'.files.lookup name = w.files.lookup name
  rw [h.files]

/-- The file of the newest range becomes active. -/
theorem wp_initialize_clean {rotation : RotationPolicy} {w₀ : World Unit}
    {Q : Except Abort ActivePartition → World Unit → Prop} (ht : Tiled w₀) (ho : OpenNewest w₀)
    (hw : CatalogOpened w₀ w) (hG : ∀ o : StoreOp, o.isAppend = false → C.guarantee o w w)
    (hok : ∀ a, Newest w₀ a.name → parsePartitionName a.name = .ok (a.startMs, a.ordinal) →
      Q (.ok a) w)
    (herr : ∀ e, Q (.error e) w) : wp C (initializeActivePartition rotation) Q w := by
  obtain ⟨init, r, hinit, hsealed, hr, -⟩ := ho
  rw [initializeActivePartition_eq, wp_bind]
  refine wp_getAllEventFileRanges (fun o ho => hG o (isAppend_of_onCatalog ho)) (fun _ => ?_)
    fun err _ => herr _
  show wp C ((checkRangeNames (w.ranges.insertionSort rangeLe)).bind _) Q w
  refine wp_checkRangeNames ?_ herr
  have hunsealed : ((w.ranges.insertionSort rangeLe).filter fun r => !r.isSealed) = [r] := by
    have hperm : (w.ranges.insertionSort rangeLe).Perm (init ++ [r]) := by
      rw [← hinit, ← hw.ranges]
      exact List.perm_insertionSort rangeLe _
    exact filter_unsealed hperm hsealed hr
  rw [hunsealed, if_neg (by simp)]
  show wp C (openUnsealed rotation (maxRange
    ((w.ranges.insertionSort rangeLe).filter fun r => !r.isSealed))) Q w
  rw [hunsealed]
  show wp C ((ofAbort (parsePartitionName r.name)).bind _) Q w
  cases hparse : parsePartitionName r.name with
  | error e => exact herr e
  | ok new =>
    have hmem : r ∈ w₀.ranges := by rw [hinit]; simp
    obtain ⟨d, hd, -⟩ := ht.tables r hmem
    have hdb : w.db (.eventFile r.path) = some d := by
      rw [hw.db, ht.path r hmem]
      exact hd
    show wp C ((openPartitionDb r.path).bind _) Q w
    unfold openPartitionDb
    simp only [bind_eq]
    rw [wp_bind, wp_bind]
    intro e _
    -- the file is there: building it again changes nothing
    have hsame : (World.step () (.buildDatabase (.eventFile r.path)) e w).2 = w := by
      simp only [World.step]
      cases e.fault with
      | some message => rfl
      | none => simp [hdb]
    rw [hsame]
    refine ⟨hG _ rfl, ?_⟩
    cases (World.step () (.buildDatabase (.eventFile r.path)) e w).1 with
    | error err => exact herr _
    | ok u =>
      refine wp_configureDatabase (hG _ rfl) ?_ fun err _ => herr _
      exact hok ⟨r.name, new.1, new.2⟩ ⟨init, r, hinit, rfl⟩ hparse

/-- The files, the events and the ranges are as they were. -/
structure Unchanged (w w' : World Unit) : Prop where
  files : w'.files = w.files
  log : w'.log = w.log
  ranges : w'.ranges = w.ranges

theorem CatalogOpened.unchanged {w w' : World Unit} (h : CatalogOpened w w') : Unchanged w w' :=
  ⟨h.files, h.log, h.ranges⟩

theorem Unchanged.tiled {w w' : World Unit} (h : Unchanged w w') (ht : Tiled w) : Tiled w' := by
  refine ht.of_same (ht.toLedger.of_rows ?_ h.log) h.log h.ranges fun r _ => by rw [h.files]
  rw [World.allRows, h.files]
  exact List.Perm.refl _

theorem Unchanged.openNewest {w w' : World Unit} (h : Unchanged w w') (ho : OpenNewest w) :
    OpenNewest w' := by
  obtain ⟨init, r, hinit, hrest⟩ := ho
  exact ⟨init, r, by rw [h.ranges, hinit], hrest⟩

/-- **Opening a partition** that has one unsealed range, the newest: its file is active then, or the open
has failed and nothing has changed. -/
theorem wp_openPartitioned_clean {rotation : RotationPolicy}
    {Q : Except Abort Unit → World Unit → Prop} (ht : Tiled w) (ho : OpenNewest w)
    (hG : ∀ (o : StoreOp) w₁ w₂, o.isAppend = false → Unchanged w w₁ → Unchanged w w₂ →
      C.guarantee o w₁ w₂)
    (hok : ∀ a w', Unchanged w w' → w'.handles () = some (rotation, a) → Newest w a.name →
      parsePartitionName a.name = .ok (a.startMs, a.ordinal) → Q (.ok ()) w')
    (herr : ∀ e w', CatalogOpened w w' → Q (.error e) w') :
    wp C (openPartitioned rotation) Q w := by
  have hstay : ∀ w₁, CatalogOpened w w₁ → ∀ o : StoreOp, o.isAppend = false →
      C.guarantee o w₁ w₁ := fun w₁ hw₁ o ho => hG o w₁ w₁ ho hw₁.unchanged hw₁.unchanged
  have hw : CatalogOpened w w := ⟨SameFiles.refl w, rfl⟩
  unfold openPartitioned
  simp only [bind_eq]
  show wp C (createDirAll.bind _) Q w
  rw [wp_bind]
  refine wp_look rfl (hstay w hw _ rfl) fun e _ => ?_
  cases (World.step () .createDirAll e w).1 with
  | error err => exact herr _ w hw
  | ok u =>
    show wp C (openCatalog.bind _) Q w
    -- the catalog is opened: of the files nothing changes
    refine wp_bind_of (wp_openCatalog fun o e w₁ ho _ hsame hranges => ?_) (fun _ w₁ hw₁ => ?_)
      fun err w₁ hw₁ => herr _ w₁ ⟨hw₁.1, hw₁.2⟩
    · obtain ⟨hsame', hranges'⟩ := step_opensCatalog (h := ()) (e := e) (w := w₁) ho
      have hw₁ : CatalogOpened w w₁ := ⟨hsame, hranges⟩
      have hw₂ : CatalogOpened w (World.step () o e w₁).2 :=
        ⟨hsame.trans hsame', hranges'.trans hranges⟩
      exact hG o w₁ _ (isAppend_of_opensCatalog ho) hw₁.unchanged hw₂.unchanged
    · have hw₁ : CatalogOpened w w₁ := ⟨hw₁.1, hw₁.2⟩
      rw [wp_bind]
      -- the newest file is taken up as the active one
      refine wp_initialize_clean ht ho hw₁ (hstay w₁ hw₁) (fun a ha hparse => ?_)
        fun err => herr _ w₁ hw₁
      intro e _
      have hopened : Unchanged w (World.step () (.openHandle rotation a) e w₁).2 :=
        ⟨hw₁.files, hw₁.log, hw₁.ranges⟩
      refine ⟨hG _ w₁ _ rfl hw₁.unchanged hopened, hok a _ hopened ?_ ha hparse⟩
      show Function.update w₁.handles () (some (rotation, a)) () = some (rotation, a)
      rw [Function.update_self]

end Opening

/-! ## Runs with clean reopens -/

/-- The state between two calls, the handle being open or closed. -/
structure Clean (w : World Unit) : Prop where
  tiled : Tiled w
  openNewest : OpenNewest w
  writesNewest : WritesNewest w

/-- The calls on one stream, rotating to new files, closing between two calls and opening again. -/
def reopenedDiscipline [SerdeJson] : Discipline (eventStreams Unit) CallStatus where
  allow o e _ := Steady o e
  allowWrite := FreshNote
  restarts := .idle
  inv := Clean
  always := Tiled
  guarantee _ _ _ _ := True
  ghost₀ := CallStatus.ofCall
  ghost o x status := status.after o x

theorem reads_reopenedDiscipline [SerdeJson] : Reads reopenedDiscipline fun _ => True where
  quiet _ ho x status := CallStatus.after_of_not_append ho x status
  refl _ _ _ _ _ := trivial
  clock _ _ _ := trivial

section Clean

variable {w w' : World Unit}

theorem Clean.restart (h : Clean w) : Clean w.restart where
  tiled := Unchanged.tiled (w := w) ⟨rfl, rfl, rfl⟩ h.tiled
  openNewest := Unchanged.openNewest (w := w) ⟨rfl, rfl, rfl⟩ h.openNewest
  writesNewest := fun p a ha => by cases ha

/-- Nothing but the handle has changed, and it writes to the newest file. -/
theorem Clean.of_unchanged (h : Clean w) (hsame : Unchanged w w')
    (hnewest : ∀ p a, w'.handles () = some (p, a) → Newest w a.name) : Clean w' where
  tiled := hsame.tiled h.tiled
  openNewest := hsame.openNewest h.openNewest
  writesNewest := fun p a ha => by
    obtain ⟨init, r, hinit, hname⟩ := hnewest p a ha
    exact ⟨init, r, by rw [hsame.ranges, hinit], hname⟩

/-- A rotation to a new file keeps the store clean; it makes the file active or does nothing. -/
theorem Clean.wp_rotate {C : Contract (storeMachine ())} {rotation : RotationPolicy} {nowMs : Int}
    (hw : Clean w) (hfresh : FreshTarget rotation nowMs w)
    (hcalm : ∀ o e w, o.isAppend = false → C.assume o e w →
      e.fault = none ∧ ∀ i, e.statementFault i = none)
    (hG : ∀ o w₁ w₂, Tiled w₂ → SealedKept w₁ w₂ → C.guarantee o w₁ w₂) :
    wp C (rotatePartitionLocked rotation nowMs)
      (fun _ w' => Clean w' ∧ (w' = w ∨ ∃ new, Turned rotation nowMs new w w')) w := by
  have hrot := wp_rotate_tiled (C := { calm () with guarantee := C.guarantee }) hw.tiled hw.writesNewest
    hfresh fun o w₁ w₂ _ _ ht₂ _ hkept => hG o w₁ w₂ ht₂ (hkept hw.openNewest)
  refine wp_mono (wp_framed (J := fun _ => True) (all_rotatePartitionLocked rotation nowMs) trivial hrot
    fun o ho e w₁ he _ => ⟨hcalm o e w₁ ho he, trivial, id⟩) fun r w' hr => ?_
  obtain ⟨⟨ht, hnewest, hturned⟩, -⟩ := hr
  rcases hturned fun _ _ _ he => he with rfl | ⟨new, hnew⟩
  · exact ⟨hw, .inl rfl⟩
  · exact ⟨⟨ht, hnew.openNewest hw.openNewest, hnewest⟩, .inr ⟨new, hnew⟩⟩

/-- An append keeps the store clean, whatever becomes of it. -/
theorem Clean.appendStep {p : RotationPolicy} {a : ActivePartition} {expected : ExpectedVersion}
    {events : List NewEvent} {baseTime : OffsetDateTime} {e : StoreEnv}
    {r : Except EsError AppendResult} (hw : Clean w) (ha : w.handles () = some (p, a))
    (hadm : Admissible events baseTime) (hstep : AppendStep a.name expected events baseTime e w r w') :
    Clean w' ∧ SealedKept w w' ∧ w'.handles = w.handles ∧ w'.ranges = w.ranges ∧
      ∀ other, (w'.files.lookup other).isSome → (w.files.lookup other).isSome := by
  obtain ⟨ht, -, hhandles, hranges, hfiles, hothers⟩ :=
    hw.tiled.appendStep hw.writesNewest ha hadm.wholeMs hstep
  obtain ⟨init, rn, hinit, hrest⟩ := hw.openNewest
  have hkept := SealedKept.of_append hw.tiled hw.openNewest (hw.writesNewest p a ha) hranges hothers
  refine ⟨⟨ht, ⟨init, rn, by rw [hranges, hinit], hrest⟩, fun p' a' ha' => ?_⟩, hkept, hhandles, hranges,
    hfiles⟩
  rw [hhandles] at ha'
  obtain ⟨init', r', hinit', hname⟩ := hw.writesNewest p' a' ha'
  exact ⟨init', r', by rw [hranges, hinit'], hname⟩

/-- Opening keeps the store clean. -/
theorem Clean.safe_open [SerdeJson] (rotation : RotationPolicy) (w : World Unit) :
    reopenedDiscipline.safe (withWrite (.opening rotation) (openPartitioned rotation))
      (fun _ m status _ => m = .free ∧ status = .other) .free .other w := by
  refine safe_withWrite fun w hw _ => ?_
  have hopen : wp (reopenedDiscipline.contract .other) (openPartitioned rotation)
      (fun _ w' => Clean w') w := ?_
  · exact safe_lift_writing
      ((all_openPartitioned rotation).mono fun o ho =>
        reads_reopenedDiscipline.quiet o (isAppend_of_isUpkeep (isUpkeep_of_setsHeadTo ho))) hopen
      fun r w' hw' => ⟨rfl, hw', rfl, rfl⟩
  refine wp_openPartitioned_clean hw.tiled hw.openNewest ?_ ?_ ?_
  · exact fun o w₁ w₂ _ _ hw₂ => ⟨trivial, hw₂.tiled hw.tiled⟩
  · intro a w' hsame ha hnewest _
    refine hw.of_unchanged hsame fun p' a' ha' => ?_
    obtain ⟨-, rfl⟩ : rotation = p' ∧ a = a' := by simpa [ha] using ha'
    exact hnewest
  · intro e w' hopened
    refine hw.of_unchanged hopened.unchanged fun p' a' ha' => ?_
    rw [hopened.handles] at ha'
    exact hw.writesNewest p' a' ha'

end Clean

/-- **The calls keep the store clean.** -/
theorem lawful_reopenedDiscipline [SerdeJson] : reopenedDiscipline.Lawful AppendPost := by
  refine reads_reopenedDiscipline.lawful_append rfl rfl (fun w hw => hw.tiled)
    (fun _ w hw => hw.restart) nofun (fun rotation w _ _ => Clean.safe_open rotation w) ?_ ?_
  · intro rotation nowMs status w _ hw hfresh
    refine wp_mono (hw.wp_rotate hfresh (fun o e w ho he => ?_) fun o w₁ w₂ ht _ => ⟨trivial, ht⟩)
      fun r w' hr => hr.1
    exact he.resolve_left (by simp [ho])
  · intro expected events baseTime p a e r w w' hw _ ha _ hadm hstep _
    exact ⟨trivial, (hw.appendStep ha hadm hstep).1⟩

/-! ## The limit of a read -/

/-- A query of a file answers at most as many rows as it is asked for. -/
def WithinLimit : (o : StoreOp) → o.Resp → Prop
  | .sql (.eventFile _) (.queryEventsAfterVersion _ n), .ok rows => rows.length ≤ n
  | _, _ => True

theorem withinLimit_step {o : StoreOp} {e : StoreEnv} {w : World Unit} :
    WithinLimit o (World.step () o e w).1 := by
  unfold WithinLimit
  split
  · rename_i hrows
    rw [step_queryEvents hrows, List.length_take]
    omega
  · trivial

theorem collectEventsFromRows_length [SerdeJson] {rows : List EventRow} {events : List EventEnvelope}
    (h : collectEventsFromRows rows = .ok events) : events.length = rows.length := by
  induction rows generalizing events with
  | nil =>
    cases h
    rfl
  | cons row rows ih =>
    rw [collectEventsFromRows_cons] at h
    split at h
    · rename_i e es _ hes
      cases h
      rw [List.length_cons, List.length_cons, ih hes]
    · cases h
    · cases h

/-- The result is no panic. -/
def NoPanic {α : Type} (r : Except Abort α) : Prop := r ≠ .error .panic

theorem noPanic_orEs {α : Type} {r : Except EsError α} {R : Except Abort α → Prop}
    (hok : ∀ a, r = .ok a → R (.ok a)) (herr : ∀ err, R (.error (.es err))) :
    (orEs r : StoreProgram α).Yields WithinLimit R := by
  cases r with
  | ok a => exact hok a rfl
  | error err => exact herr err

theorem yields_getConnection_noPanic {ref : DbRef} :
    (getConnection ref).Yields WithinLimit NoPanic := by
  intro r _
  refine noPanic_orEs (fun a _ => ?_) fun err => ?_
  · nofun
  · unfold NoPanic
    simp

/-- A file gives at most as many events as are still wanted. -/
theorem yields_queryPartition [SerdeJson] (path : Text) (cursor : Int) (n : Nat) :
    (queryPartitionEventsAfterVersion path cursor n).Yields WithinLimit
      fun r => NoPanic r ∧ ∀ events, r = .ok events → events.length ≤ n := by
  unfold queryPartitionEventsAfterVersion
  refine yields_getConnection_noPanic.bind (fun _ _ => ?_) fun e he => ⟨?_, nofun⟩
  · refine Yields.bind (R := fun r => NoPanic r ∧ ∀ rows, r = .ok rows → rows.length ≤ n)
      (fun r hr => ?_) (fun rows hrows => ?_) fun e he => ⟨?_, nofun⟩
    · refine noPanic_orEs (fun rows hok => ⟨by simp [NoPanic], fun rows' hrows => ?_⟩)
        fun err => ⟨by simp [NoPanic], nofun⟩
      cases hrows
      rw [hok] at hr
      exact hr
    · refine noPanic_orEs (fun events hok => ⟨by simp [NoPanic], fun events' hevents => ?_⟩)
        fun err => ⟨by simp [NoPanic], nofun⟩
      cases hevents
      rw [collectEventsFromRows_length hok]
      exact hrows.2 rows rfl
    · simpa [NoPanic] using he.1
  · simpa [NoPanic] using he

theorem yields_loadFromRanges [SerdeJson] (cursor : Int) {limit : Nat} {ranges : List EventFileRange}
    {events : List EventEnvelope} (hle : events.length ≤ limit) :
    (loadFromRanges (fun path n => queryPartitionEventsAfterVersion path cursor n) limit ranges
      events).Yields WithinLimit NoPanic := by
  induction ranges generalizing events with
  | nil => exact fun h => by cases h
  | cons range ranges ih =>
    rw [loadFromRanges, if_neg (by omega)]
    split
    · exact fun h => by cases h
    · refine Yields.bind (yields_queryPartition range.path cursor _) (fun more hmore => ?_) ?_
      · refine ih ?_
        have hmax := hmore.2 more rfl
        rw [List.length_append]
        omega
      · intro e he
        simpa [NoPanic] using he.1

/-- **No bounded read panics**, in whatever state it finds the store. -/
theorem yields_loadAfterVersion [SerdeJson] (cursor : EventStreamVersion) (limit : Nat) :
    (loadAfterVersion cursor limit).Yields WithinLimit NoPanic := by
  unfold loadAfterVersion loadWith
  refine Yields.bind (R := NoPanic) ?_ (fun _ _ => ?_) fun e he => by simpa [NoPanic] using he
  · exact noPanic_orEs (fun a _ => by simp [NoPanic]) fun err => by simp [NoPanic]
  · refine Yields.bind (R := NoPanic) ?_ (fun ranges _ => ?_) fun e he => by simpa [NoPanic] using he
    · refine yields_getConnection_noPanic.bind (fun _ _ => ?_) fun e he => by
        simpa [NoPanic] using he
      intro r _
      exact noPanic_orEs (fun a _ => by simp [NoPanic]) fun err => by simp [NoPanic]
    · refine Yields.bind (yields_loadFromRanges cursor.get (Nat.zero_le limit)) (fun events _ => ?_)
        fun e he => by simpa [NoPanic] using he
      exact fun h => by cases h

theorem loadAfterVersion_never_panics [SerdeJson] (w : World Unit) (cursor : EventStreamVersion)
    (limit : Nat) :
    w.loadAfterVersion cursor limit ≠ .error .panic := by
  have htrue : wp (calm ()) (loadAfterVersion cursor limit) (fun _ _ => True) w :=
    wp_of_runs (fun _ _ _ => trivial) fun _ _ _ => trivial
  exact (wp_eval (C := calm ()) (fun _ _ _ => ⟨rfl, fun _ => rfl⟩) 0
    (wp_yields htrue (yields_loadAfterVersion cursor limit) fun _ _ _ _ => withinLimit_step)).2

/-! ## Runs -/

/-- The events behind a cursor, in a slice of the stream. -/
theorem page_afterCursor {w : World Unit} (hl : Ledger w) (cursor : Int) (limit : Nat) :
    page (AfterCursor cursor) w limit = (w.log.drop cursor.toNat).take limit := by
  have hdrop := drop_versionsFrom hl.versions cursor.toNat
  unfold page
  rw [← hdrop]
  congr 1
  refine List.filter_congr fun e he => decide_eq_decide.2 ?_
  have hpos : e.version.get ∈ versionsFrom 0 w.log.length := by
    rw [← hl.versions]
    exact List.mem_map_of_mem he
  have := mem_versionsFrom.1 hpos
  show cursor < e.version.get ↔ 0 + (cursor.toNat : Int) < e.version.get
  omega

/-- A slice of the stream has consecutive versions. -/
theorem versions_slice {w : World Unit} (hl : Ledger w) (m limit : Nat) :
    ((w.log.drop m).take limit).map (fun e => e.version.get) =
      versionsFrom m ((w.log.drop m).take limit).length := by
  by_cases hm : m ≤ w.log.length
  · obtain ⟨k, hk⟩ := Nat.exists_eq_add_of_le hm
    have hversions := hl.versions
    rw [hk, versionsFrom_add, ← List.take_append_drop m w.log, List.map_append] at hversions
    have hrest := (List.append_inj hversions ?_).2
    · rw [Int.zero_add] at hrest
      exact versionsFrom_prefix hrest (List.take_prefix _ _)
    · rw [List.length_map, List.length_take, length_versionsFrom]
      omega
  · rw [List.drop_of_length_le (by omega)]
    simp [versionsFrom]

section Runs

variable [SerdeJson] {T : Type} [DecidableEq T] {rotation : RotationPolicy} {w₀ : World Unit}
  {tr : List (Label (eventStreams Unit) T × Config (eventStreams Unit) T)}

/-- Every rotation goes to a new file, the stream is closed between two calls only, and no step fails
but the transactions of appends. -/
def ReopensCleanly (c : Config (eventStreams Unit) T) : Label (eventStreams Unit) T → Prop
  | .acquireWrite _ _ note => FreshNote note c.st
  | .op _ _ o e => Steady o e
  | .restart => ∀ t, c.tasks t = none
  | _ => True

omit [SerdeJson] in
theorem FirstOpen.clean {t : OffsetDateTime} {a : ActivePartition} {w : World Unit}
    (h : FirstOpen rotation t a w) : Clean w := ⟨h.tiled, h.openNewest, h.writesNewest⟩

theorem clean_run (hopen : Opens rotation World.empty w₀)
    (hrun : IsRun ReopensCleanly (Config.idle T w₀) tr)
    (hfree : ((lastOf (Config.idle T w₀) tr).lock ()).writer = none) :
    Clean (lastOf (Config.idle T w₀) tr).st := by
  obtain ⟨t, a, hfirst⟩ := firstOpen_of_opens hopen
  have hs := sound_run lawful_reopenedDiscipline (fun c l hl => ?_)
    (sound_idle lawful_reopenedDiscipline hfirst.clean fun _ => .other) hrun
  · exact hs.free hfree
  · cases l <;> exact hl

/-- **Bounded reads** give the logical stream: in every state that appends, rotations to new files and
clean reopens lead to, the read answers the first `limit` events behind the cursor, their versions being
consecutive, iff the payload of each of them is read back from its text; it never panics. -/
theorem reads_logical_stream (hopen : Opens rotation World.empty w₀)
    (hrun : IsRun ReopensCleanly (Config.idle T w₀) tr)
    (hfree : ((lastOf (Config.idle T w₀) tr).lock ()).writer = none) (cursor : EventStreamVersion)
    (limit : Nat) (hpos : 0 < limit) (hle : limit ≤ maxReadLimit) :
    Ledger (lastOf (Config.idle T w₀) tr).st ∧
    (lastOf (Config.idle T w₀) tr).st.loadAfterVersion cursor limit ≠ .error .panic ∧
    ∃ answer, answer =
        ((lastOf (Config.idle T w₀) tr).st.log.drop cursor.get.toNat).take limit ∧
      answer.map (fun e => e.version.get) = versionsFrom cursor.get.toNat answer.length ∧
      ((lastOf (Config.idle T w₀) tr).st.loadAfterVersion cursor limit = .ok answer ↔
        ∀ e ∈ answer, e.payload.IsReadBack) := by
  have hclean := clean_run hopen hrun hfree
  have hl := hclean.tiled.toLedger
  refine ⟨hl, loadAfterVersion_never_panics _ _ _, _, rfl, versions_slice hl _ _, ?_⟩
  rw [← page_afterCursor hl]
  exact loadAfterVersion_iff hclean.tiled hclean.openNewest.newestOpen hpos hle

end Runs

/-! ## Two hours with a reopen -/

/-- The test of `ReopensCleanly` on the calls of one client. -/
def isCleanReopen [SerdeJson] (c : Config (eventStreams Unit) Unit) : Label (eventStreams Unit) Unit → Bool
  | .restart => (c.tasks ()).isNone
  | l => isFreshNote c l

theorem reopensCleanly_of_play [SerdeJson] {ms : List (Move (eventStreams Unit) Unit)}
    {c : Config (eventStreams Unit) Unit}
    {tr : List (Label (eventStreams Unit) Unit × Config (eventStreams Unit) Unit)}
    (h : play ms c = some tr) (hcheck : checks isCleanReopen c tr = true)
    (hms : ∀ t e, Move.turn t e ∈ ms → e.fault = none ∧ ∀ i, e.statementFault i = none) :
    IsRun ReopensCleanly c tr := by
  refine ((play_checks h hcheck).and (play_env h hms)).mono fun c l hl => ?_
  cases l with
  | op t hd o e => exact .inr (hl.2 t hd o e rfl)
  | restart => exact fun _ => Option.isNone_iff_eq_none.1 hl.1
  | acquireWrite t hd note => exact freshNote_of_isFreshNote hl.1
  | _ => trivial

/-- The clock reads one o'clock, after a reopen. -/
def atOneAgain : StoreEnv := { atOne with ids := fun i => ⟨BitVec.ofNat 128 (i + 2)⟩ }

attribute [local instance] SerdeJson.limited

/-- Two appends in two hours, a clean reopen, and one more append. -/
def reopenBetween : List (Move (eventStreams Unit) Unit) :=
  .invoke () () (.append hourly 1 .any [noteEvent]) :: List.replicate 15 (.turn () {}) ++
    .invoke () () (.append hourly 1 .any [noteEvent]) :: List.replicate 40 (.turn () atOne) ++
    .restart :: .invoke () () (.openPartitioned hourly) :: List.replicate 14 (.turn () atOne) ++
    .invoke () () (.append hourly 1 .any [noteEvent]) :: List.replicate 15 (.turn () atOneAgain)

theorem reads_logical_stream_reopenBetween : ∃ tr,
    play reopenBetween (Config.idle Unit opened) = some tr ∧
    (lastOf (Config.idle Unit opened) tr).st.files.keys.length = 2 ∧
    (lastOf (Config.idle Unit opened) tr).st.log.length = 3 ∧
    ∃ answer, answer = ((lastOf (Config.idle Unit opened) tr).st.log.drop 1).take 10 ∧
      (lastOf (Config.idle Unit opened) tr).st.loadAfterVersion ⟨1⟩ 10 = .ok answer := by
  have hplay : ((play reopenBetween (Config.idle Unit opened)).map fun tr =>
      checks isCleanReopen (Config.idle Unit opened) tr &&
      (((lastOf (Config.idle Unit opened) tr).lock ()).writer.isNone &&
      ((lastOf (Config.idle Unit opened) tr).st.files.keys.length == 2 &&
      ((lastOf (Config.idle Unit opened) tr).st.log.length == 3 &&
      (((lastOf (Config.idle Unit opened) tr).st.log.drop 1).take 10).all fun e =>
        e.payload.depth < Json.recursionLimit)))) = some true := by decide +kernel
  obtain ⟨tr, htr, hchecks⟩ := Option.map_eq_some_iff.1 hplay
  simp only [Bool.and_eq_true, beq_iff_eq, List.all_eq_true, decide_eq_true_eq] at hchecks
  obtain ⟨hclean, hwriter, hfiles, hlog, hdepth⟩ := hchecks
  have hrun := reopensCleanly_of_play htr hclean fun t e he => ?_
  · have hfree := Option.isNone_iff_eq_none.1 hwriter
    obtain ⟨-, -, answer, heq, -, hiff⟩ :=
      reads_logical_stream opens_opened hrun hfree ⟨1⟩ 10 (by decide) (by decide)
    subst heq
    exact ⟨tr, htr, hfiles, hlog, _, rfl, hiff.2 fun e he => SerdeJson.inverts_limited.reads _ (hdepth e he)⟩
  · have hcases : e = {} ∨ e = atOne ∨ e = atOneAgain := by
      simpa [reopenBetween, or_assoc] using he
    rcases hcases with rfl | rfl | rfl <;> exact ⟨rfl, fun _ => rfl⟩

/-- An append of a payload that is nested 128 deep. -/
def deepNote : List (Move (eventStreams Unit) Unit) :=
  .invoke () () (.append hourly 1 .any [deepEvent]) :: List.replicate 15 (.turn () {})

/-- The event is stored, and the reads that come to it fail. -/
theorem not_reads_logical_stream_deep : ∃ tr, play deepNote (Config.idle Unit opened) = some tr ∧
    IsRun ReopensCleanly (Config.idle Unit opened) tr ∧
    ((lastOf (Config.idle Unit opened) tr).lock ()).writer = none ∧
    (lastOf (Config.idle Unit opened) tr).st.loadAfterVersion .start 10 ≠
      .ok ((lastOf (Config.idle Unit opened) tr).st.log.take 10) := by
  have hplay : ((play deepNote (Config.idle Unit opened)).map fun tr =>
      checks isCleanReopen (Config.idle Unit opened) tr &&
      (((lastOf (Config.idle Unit opened) tr).lock ()).writer.isNone &&
      !((lastOf (Config.idle Unit opened) tr).st.loadAfterVersion .start 10).isOk)) = some true := by
    decide +kernel
  obtain ⟨tr, htr, hchecks⟩ := Option.map_eq_some_iff.1 hplay
  simp only [Bool.and_eq_true] at hchecks
  obtain ⟨hclean, hwriter, hload⟩ := hchecks
  refine ⟨tr, htr, reopensCleanly_of_play htr hclean fun t e he => ?_,
    Option.isNone_iff_eq_none.1 hwriter, fun heq => ?_⟩
  · obtain rfl : e = {} := by simpa [deepNote] using he
    exact ⟨rfl, fun _ => rfl⟩
  · rw [heq] at hload
    cases hload

end Events
