import Events.CatalogRebuild

/-!
# Rebuilding the catalog after changes of the policy

A partition may be closed between two calls and opened again with another policy, so that the names of its
event files need not come in the order of their events. The files themselves still hold the events one
behind the other, and so the rebuild of a damaged catalog goes wrong in one situation only.

* **`Shelved.extended`**, **`Shelved.appendStep`** — a new file, and an append.
* **`Orderly`** — the invariant: the catalog has the ranges of the files in the order of their events.
* **`lawful_orderlyDiscipline`** — the calls keep it.
* **`rebuild_after_runs`** — the result on runs.
-/

namespace Events

open Proc Program Discipline

/-! ## Files that are shelved -/

theorem Ledger.unchanged {w w' : World Unit} (h : Ledger w) (hsame : Unchanged w w') : Ledger w' :=
  h.of_rows (by rw [World.allRows, hsame.files]; exact List.Perm.refl _) hsame.log

section Shelved

variable {w w' : World Unit} {names init : List Text} {name new : Text}

/-- The shelf is what the files say. -/
theorem shelfRanges_of_files (hfiles : w'.files = w.files) : w'.shelfRanges names = w.shelfRanges names := by
  rw [World.shelfRanges, summary_of_files hfiles, World.shelfRanges]

theorem summary_of_lookup (h : w'.files.lookup name = w.files.lookup name) :
    w'.summary name = w.summary name := by
  rw [World.summary, World.rowsOf, World.headOf, h, World.summary, World.rowsOf, World.headOf]

theorem Shelved.of_unchanged (hs : Shelved w names) (hsame : Unchanged w w') : Shelved w' names :=
  hs.of_same (fun n => by rw [hsame.files]) (hs.toLedger.unchanged hsame) hsame.log

/-- A range of the newest file is sealed where its file ends. -/
theorem World.Holds.sealAt {lo hi : Int} (h : w.Holds lo name hi) :
    (rangeOfSummary true (w.summary name)).sealAt hi = rangeOfSummary false (w.summary name) := by
  rw [h.summary]
  rfl

/-- A new file, of the head `w.log.length`, is shelved behind the others. -/
theorem Shelved.extended (hs : Shelved w names) (hnone : w.files.lookup new = none)
    (haccepted : ∃ v, parsePartitionName new = .ok v) :
    Shelved (w.setDb (.eventFile new) (freshFile w.log.length)) (names ++ [new]) := by
  have hmem : new ∉ names := fun hn => (hs.files new).1 hn hnone
  have hbuilding : Building new w.log.length w
      (w.setDb (.eventFile new) (freshFile w.log.length)) :=
    (Building.refl new _ w).setDb (by simp [World.rowsOf, hnone, freshFile, Db.rows])
      (.inr (by simp [freshFile, Db.headVersion]))
  -- only the new file has changed
  have hother : ∀ n ∈ names, (w.setDb (.eventFile new) (freshFile w.log.length)).files.lookup n =
      w.files.lookup n := fun n hn => World.lookup_setDb_ne fun heq => hmem (heq ▸ hn)
  have hself : (w.setDb (.eventFile new) (freshFile w.log.length)).files.lookup new =
      some (freshFile w.log.length) := World.lookup_setDb
  refine { toLedger := hs.toLedger.building hbuilding, storable := hs.storable, nodup := ?_, files := ?_,
           tables := fun n hn => ?_, accepted := fun n hn => ?_, stacked := ?_ }
  · refine List.nodup_append.2 ⟨hs.nodup, List.nodup_singleton _, fun n hn n' hn' => ?_⟩
    rw [List.mem_singleton.1 hn']
    exact fun heq => hmem (heq ▸ hn)
  · intro n
    rw [List.mem_append, List.mem_singleton]
    by_cases hn : n = new
    · subst hn
      rw [hself]
      simp
    · rw [World.lookup_setDb_ne hn, ← hs.files n]
      exact or_iff_left hn
  · rcases List.mem_append.1 hn with hn | hn
    · rw [hother n hn]
      exact hs.tables n hn
    · rw [List.mem_singleton.1 hn]
      exact ⟨_, hself, rfl⟩
  · rcases List.mem_append.1 hn with hn | hn
    · exact hs.accepted n hn
    · rw [List.mem_singleton.1 hn]
      exact haccepted
  · refine Tiles.stacked_concat.2 ⟨w.log.length,
      hs.stacked.congr fun n hn a b hholds => hholds.of_file (hother n hn), ?_, .inl ⟨?_, rfl⟩⟩
    · rw [World.headOf, hself]
      rfl
    · rw [World.rowsOf, hself]
      rfl

/-- The range of a new file. -/
theorem summary_freshFile (v : Int) :
    rangeOfSummary true ((w.setDb (.eventFile new) (freshFile v)).summary new) = rangeOf new v := by
  simp [World.summary, World.rowsOf, World.headOf, freshFile, Db.rows, Db.headVersion, rangeOfSummary,
    rangeOf]

/-- The file of a committed batch. -/
theorem World.Holds.committed {expected : ExpectedVersion} {events : List NewEvent}
    {baseTime : OffsetDateTime} {e : StoreEnv} {d d' : Db} {result : AppendResult} {lo : Int}
    (h : w.Holds lo name w.log.length) (hd : w.files.lookup name = some d)
    (hc : AppendCommitted e.ids e.span expected events baseTime d d' w.log.length result) :
    World.Holds { w.setDb (.eventFile name) d' with log := w.log ++ result.events } lo name
      (w.log ++ result.events).length := by
  obtain ⟨id, hdb⟩ := hc.db_eq
  have hversions := versions_committed hc
  have hlen : result.events.length = events.length := by
    rw [← length_versionsFrom w.log.length events.length, ← hversions, List.length_map]
  have hself : (w.setDb (.eventFile name) d').files.lookup name = some d' := World.lookup_setDb
  have hhead : (w.setDb (.eventFile name) d').headOf name = some ((w.log ++ result.events).length : Int) := by
    rw [World.headOf, hself, hdb, List.length_append, hlen]
    show some _ = some _
    push_cast
    rfl
  have hrows : (w.setDb (.eventFile name) d').rowsOf name =
      w.rowsOf name ++ result.events.map EventEnvelope.toRow := by
    rw [World.rowsOf, hself, World.rowsOf, hd, hdb]
    rfl
  refine ⟨hhead, ?_⟩
  show Block (lo + 1) _ ((w.setDb (.eventFile name) d').rowsOf name)
  rw [hrows, List.length_append, hlen, Nat.cast_add]
  refine h.2.append ?_ fun h => hc.nonempty (List.length_eq_zero_iff.1 h)
  rw [List.map_map]
  exact hversions

/-- **An append** to the newest file, whatever becomes of it. -/
theorem Shelved.appendStep {p : RotationPolicy} {a : ActivePartition} {expected : ExpectedVersion}
    {events : List NewEvent} {baseTime : OffsetDateTime} {e : StoreEnv}
    {r : Except EsError AppendResult} (hs : Shelved w names) (hinit : names = init ++ [a.name])
    (hranges : w.ranges = w.shelfRanges names) (ha : w.handles () = some (p, a))
    (hadm : Admissible events baseTime) (hstep : AppendStep a.name expected events baseTime e w r w') :
    Shelved w' names ∧ w'.ranges = w'.shelfRanges names ∧ w'.handles = w.handles := by
  have heq := hranges.trans (World.shelfRanges_eq hinit)
  have hwrites : WritesNewest w := fun p' a' ha' => by
    obtain ⟨-, rfl⟩ : p = p' ∧ a = a' := by simpa [ha] using ha'
    exact ⟨_, _, heq, rfl⟩
  have htiled := (hs.tiled (by rw [hinit]; simp) hranges).1
  obtain ⟨htiled', -, hhandles, hranges', -, hothers⟩ :=
    htiled.appendStep hwrites ha hadm.wholeMs hstep
  cases hstep with
  | refused hb hsame =>
    -- a refused append leaves every file as it was
    refine ⟨hs.of_same hsame htiled'.toLedger (hb 0).log, ?_, hhandles⟩
    rw [hranges', hranges, World.shelfRanges, World.shelfRanges]
    exact congrArg rangesOfSummaries (List.map_congr_left fun n _ => (summary_of_lookup (hsame n)).symm)
  | @committed d d' head result hd hc =>
    -- the active file is the last of the shelf, and the only one that grows
    obtain ⟨lo, hbefore, hholds⟩ := Tiles.stacked_concat.1 (hinit ▸ hs.stacked)
    have hhead : w.headOf a.name = some head := by rw [World.headOf, hd]; exact hc.head_eq
    obtain rfl : head = w.log.length := Option.some.inj (hhead.symm.trans hholds.1)
    have hother : ∀ n ∈ init, n ≠ a.name := by
      intro n hn
      have hnodup := hs.nodup
      rw [hinit, List.nodup_append] at hnodup
      exact hnodup.2.2 n hn _ (List.mem_singleton.2 rfl)
    have hself : (w.setDb (.eventFile a.name) d').files.lookup a.name = some d' := World.lookup_setDb
    have hnow := hholds.committed hd hc
    refine ⟨{ toLedger := htiled'.toLedger, storable := htiled'.storable, nodup := hs.nodup
              files := fun n => ?_, tables := fun n hn => ?_, accepted := hs.accepted
              stacked := ?_ }, ?_, hhandles⟩
    · by_cases hn : n = a.name
      · subst hn
        rw [hs.files]
        exact iff_of_true (by rw [hd]; simp) (by rw [hself]; simp)
      · rw [hothers n hn]
        exact hs.files n
    · rw [hinit] at hn
      rcases List.mem_append.1 hn with hn | hn
      · rw [hothers n (hother n hn)]
        exact hs.tables n (by rw [hinit]; exact List.mem_append_left _ hn)
      · rw [List.mem_singleton.1 hn]
        obtain ⟨id, hdb⟩ := hc.db_eq
        exact ⟨d', hself, by rw [hdb]; rfl⟩
    · rw [hinit]
      exact Tiles.stacked_concat.2
        ⟨lo, hbefore.congr fun n hn _ _ hn' => hn'.of_file (hothers n (hother n hn)), hnow⟩
    · -- the newest range starts where it did
      have hlast : rangeOfSummary true (w.summary a.name) = rangeOfSummary true
          (World.summary { w.setDb (.eventFile a.name) d' with log := w.log ++ result.events } a.name) := by
        rw [hholds.summary, hnow.summary]
        rfl
      rw [hranges', heq, World.shelfRanges_eq hinit, hlast]
      congr 1
      exact List.map_congr_left fun n hn => by rw [summary_of_lookup (hothers n (hother n hn))]

end Shelved

/-! ## The invariant -/

/-- The catalog has the ranges of the files, in the order of their events, and the handle, if it is open,
writes to the newest one. -/
structure Orderly (w : World Unit) (names : List Text) : Prop extends Shelved w names where
  nonempty : names ≠ []
  ranges : w.ranges = w.shelfRanges names
  writesNewest : WritesNewest w

/-- The name that a rotation would go to is accepted. -/
def AcceptedTarget (rotation : RotationPolicy) (nowMs : Int) (w : World Unit) : Prop :=
  ∀ p a name startMs ordinal, w.handles () = some (p, a) →
    determineNewPartitionInfo rotation a.startMs a.ordinal nowMs = .ok (name, startMs, ordinal) →
    ∃ v, parsePartitionName name = .ok v

section Orderly

variable {w w' : World Unit} {names : List Text} {rotation : RotationPolicy} {nowMs : Int}

theorem Orderly.clean (h : Orderly w names) : Clean w :=
  have htiled := h.tiled h.nonempty h.ranges
  ⟨htiled.1, htiled.2, h.writesNewest⟩

theorem Orderly.names_eq (h : Orderly w names) : w.ranges.map EventFileRange.name = names := by
  rw [h.ranges]
  exact World.names_shelfRanges

theorem Orderly.of_unchanged (h : Orderly w names) (hsame : Unchanged w w') (hw' : WritesNewest w') :
    Orderly w' names where
  toShelved := h.toShelved.of_unchanged hsame
  nonempty := h.nonempty
  ranges := by
    rw [hsame.ranges, shelfRanges_of_files hsame.files]
    exact h.ranges
  writesNewest := hw'

/-- The file that the handle writes to comes last. -/
theorem Orderly.last (h : Orderly w names) {p : RotationPolicy} {a : ActivePartition}
    (ha : w.handles () = some (p, a)) : ∃ init, names = init ++ [a.name] := by
  obtain ⟨init, r, hinit, hr⟩ := h.writesNewest p a ha
  refine ⟨init.map EventFileRange.name, ?_⟩
  rw [← h.names_eq, hinit, List.map_append, List.map_singleton, hr]

/-- **A rotation to a new file** puts it behind the others. -/
theorem Orderly.turned (h : Orderly w names) (hfresh : FreshTarget rotation nowMs w)
    (haccepted : AcceptedTarget rotation nowMs w) {new : ActivePartition}
    (ht : Turned rotation nowMs new w w') (hw' : Clean w') : Orderly w' (names ++ [new.name]) := by
  obtain ⟨p, a, ha, -, hnew⟩ := ht.target
  have hnone := hfresh p a _ _ _ ha hnew
  obtain ⟨init, hinit⟩ := h.last ha
  obtain ⟨lo, hholds⟩ := h.toShelved.last hinit
  have hextended := h.toShelved.extended hnone (haccepted p a _ _ _ ha hnew)
  have hlookup : ∀ n, w'.files.lookup n =
      (w.setDb (.eventFile new.name) (freshFile w.log.length)).files.lookup n := by
    intro n
    by_cases hn : n = new.name
    · rw [hn, ht.file, World.lookup_setDb]
    · rw [ht.others n hn, World.lookup_setDb_ne hn]
  refine { toShelved := hextended.of_same hlookup hw'.tiled.toLedger ht.log, nonempty := by simp
           ranges := ?_, writesNewest := hw'.writesNewest }
  -- the newest range is sealed, that of the new file comes behind it
  obtain ⟨init', r, hranges, hranges'⟩ := ht.ranges
  have heq := h.ranges.trans (World.shelfRanges_eq hinit)
  obtain ⟨rfl, hr⟩ := List.append_inj' (hranges.symm.trans heq) rfl
  obtain rfl := List.singleton_inj.1 hr
  rw [hranges', World.shelfRanges_eq rfl, hholds.sealAt, summary_of_lookup (hlookup new.name),
    summary_freshFile]
  congr 1
  rw [hinit, List.map_append, List.map_singleton]
  have hsame : ∀ n ∈ names, w'.summary n = w.summary n := fun n hn =>
    summary_of_lookup (ht.others n fun heq => (h.files n).1 hn (heq ▸ hnone))
  congr 1
  · exact List.map_congr_left fun n hn => by rw [hsame n (by rw [hinit]; exact List.mem_append_left _ hn)]
  · rw [hsame a.name (by rw [hinit]; simp)]

/-- The first file of a store. -/
theorem FirstOpen.orderly {t : OffsetDateTime} {a : ActivePartition} (h : FirstOpen rotation t a w)
    (haccepted : ∃ v, parsePartitionName a.name = .ok v) : Orderly w [a.name] where
  toLedger := h.clean.tiled.toLedger
  storable := h.clean.tiled.storable
  nodup := List.nodup_singleton _
  files n := by
    by_cases hn : n = a.name
    · subst hn
      simp [h.file]
    · simp [hn, h.others n hn]
  tables n hn := by
    rw [List.mem_singleton.1 hn]
    exact ⟨_, h.file, rfl⟩
  accepted n hn := by
    rw [List.mem_singleton.1 hn]
    exact haccepted
  stacked := by
    refine ⟨w.log.length, ⟨?_, .inl ⟨?_, ?_⟩⟩, rfl⟩
    · rw [World.headOf, h.file, h.log]
      rfl
    · rw [World.rowsOf, h.file]
      rfl
    · rw [h.log]
      rfl
  nonempty := by simp
  ranges := by
    rw [h.ranges, World.shelfRanges]
    simp [World.summary, World.rowsOf, World.headOf, h.file, freshFile, Db.rows, Db.headVersion,
      rangesOfSummaries, rangeOfSummary, rangeOf]
  writesNewest := h.clean.writesNewest

end Orderly

/-! ## The discipline -/

/-- A rotation that takes the write lock goes to a name without a file, and that is accepted. -/
def AcceptedNote : LockNote → World Unit → Prop
  | .rotating rotation nowMs, w => FreshTarget rotation nowMs w ∧ AcceptedTarget rotation nowMs w
  | _, _ => True

/-- The calls on one stream, with any policies, rotating to new files, closing between two calls and opening
again. -/
def orderlyDiscipline [SerdeJson] : Discipline (eventStreams Unit) CallStatus where
  allow o e _ := Steady o e
  allowWrite := AcceptedNote
  restarts := .idle
  inv w := ∃ names, Orderly w names
  always _ := True
  guarantee _ _ _ _ := True
  ghost₀ := CallStatus.ofCall
  ghost o x status := status.after o x

theorem reads_orderlyDiscipline [SerdeJson] : Reads orderlyDiscipline fun _ => True where
  quiet _ ho x status := CallStatus.after_of_not_append ho x status
  refl _ _ _ _ _ := trivial
  clock _ _ _ := trivial

/-- **The calls keep the order of the ranges.** -/
theorem lawful_orderlyDiscipline [SerdeJson] : orderlyDiscipline.Lawful AppendPost := by
  refine reads_orderlyDiscipline.lawful_append rfl rfl (fun w _ => trivial) (fun _ w hw => ?_)
    (fun h => by cases h) (fun rotation w _ _ => ?_) ?_ ?_
  · obtain ⟨names, hw⟩ := hw
    exact ⟨names, hw.of_unchanged ⟨rfl, rfl, rfl⟩ fun p a ha => by cases ha⟩
  · refine safe_withWrite fun w hw _ => ?_
    obtain ⟨names, hw⟩ := hw
    -- a reopening leaves the files and writes the newest one
    have hopen : wp (orderlyDiscipline.contract .other) (openPartitioned rotation)
        (fun _ w' => ∃ names, Orderly w' names) w := by
      refine wp_openPartitioned_clean hw.clean.tiled hw.clean.openNewest (fun _ _ _ _ _ _ => ⟨trivial, trivial⟩)
        (fun a w' hsame ha hnewest _ => ⟨names, hw.of_unchanged hsame fun p' a' ha' => ?_⟩)
        fun e w' hopened => ⟨names, hw.of_unchanged hopened.unchanged fun p' a' ha' => ?_⟩
      · obtain ⟨-, rfl⟩ : rotation = p' ∧ a = a' := by simpa [ha] using ha'
        obtain ⟨init, r, hinit, hr⟩ := hnewest
        exact ⟨init, r, by rw [hsame.ranges, hinit], hr⟩
      · rw [hopened.handles] at ha'
        obtain ⟨init, r, hinit, hr⟩ := hw.writesNewest p' a' ha'
        exact ⟨init, r, by rw [hopened.ranges, hinit], hr⟩
    exact safe_lift_writing
      ((all_openPartitioned rotation).mono fun o ho =>
        reads_orderlyDiscipline.quiet o (isAppend_of_isUpkeep (isUpkeep_of_setsHeadTo ho))) hopen
      fun r w' hw' => ⟨rfl, hw', rfl, rfl⟩
  · -- a rotation seals the newest file and shelves the new one behind it
    rintro rotation nowMs status w _ ⟨names, hw⟩ ⟨hfresh, haccepted⟩
    refine wp_mono (hw.clean.wp_rotate hfresh (fun o e w ho he => he.resolve_left (by simp [ho]))
      fun _ _ _ _ _ => ⟨trivial, trivial⟩) fun r w' hr => ?_
    obtain ⟨hw', rfl | ⟨new, hnew⟩⟩ := hr
    · exact ⟨names, hw⟩
    · exact ⟨_, hw.turned hfresh haccepted hnew hw'⟩
  · -- an append writes into the newest file alone
    rintro expected events baseTime p a e r w w' ⟨names, hw⟩ _ ha _ hadm hstep _
    obtain ⟨init, hinit⟩ := hw.last ha
    obtain ⟨hs, hranges, hhandles⟩ := hw.toShelved.appendStep hinit hw.ranges ha hadm hstep
    refine ⟨trivial, names, { toShelved := hs, nonempty := hw.nonempty, ranges := hranges
                              writesNewest := fun p' a' ha' => ?_ }⟩
    rw [hhandles] at ha'
    obtain ⟨init', hinit'⟩ := hw.last ha'
    exact ⟨_, _, hranges.trans (World.shelfRanges_eq hinit'), rfl⟩

/-! ## Runs -/

section Runs

variable [SerdeJson] {T : Type} [DecidableEq T] {rotation policy : RotationPolicy}
    {w₀ w' damaged : World Unit}
  {tr : List (Label (eventStreams Unit) T × Config (eventStreams Unit) T)}
  {c : Config (eventStreams Unit) T}

/-- Every rotation goes to a new file with a name that is accepted, the stream is closed between two calls
only, and no step fails but the transactions of appends. -/
def RotatesAccepted (c : Config (eventStreams Unit) T) : Label (eventStreams Unit) T → Prop
  | .acquireWrite _ _ note => AcceptedNote note c.st
  | .op _ _ o e => Steady o e
  | .restart => ∀ t, c.tasks t = none
  | _ => True

/-- The event files, in the order of their events. -/
def filesInOrder (w : World Unit) : List Text := w.ranges.map EventFileRange.name

/-- **Rebuilding the catalog**: calls with any policies interleave in any way, rotating to new files and
closing between two calls. When then the rows of `event_file_ranges` are lost or flipped, so that not just one
is unsealed, the next open, which nothing disturbs, writes the ranges that the files say, and makes a file
active. That file has all events behind it, so that the next version is a new one, if and only if the newest
file is empty, or comes last by name among the files that begin with its first version. -/
theorem rebuild_after_runs {r : Except Abort Unit} (hopen : Opens rotation World.empty w₀)
    (hnamed : ∀ p a, w₀.handles () = some (p, a) → ∃ v, parsePartitionName a.name = .ok v)
    (hrun : IsRun RotatesAccepted (Config.idle T w₀) tr)
    (hfree : ((lastOf (Config.idle T w₀) tr).lock ()).writer = none)
    (hfiles : damaged.files = (lastOf (Config.idle T w₀) tr).st.files)
    (hlog : damaged.log = (lastOf (Config.idle T w₀) tr).st.log) (hready : CatalogReady damaged)
    (hrows : ∀ r ∈ damaged.ranges, r.name ∈ filesInOrder (lastOf (Config.idle T w₀) tr).st)
    (hdamaged : (damaged.ranges.filter fun r => !r.isSealed).length ≠ 1)
    (hreopen : Runs (calm ()) (openPartitioned policy) damaged r w') :
    r = .ok () ∧ Rebuilt policy (filesInOrder (lastOf (Config.idle T w₀) tr).st) damaged w' := by
  obtain ⟨t, a, hfirst⟩ := firstOpen_of_opens hopen
  have hsound := sound_run lawful_orderlyDiscipline (fun c l hl => by cases l <;> exact hl)
    (sound_idle lawful_orderlyDiscipline ⟨_, hfirst.orderly (hnamed rotation a hfirst.handle)⟩ fun _ => .other)
    hrun
  obtain ⟨names, horderly⟩ := hsound.free hfree
  generalize (lastOf (Config.idle T w₀) tr).st = w at *
  obtain rfl : filesInOrder w = names := horderly.names_eq
  have hs : Shelved damaged (filesInOrder w) := horderly.toShelved.of_same (fun n => by rw [hfiles])
    (horderly.toLedger.of_rows (by rw [World.allRows, hfiles]; exact List.Perm.refl _) hlog) hlog
  exact rebuild_active_iff hs horderly.nonempty hready (fun r hr => hs.accepted _ (hrows r hr)) hdamaged hreopen

/-! ## A computed run -/

/-- The test of `RotatesAccepted` on the calls of one client. -/
def isAcceptedNote (c : Config (eventStreams Unit) Unit) : Label (eventStreams Unit) Unit → Bool
  | .acquireWrite t h (.rotating rotation nowMs) =>
    isFreshNote c (.acquireWrite t h (.rotating rotation nowMs)) &&
      match c.st.handles () with
      | none => true
      | some (_, a) =>
        match determineNewPartitionInfo rotation a.startMs a.ordinal nowMs with
        | .ok (name, _, _) => (parsePartitionName name).isOk
        | .error _ => true
  | .restart => (c.tasks ()).isNone
  | _ => true

end Runs

theorem rotatesAccepted_of_play [SerdeJson] {ms : List (Move (eventStreams Unit) Unit)}
    {c : Config (eventStreams Unit) Unit}
    {tr : List (Label (eventStreams Unit) Unit × Config (eventStreams Unit) Unit)}
    (h : play ms c = some tr) (hcheck : checks isAcceptedNote c tr = true)
    (hms : ∀ t e, Move.turn t e ∈ ms → e.fault = none ∧ ∀ i, e.statementFault i = none) :
    IsRun RotatesAccepted c tr := by
  refine ((play_checks h hcheck).and (play_env h hms)).mono fun c l hl => ?_
  cases l with
  | op t hd o e => exact .inr (hl.2 t hd o e rfl)
  | restart => exact fun _ => Option.isNone_iff_eq_none.1 hl.1
  | acquireWrite t hd note =>
    cases note with
    | rotating rotation nowMs =>
      obtain ⟨hfresh, haccepted⟩ := Bool.and_eq_true_iff.1 hl.1
      refine ⟨freshNote_of_isFreshNote hfresh, fun p a name startMs ordinal ha hnew => ?_⟩
      simp only [ha, hnew] at haccepted
      cases hparse : parsePartitionName name with
      | ok v => exact ⟨v, rfl⟩
      | error e =>
        rw [hparse] at haccepted
        cases haccepted
    | _ => trivial
  | _ => trivial

/-- All ranges are lost. -/
def loseRanges (w : World Unit) : World Unit :=
  { w with catalog := w.catalog.map fun d => { d with ranges := some [] } }

/-- The migration of the catalog is recorded. -/
def hasCatalogRow (w : World Unit) : Bool :=
  w.catalog.all fun d => (catalogRow (d.migrations.getD [])).any fun row =>
    decide (row.checksum = catalogSchema.checksum)

theorem ranges_loseRanges (w : World Unit) : (loseRanges w).ranges = [] := by
  unfold loseRanges World.ranges
  cases w.catalog <;> rfl

theorem catalogReady_loseRanges {w : World Unit} (h : hasCatalogRow w = true) :
    CatalogReady (loseRanges w) := by
  intro d' hd'
  obtain ⟨d, hd, rfl⟩ := Option.map_eq_some_iff.1 hd'
  rw [hasCatalogRow, hd] at h
  obtain ⟨row, hrow, hsum⟩ := (Option.any_eq_true _ _).1 h
  unfold Db.CatalogReady
  dsimp only
  rw [hrow]
  exact ⟨of_decide_eq_true hsum, rfl⟩

/-- Windows of one day. -/
def daily : RotationPolicy := .timeWindow (.fromSecs 86400 (by decide)) none

/-- The store of `hourly` after its first open, at one o'clock. -/
def openedAtOne : World Unit :=
  (eval (storeMachine ()) (fun _ => atOne) 0 (openPartitioned hourly) World.empty).2

attribute [local instance] SerdeJson.limited

/-- The stream is opened again with windows of one day, and an event goes to the file of the day. -/
def changePolicy : List (Move (eventStreams Unit) Unit) :=
  .restart :: .invoke () () (.openPartitioned daily) :: List.replicate 14 (.turn () {}) ++
    .invoke () () (.append daily 1 .any [noteEvent]) :: List.replicate 40 (.turn () atOne)

/-- The store that is opened again with windows of one day. -/
def reopenDaily (w : World Unit) : Except Abort Unit × World Unit :=
  eval (storeMachine ()) (fun _ => {}) 0 (openPartitioned daily) w

/-- The file of the first hour is empty, and comes last by name among those that begin with version 1: after
all ranges are lost it is active, and version 1 would be given a second time. -/
theorem rebuild_after_runs_changePolicy : ∃ tr,
    play changePolicy (Config.idle Unit openedAtOne) = some tr ∧
    Rebuilt daily (filesInOrder (lastOf (Config.idle Unit openedAtOne) tr).st)
      (loseRanges (lastOf (Config.idle Unit openedAtOne) tr).st)
      (reopenDaily (loseRanges (lastOf (Config.idle Unit openedAtOne) tr).st)).2 ∧
    (reopenDaily (loseRanges (lastOf (Config.idle Unit openedAtOne) tr).st)).2.currentVersion = .ok ⟨0⟩ ∧
    (lastOf (Config.idle Unit openedAtOne) tr).st.log.length = 1 := by
  have hplay : ((play changePolicy (Config.idle Unit openedAtOne)).map fun tr =>
      checks isAcceptedNote (Config.idle Unit openedAtOne) tr &&
      (((lastOf (Config.idle Unit openedAtOne) tr).lock ()).writer.isNone &&
      (hasCatalogRow (lastOf (Config.idle Unit openedAtOne) tr).st &&
      (decide ((reopenDaily (loseRanges (lastOf (Config.idle Unit openedAtOne) tr).st)).2.currentVersion =
        .ok ⟨0⟩) &&
      decide ((lastOf (Config.idle Unit openedAtOne) tr).st.log.length = 1))))) = some true := by
    decide +kernel
  obtain ⟨tr, htr, hchecks⟩ := Option.map_eq_some_iff.1 hplay
  obtain ⟨haccepted, hchecks⟩ := Bool.and_eq_true_iff.1 hchecks
  obtain ⟨hfree, hchecks⟩ := Bool.and_eq_true_iff.1 hchecks
  obtain ⟨hrow, hchecks⟩ := Bool.and_eq_true_iff.1 hchecks
  obtain ⟨hversion, hlength⟩ := Bool.and_eq_true_iff.1 hchecks
  -- the run starts behind an open
  have hopened : (eval (storeMachine ()) (fun _ => atOne) 0 (openPartitioned hourly) World.empty).1 =
      .ok () := by decide +kernel
  have hopen : Opens hourly World.empty openedAtOne := by
    have hruns := @eval_runs _ _ _ _ (anything ()) (fun _ => atOne) (fun _ _ _ => trivial) 0
      (openPartitioned hourly) (World.empty (H := Unit))
    rw [hopened] at hruns
    exact hruns
  have hnamed : (openedAtOne.handles ()).all fun pa => (parsePartitionName pa.2.name).isOk := by
    decide +kernel
  have hrun := rotatesAccepted_of_play htr haccepted fun t e he => ?_
  · -- then the ranges are lost and the policy is another one
    have hfiles : (loseRanges (lastOf (Config.idle Unit openedAtOne) tr).st).files =
        (lastOf (Config.idle Unit openedAtOne) tr).st.files := rfl
    have hreopen : Runs (calm ()) (openPartitioned daily)
        (loseRanges (lastOf (Config.idle Unit openedAtOne) tr).st)
        (reopenDaily (loseRanges (lastOf (Config.idle Unit openedAtOne) tr).st)).1
        (reopenDaily (loseRanges (lastOf (Config.idle Unit openedAtOne) tr).st)).2 :=
      eval_runs (C := calm ()) (fun _ _ _ => ⟨rfl, fun _ => rfl⟩) 0 _ _
    refine ⟨tr, htr, (rebuild_after_runs hopen (fun p a ha => ?_) hrun (Option.isNone_iff_eq_none.1 hfree)
      hfiles rfl (catalogReady_loseRanges hrow) (fun r hr => ?_) ?_ hreopen).2, of_decide_eq_true hversion,
      of_decide_eq_true hlength⟩
    · rw [ha] at hnamed
      cases hparse : parsePartitionName a.name with
      | ok v => exact ⟨v, rfl⟩
      | error e =>
        rw [Option.all_some, hparse] at hnamed
        cases hnamed
    · rw [ranges_loseRanges] at hr
      cases hr
    · simp [ranges_loseRanges]
  · have hcases : e = {} ∨ e = atOne := by
      simp only [changePolicy] at he
      grind
    rcases hcases with rfl | rfl <;> exact ⟨rfl, fun _ => rfl⟩

end Events
