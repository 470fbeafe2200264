import Events.Procedures
import Events.EventStream

/-!
# The first open

Opening a partition whose directory is empty: the catalog is created, no event file is found, and
a first event file with the append head 0 becomes active.

* **`wp_openCatalog`** — opening the catalog changes no range and no file.
* **`Started`**, **`wp_createNewActivePartition`** — a new file with its range.
* **`FirstOpen`**, **`firstOpen_of_runs`** — the store after the first open.
-/

namespace Events

open Proc Program

section Opening

variable {H : Type} [DecidableEq H] {h : H} {C : Contract (storeMachine h)} {w w₀ : World H}
  {name : Text} {v : Int}

/-- Opening the catalog is a sequence of operations that change no range. -/
theorem all_openCatalog : openCatalog.All fun o : StoreOp => o.opensCatalog = true := by
  unfold openCatalog
  simp only [bind_eq]
  refine All.bind ⟨rfl, fun r => all_orEs r⟩ fun _ => ?_
  refine All.bind ⟨rfl, fun r => all_orEs r⟩ fun _ => ?_
  refine All.bind (all_getConnection rfl) fun _ => ?_
  refine all_runMigrations ?_ ?_ ?_ ?_ <;> simp [StoreOp.opensCatalog, Stmt.migrates, Stmt.isQuery]

theorem wp_openCatalog (hG : ∀ o e w₁, o.opensCatalog = true → C.assume o e w₁ →
      SameFiles w w₁ → w₁.ranges = w.ranges → C.guarantee o w₁ (World.step h o e w₁).2) :
    wp C openCatalog (fun _ w' => SameFiles w w' ∧ w'.ranges = w.ranges) w := by
  refine wp_of_all all_openCatalog ⟨SameFiles.refl w, rfl⟩ fun o ho e w₁ he hw₁ => ?_
  obtain ⟨hsame, hranges⟩ := step_opensCatalog (h := h) (e := e) (w := w₁) ho
  exact ⟨hG o e w₁ ho he hw₁.1 hw₁.2, hw₁.1.trans hsame, hranges.trans hw₁.2⟩

/-- Where no name is an event file's, no file is summarized. -/
theorem summarizeEventFiles_none {names : List Text} (h : ∀ n ∈ names, isEventFileName n = false) :
    summarizeEventFiles names = pure [] := by
  induction names with
  | nil => rfl
  | cons n names ih =>
    have hn := h n List.mem_cons_self
    simp only [summarizeEventFiles, hn, Bool.false_eq_true, if_false]
    exact ih fun m hm => h m (List.mem_cons_of_mem n hm)

/-- A new event file with the append head `v` and its range, `w₀` being the store before. -/
def Started (name : Text) (v : Int) (w₀ w : World H) : Prop :=
  ∃ w₁, Building name v w₀ w₁ ∧ w₁.headOf name = some v ∧
    (w₀.files.lookup name = none → w₁.files.lookup name = some (freshFile v)) ∧
    RangesUpdated (Stmt.upsert (rangeOf name v)) w₁ w

/-- The file that a clock reading starts. -/
structure StartsAt (rotation : RotationPolicy) (t : OffsetDateTime) (active : ActivePartition) :
    Prop where
  start : floorToWindowMs t.unixTimestampMs rotation.window = some active.startMs
  name : generatePartitionName active.startMs rotation.window none = .ok active.name
  ordinal : active.ordinal = none

theorem wp_createNewActivePartition {rotation : RotationPolicy}
    {Q : Except Abort ActivePartition → World H → Prop}
    (hlook : C.guarantee .now w₀ w₀)
    (hprepare : ∀ t active o w w', StartsAt rotation t active →
      o.prepares active.name 0 = true ∨ o.onCatalog = true ∧ w = w' →
      Building active.name 0 w₀ w → Building active.name 0 w₀ w' → C.guarantee o w w')
    (hlist : ∀ t active w w', StartsAt rotation t active → Building active.name 0 w₀ w →
      w.headOf active.name = some 0 → RangesUpdated (Stmt.upsert (rangeOf active.name 0)) w w' →
      C.guarantee (.sql .catalog (.createEventFileRange (rangeOf active.name 0))) w w')
    (hok : ∀ e active w, C.assume .now e w₀ → StartsAt rotation e.now active →
      Started active.name 0 w₀ w → Q (.ok active) w)
    (herr : ∀ err w, w = w₀ ∨ (∃ t active, StartsAt rotation t active ∧ Building active.name 0 w₀ w) →
      Q (.error err) w) :
    wp C (createNewActivePartition rotation 1) Q w₀ := by
  unfold createNewActivePartition now
  rw [bind_eq, call_bind]
  refine wp_look rfl hlook fun e he => ?_
  simp only [World.step, done_ok_bind]
  cases hstart : floorToWindowMs e.now.unixTimestampMs rotation.window with
  | none => exact herr _ _ (.inl rfl)
  | some startMs =>
    simp only [orPanic, bind_eq, pure_eq, done_ok_bind]
    cases hname : generatePartitionName startMs rotation.window none with
    | error err => exact herr _ _ (.inl rfl)
    | ok name =>
      have hnew : StartsAt rotation e.now ⟨name, startMs, none⟩ := ⟨hstart, hname, rfl⟩
      show wp C ((createPartitionDb name (1 - 1)).bind _) Q w₀
      -- the file first, with its head at 0, and then its range
      refine wp_bind_of (wp_createPartitionDb fun o e w ho _ hb => ?_)
        (fun _ w hb => ?_) fun err w hb => herr _ _ (.inr ⟨_, _, hnew, hb.1⟩)
      · exact hprepare _ _ o _ _ hnew (.inl ho) hb (step_prepares ho hb)
      · obtain ⟨hb, hhead, hfresh⟩ := hb
        rw [wp_bind]
        refine wp_createEventFileRange (fun o ho => ?_) (fun w' hw' => ⟨?_, ?_⟩) fun err _ => ?_
        · exact hprepare _ _ o _ _ hnew (.inr ⟨ho, rfl⟩) hb hb
        · exact hlist _ _ _ _ hnew hb (hhead rfl) hw'
        · exact hok e _ w' he hnew ⟨w, hb, hhead rfl, fun hnone => (hfresh hnone).1 rfl, hw'⟩
        · exact herr _ _ (.inr ⟨_, _, hnew, hb⟩)

end Opening

/-! ## Opening an empty directory -/

/-- The contract that allows and guarantees everything. -/
def anything {H : Type} [DecidableEq H] (h : H) : Contract (storeMachine h) where
  assume _ _ _ := True
  guarantee _ _ _ := True

/-- `open_partitioned` can lead from `w` to `w'`, whatever fails on the way. -/
abbrev Opens (rotation : RotationPolicy) (w w' : World Unit) : Prop :=
  Runs (anything ()) (openPartitioned rotation) w (.ok ()) w'

/-- The store after the first open, at the clock reading `t`. -/
structure FirstOpen (rotation : RotationPolicy) (t : OffsetDateTime) (active : ActivePartition)
    (w : World Unit) : Prop where
  starts : StartsAt rotation t active
  handle : w.handles () = some (rotation, active)
  log : w.log = []
  ranges : w.ranges = [rangeOf active.name 0]
  file : w.files.lookup active.name = some (freshFile 0)
  others : ∀ other, other ≠ active.name → w.files.lookup other = none
  rows : w.allRows = []

/-- The catalog has no range, and there is no event file. -/
def NoFiles (w : World Unit) : Prop := SameFiles World.empty w ∧ w.ranges = []

/-- A directory without event files holds at most the catalog. -/
theorem NoFiles.not_eventFile {w : World Unit} (hw : NoFiles w) {names : List Text}
    (hp : names.Perm w.directory) {n : Text} (hn : n ∈ names) : isEventFileName n = false := by
  have hmem := hp.mem_iff.1 hn
  simp only [World.directory, hw.1.files] at hmem
  have hcat : n = ['c', 'a', 't', 'a', 'l', 'o', 'g', '.', 'd', 'b'] := by
    split at hmem
    · simpa [World.empty] using hmem
    · simp [World.empty] at hmem
  subst hcat
  decide

/-- Without event files the rebuild finds nothing. -/
theorem wp_rebuild_noFiles {w : World Unit} (hw : NoFiles w) :
    wp (anything ()) rebuildEventFileRanges
      (fun r w' => ∀ ranges, r = .ok ranges → ranges = [] ∧ NoFiles w') w := by
  unfold rebuildEventFileRanges discoverEventFileSummaries
  simp only [bind_eq]
  refine wp_bind_of (R := fun r w' => w' = w ∧ ∀ summaries, r = .ok summaries → summaries = []) ?_
    (fun summaries w' hr => ?_) (by simp)
  · rw [wp_bind]
    refine wp_listDirectory trivial (fun names hp => ?_) (by simp)
    show wp (anything ()) (summarizeEventFiles names) _ w
    rw [summarizeEventFiles_none fun n hn => hw.not_eventFile hp hn]
    exact ⟨rfl, by simp⟩
  · obtain ⟨rfl, hnone⟩ := hr
    obtain rfl := hnone summaries rfl
    show wp (anything ()) ((replaceEventFileRanges []).bind _) _ _
    rw [wp_bind]
    refine wp_replaceEventFileRanges (fun _ _ => trivial) (fun w' hw' => ⟨trivial, ?_⟩) (by simp)
    rintro ranges ⟨⟩
    exact ⟨rfl, hw.1.trans hw'.toSameFiles, hw'.ranges⟩

/-- Without event files a first one is started. -/
theorem wp_initialize_noFiles {rotation : RotationPolicy} {w : World Unit} (hw : NoFiles w) :
    wp (anything ()) (initializeActivePartition rotation)
      (fun r w' => ∀ active, r = .ok active → ∃ t w₁, StartsAt rotation t active ∧ NoFiles w₁ ∧
        Started active.name 0 w₁ w') w := by
  unfold initializeActivePartition
  simp only [bind_eq]
  rw [wp_bind]
  refine wp_getAllEventFileRanges (fun _ _ => trivial) (fun _ => ?_) (by simp)
  rw [hw.2]
  show wp (anything ()) (rebuildEventFileRanges.bind _) _ w
  refine wp_bind_of (wp_rebuild_noFiles hw) (fun ranges w' hr => ?_) (by simp)
  obtain ⟨rfl, hw'⟩ := hr ranges rfl
  refine wp_createNewActivePartition trivial (fun _ _ _ _ _ _ _ _ _ => trivial)
    (fun _ _ _ _ _ _ _ _ => trivial) (fun e active w'' _ hstart hw'' => ?_) (by simp)
  rintro _ ⟨⟩
  exact ⟨e.now, w', hstart, hw', hw''⟩

theorem wp_openPartitioned_empty {rotation : RotationPolicy} :
    wp (anything ()) (openPartitioned rotation)
      (fun r w => r = .ok () → ∃ t active, FirstOpen rotation t active w) World.empty := by
  unfold openPartitioned
  simp only [bind_eq]
  refine wp_bind_of (R := fun _ w => w = World.empty) ?_ (fun _ w hw => ?_) (by simp)
  · exact wp_look rfl trivial fun e _ => by
      cases (World.step () .createDirAll e (World.empty (H := Unit))).1 <;> exact rfl
  subst hw
  refine wp_bind_of (wp_openCatalog fun _ _ _ _ _ _ _ => trivial) (fun _ w hw => ?_) (by simp)
  refine wp_bind_of (wp_initialize_noFiles hw) (fun active w hr => ?_) (by simp)
  -- of the empty directory all that is there now is the one file and its range
  obtain ⟨t, w₀, hstart, hw₀, w₁, hb, -, hfresh, hu⟩ := hr active rfl
  have hlog : w.log = [] := by rw [hu.log, hb.log, hw₀.1.log]; rfl
  have hranges : w.ranges = [rangeOf active.name 0] := by
    have hw₁ : w₁.ranges = [] := by
      rw [World.ranges, hb.catalog]
      exact hw₀.2
    rw [hu.ranges, hw₁]
    rfl
  have hfile : w.files.lookup active.name = some (freshFile 0) := by
    rw [hu.files]
    exact hfresh (by rw [hw₀.1.files]; rfl)
  have hothers : ∀ other, other ≠ active.name → w.files.lookup other = none := by
    intro other hne
    rw [hu.files, hb.others other hne, hw₀.1.files]
    rfl
  have hrows : w.allRows = [] := by
    refine List.Perm.eq_nil ?_
    rw [World.allRows, hu.files]
    refine hb.allRows.trans ?_
    rw [World.allRows, hw₀.1.files]
    exact List.Perm.refl _
  have hhandle : Function.update w.handles () (some (rotation, active)) () =
      some (rotation, active) := Function.update_self ..
  exact fun e _ => ⟨trivial, fun _ =>
    ⟨t, active, hstart, hhandle, hlog, hranges, hfile, hothers, hrows⟩⟩

/-- **The first open.** -/
theorem firstOpen_of_opens {rotation : RotationPolicy} {w : World Unit}
    (h : Opens rotation World.empty w) : ∃ t active, FirstOpen rotation t active w :=
  h.post wp_openPartitioned_empty rfl

/-! ## A partition with windows of one hour -/

/-- Windows of one hour, without a limit on the size of a file. -/
def hourly : RotationPolicy := .timeWindow (.fromSecs 3600 (by decide)) none

/-- The store of `hourly` after its first open, at the epoch. -/
def opened : World Unit :=
  (eval (storeMachine ()) (fun _ => {}) 0 (openPartitioned hourly) World.empty).2

theorem opens_opened : Opens hourly World.empty opened := by
  have hok : (eval (storeMachine ()) (fun _ => {}) 0 (openPartitioned hourly) World.empty).1 =
      .ok () := by decide +kernel
  have h := @eval_runs _ _ _ _ (anything ()) (fun _ => {}) (fun _ _ _ => trivial) 0
    (openPartitioned hourly) (World.empty (H := Unit))
  rw [hok] at h
  exact h

end Events
