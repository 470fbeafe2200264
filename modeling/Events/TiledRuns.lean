import Events.BoundedReads

/-!
# Runs that keep the tiles

The calls on one stream whose rotations go to names without a file keep the tiles of the catalog at
every moment at which nobody writes, whatever steps fail; if the steps of the rotations succeed, all
ranges but the newest are sealed as well. One discipline covers both (`tiledDiscipline`).

* **`HasMetadata`** — an event has a workflow kind exactly when it belongs to a workflow run.
* **`Intact`** — the invariant.
* **`lawful_tiledDiscipline`**, **`intact_run`** — the calls keep it.
-/

namespace Events

open Proc Program Discipline

/-! ## Metadata -/

/-- The kind of a workflow is set exactly when the run is. -/
def EventEnvelope.HasMetadata (e : EventEnvelope) : Prop :=
  e.workflowKind.isSome = e.workflowStartedByEventId.isSome

/-- The validation asks for a kind exactly where there is a workflow. -/
theorem validateEvent_ok {event : NewEvent} (h : validateEvent event = .ok ()) :
    event.workflowKind.isSome = (event.workflow != .none) := by
  unfold validateEvent at h
  split at h
  · cases h
  · cases hworkflow : event.workflow <;> cases hkind : event.workflowKind <;>
      simp [hworkflow, hkind] at h ⊢

theorem validateEvents_ok {events : List NewEvent} (h : validateEvents events = .ok ()) :
    ∀ event ∈ events, validateEvent event = .ok () := by
  induction events with
  | nil => exact fun event he => by cases he
  | cons event events ih =>
    simp only [validateEvents] at h
    split at h
    · rename_i hevent
      intro event' he
      rcases List.mem_cons.1 he with rfl | he
      · exact hevent
      · exact ih h event' he
    · cases h

/-- The envelopes of a valid batch have their metadata. -/
theorem hasMetadata_envelopesFrom {ids : Nat → Uuid} {span : SpanContext} {baseTime : OffsetDateTime}
    {baseSequence head : Int} (i : Nat) {events : List NewEvent}
    (hvalid : ∀ event ∈ events, validateEvent event = .ok ()) :
    ∀ e ∈ envelopesFrom ids span baseTime baseSequence head i events, e.HasMetadata := by
  induction events generalizing i with
  | nil => exact fun e he => by cases he
  | cons event events ih =>
    intro e he
    rcases List.mem_cons.1 he with rfl | he
    · have hkind := validateEvent_ok (hvalid event (by simp))
      unfold EventEnvelope.HasMetadata envelopeOf
      rw [hkind]
      cases event.workflow <;> rfl
    · exact ih (i + 1) (fun event' he' => hvalid event' (List.mem_cons_of_mem _ he')) e he

/-! ## The invariant -/

/-- The state between two calls. -/
structure Intact (w : World Unit) : Prop where
  tiled : Tiled w
  writesNewest : WritesNewest w
  isOpen : w.handles () ≠ none
  metadata : ∀ e ∈ w.log, e.HasMetadata

/-- A step that does not fail, or the transaction of an append. -/
def Steady (o : StoreOp) (e : StoreEnv) : Prop :=
  o.isAppend = true ∨ (e.fault = none ∧ ∀ i, e.statementFault i = none)

/-- A rotation that takes the write lock goes to a name without a file. -/
def FreshNote : LockNote → World Unit → Prop
  | .rotating rotation nowMs, w => FreshTarget rotation nowMs w
  | _, _ => True

section Steps

variable {w w' : World Unit} {o : StoreOp} {e : StoreEnv}

/-- An operation that is no append leaves the log alone, and an open handle open. -/
theorem step_keeps (ho : o.isAppend = false) (hopen : w.handles () ≠ none) :
    (World.step () o e w).2.log = w.log ∧ (World.step () o e w).2.handles () ≠ none := by
  cases o with
  | appendTransaction name expected events baseTime => cases ho
  | setActive active =>
    obtain ⟨p, hp⟩ := Option.ne_none_iff_exists'.1 hopen
    refine ⟨rfl, ?_⟩
    simp [World.step, hp]
  | openHandle rotation active =>
    refine ⟨rfl, ?_⟩
    simp [World.step]
  | buildDatabase ref =>
    simp only [World.step]
    repeat' split
    · exact ⟨rfl, hopen⟩
    · exact ⟨rfl, hopen⟩
    · cases ref <;> exact ⟨rfl, hopen⟩
  | sql ref s =>
    simp only [World.step, World.stepSql]
    repeat' split
    · exact ⟨rfl, hopen⟩
    · exact ⟨rfl, hopen⟩
    · exact ⟨rfl, hopen⟩
    · cases ref <;> exact ⟨rfl, hopen⟩
    · exact ⟨rfl, hopen⟩
  | replaceTransaction ranges =>
    have hw := step_onCatalog (h := ()) (o := .replaceTransaction ranges) (e := e) (w := w) rfl
    exact ⟨hw.log, by rw [hw.handles]; exact hopen⟩
  | _ => rw [step_passive rfl]; exact ⟨rfl, hopen⟩

/-- An append keeps the invariant, whatever becomes of it. -/
theorem Intact.appendStep {p : RotationPolicy} {a : ActivePartition} {expected : ExpectedVersion}
    {events : List NewEvent} {baseTime : OffsetDateTime} {r : Except EsError AppendResult}
    (hi : Intact w) (ha : w.handles () = some (p, a)) (hadm : Admissible events baseTime)
    (hstep : AppendStep a.name expected events baseTime e w r w') :
    Intact w' ∧ Grows w w' ∧ w'.ranges = w.ranges := by
  obtain ⟨ht, hgrows, hhandles, hranges, -⟩ :=
    hi.tiled.appendStep hi.writesNewest ha hadm.wholeMs hstep
  have hmetadata : ∀ e ∈ w'.log, e.HasMetadata := by
    cases hstep with
    | committed hd hc =>
      obtain ⟨baseSequence, hevents⟩ := hc.events_eq
      intro e he
      rcases List.mem_append.1 he with he | he
      · exact hi.metadata e he
      · rw [hevents] at he
        exact hasMetadata_envelopesFrom 0 (validateEvents_ok hadm.valid) e he
    | refused hw =>
      rw [(hw 0).log]
      exact hi.metadata
  refine ⟨⟨ht, fun p' a' ha' => ?_, by rw [hhandles]; exact hi.isOpen, hmetadata⟩, hgrows, hranges⟩
  rw [hhandles] at ha'
  obtain ⟨init, r, hinit, hname⟩ := hi.writesNewest p' a' ha'
  exact ⟨init, r, by rw [hranges, hinit], hname⟩

/-! ## The discipline -/

/-- The calls on one stream, rotating to new files: the ranges are tiles at every moment. In a `clean`
run the steps of the rotations succeed. -/
def tiledDiscipline [SerdeJson] (clean : Prop) : Discipline (eventStreams Unit) CallStatus where
  allow o e _ := clean → Steady o e
  allowWrite := FreshNote
  restarts := .never
  inv w := Intact w ∧ (clean → OpenNewest w)
  always w := Tiled w ∧ w.handles () ≠ none
  guarantee _ _ := Grows
  ghost₀ := CallStatus.ofCall
  ghost o x status := status.after o x

variable {clean : Prop}

theorem reads_tiledDiscipline [SerdeJson] : Reads (tiledDiscipline clean) fun _ => True where
  quiet _ ho x status := CallStatus.after_of_not_append ho x status
  refl _ _ w _ _ := Grows.refl w
  clock _ _ _ := trivial

/-- A rotation keeps the invariant. -/
theorem wp_rotate_intact [SerdeJson] {rotation : RotationPolicy} {nowMs : Int} {status : CallStatus}
    (hi : Intact w) (hclean : clean → OpenNewest w) (hfresh : FreshTarget rotation nowMs w) :
    wp ((tiledDiscipline clean).contract status) (rotatePartitionLocked rotation nowMs)
      (fun _ w => Intact w ∧ (clean → OpenNewest w)) w := by
  have hrot := wp_rotate_tiled
    (C := { assume := fun _ e _ => clean → (e.fault = none ∧ ∀ i, e.statementFault i = none)
            guarantee := fun _ w w' => Grows w w' ∧ Tiled w' })
    hi.tiled hi.writesNewest hfresh fun o w₁ w₂ _ _ ht₂ hgrows _ => ⟨hgrows, ht₂⟩
  have hframed := wp_framed (C := (tiledDiscipline clean).contract status)
    (J := fun w' : World Unit => w'.log = w.log ∧ w'.handles () ≠ none)
    (all_rotatePartitionLocked rotation nowMs) ⟨rfl, hi.isOpen⟩ hrot fun o ho e w₁ he hJ => ?_
  · refine wp_mono hframed fun r w' hr => ?_
    obtain ⟨⟨ht, hw, hturned⟩, hlog, hopen⟩ := hr
    refine ⟨⟨ht, hw, hopen, by rw [hlog]; exact hi.metadata⟩, fun hc => ?_⟩
    rcases hturned fun _ _ _ he => he hc with rfl | ⟨new, hnew⟩
    · exact hclean hc
    · exact hnew.openNewest (hclean hc)
  · have hkeep := step_keeps (e := e) ho hJ.2
    refine ⟨fun hc => ?_, ⟨hkeep.1.trans hJ.1, hkeep.2⟩, fun hgrows => ⟨hgrows.1, hgrows.2, hkeep.2⟩⟩
    rcases he hc with happend | hsteady
    · rw [ho] at happend
      cases happend
    · exact hsteady

/-- **The calls keep the invariant.** -/
theorem lawful_tiledDiscipline [SerdeJson] : (tiledDiscipline clean).Lawful AppendPost := by
  refine reads_tiledDiscipline.lawful_append rfl rfl (fun w hi => ⟨hi.1.tiled, hi.1.isOpen⟩) nofun nofun
    (fun rotation w halways hnone => absurd hnone halways.2)
    (fun rotation nowMs status w _ hi hfresh => wp_rotate_intact hi.1 hi.2 hfresh) ?_
  intro expected events baseTime p a e r w w' hi _ ha _ hadm hstep _
  obtain ⟨hi', hgrows, hranges⟩ := hi.1.appendStep ha hadm hstep
  refine ⟨hgrows, hi', fun hc => ?_⟩
  obtain ⟨init, rn, hinit, hrest⟩ := hi.2 hc
  exact ⟨init, rn, by rw [hranges, hinit], hrest⟩

end Steps

/-! ## Runs -/

theorem FirstOpen.intact {rotation : RotationPolicy} {t : OffsetDateTime} {a : ActivePartition}
    {w : World Unit} (h : FirstOpen rotation t a w) : Intact w where
  tiled := h.tiled
  writesNewest := h.writesNewest
  isOpen := by rw [h.handle]; nofun
  metadata := by rw [h.log]; exact fun e he => by cases he

section Runs

variable [SerdeJson] {T : Type} [DecidableEq T] {rotation : RotationPolicy} {w₀ : World Unit}
  {tr : List (Label (eventStreams Unit) T × Config (eventStreams Unit) T)}

/-- Every rotation goes to a new file, and the process is not restarted. -/
def RotatesToNewFiles (c : Config (eventStreams Unit) T) : Label (eventStreams Unit) T → Prop
  | .acquireWrite _ _ note => FreshNote note c.st
  | .restart => False
  | _ => True

/-- Where nobody writes the invariant holds, whatever has failed. -/
theorem intact_run (hopen : Opens rotation World.empty w₀)
    (hrun : IsRun RotatesToNewFiles (Config.idle T w₀) tr)
    (hfree : ((lastOf (Config.idle T w₀) tr).lock ()).writer = none) :
    Intact (lastOf (Config.idle T w₀) tr).st := by
  obtain ⟨t, a, hfirst⟩ := firstOpen_of_opens hopen
  have hL := @lawful_tiledDiscipline False
  have hs := sound_run hL (fun c l hl => ?_)
    (sound_idle hL ⟨hfirst.intact, False.elim⟩ fun _ => .other) hrun
  · exact (hs.free hfree).1
  · cases l <;> first | exact hl | trivial | exact False.elim

/-- The test of `FreshNote`. -/
def isFreshNote (c : Config (eventStreams Unit) T) : Label (eventStreams Unit) T → Bool
  | .acquireWrite _ _ (.rotating rotation nowMs) =>
    match c.st.handles () with
    | none => true
    | some (_, a) =>
      match determineNewPartitionInfo rotation a.startMs a.ordinal nowMs with
      | .ok (name, _, _) => (c.st.files.lookup name).isNone
      | .error _ => true
  | .restart => false
  | _ => true

omit [DecidableEq T] in
theorem freshNote_of_isFreshNote {c : Config (eventStreams Unit) T} {t : T} {h : Unit}
    {note : LockNote} (hcheck : isFreshNote c (.acquireWrite t h note) = true) :
    FreshNote note c.st := by
  cases note with
  | rotating rotation nowMs =>
    intro p a name startMs ordinal ha hnew
    simp only [isFreshNote, ha, hnew] at hcheck
    exact Option.isNone_iff_eq_none.1 hcheck
  | _ => trivial

/-- A schedule whose rotations go to new files. -/
theorem rotatesToNewFiles_of_play {ms : List (Move (eventStreams Unit) T)}
    {c : Config (eventStreams Unit) T} (h : play ms c = some tr)
    (hcheck : checks isFreshNote c tr = true) : IsRun RotatesToNewFiles c tr := by
  refine (play_checks h hcheck).mono fun c l hl => ?_
  cases l with
  | acquireWrite t hd note => exact freshNote_of_isFreshNote hl
  | restart => cases hl
  | _ => trivial

end Runs

end Events
