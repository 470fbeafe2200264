import Events.AtomicLog
import Events.Lib.Observe

/-!
# Reading an event back

`insert_events` writes the columns of a row from an envelope, `event_from_row` reads them back. No
operation of any handle removes a row (`step_rows`), so what an append stored stays, however the
calls interleave, wherever the process stops and whatever fails. A stored row decodes to the
envelope that the append answered exactly when its payload is nested below the recursion limit of
the JSON parser, which the validation of an append does not ask for.

* **`ReadsBack`** — the row of an envelope decodes to it, and makes no read fail.
* **`AppendStored`** — what the answer of an append says about the store.
* **`appended_read_back`** — the result on runs.
-/

namespace Events

open Proc Program

/-! ## Rows stay -/

section Rows

variable {H : Type}

/-- Every row of `w` is one of `w'`. -/
def KeepsRows (w w' : World H) : Prop := w.allRows ⊆ w'.allRows

theorem KeepsRows.refl (w : World H) : KeepsRows w w := List.Subset.refl _

theorem KeepsRows.trans {w₁ w₂ w₃ : World H} (h : KeepsRows w₁ w₂) (h' : KeepsRows w₂ w₃) :
    KeepsRows w₁ w₃ := List.Subset.trans h h'

/-- No statement deletes an event. -/
theorem exec_rows {s : Stmt} {d d' : Db} {a : s.Ans} (h : s.exec d = .ok (a, d')) :
    d.rows ⊆ d'.rows := by
  by_cases hm : s.migrates = true
  · rw [(exec_migrates hm h).1]
    exact List.Subset.refl _
  · cases s with
    | initializeEventFileAppendHead v id => rw [← (Stmt.exec_initializeHead.1 h).2]; exact fun _ hr => hr
    | updateEventFileAppendHead v id =>
      obtain ⟨head, -, rfl⟩ := Stmt.exec_updateHead.1 h
      exact fun _ hr => hr
    | insertEvent row =>
      obtain ⟨rows, hrows, -, rfl⟩ := Stmt.exec_insertEvent.1 h
      intro r hr
      rw [Db.rows, hrows] at hr
      exact List.mem_append_left _ hr
    | createEventFileRange range =>
      obtain ⟨ranges, -, rfl⟩ := Stmt.exec_createRange.1 h
      exact fun _ hr => hr
    | sealEventFileRange name last =>
      obtain ⟨ranges, -, rfl⟩ := Stmt.exec_sealRange.1 h
      exact fun _ hr => hr
    | deleteEventFileRanges => rw [← (Stmt.exec_deleteRanges.1 h).2]; exact fun _ hr => hr
    | insertEventFileRange range =>
      cases hd : d.ranges with
      | none => simp [Stmt.exec, Stmt.need, hd, Bind.bind, Except.bind] at h
      | some rs => rw [← ((Stmt.exec_insertRange hd).1 h).2]; exact fun _ hr => hr
    | _ => exact absurd rfl hm

/-- A database is replaced by one with its rows and more. -/
theorem KeepsRows.setDb {w : World H} {ref : DbRef} {d : Db}
    (h : ∀ d₀, w.db ref = some d₀ → d₀.rows ⊆ d.rows) : KeepsRows w (w.setDb ref d) := by
  cases ref with
  | catalog => exact .refl w
  | eventFile name =>
    intro row hrow
    rw [(w.allRows_perm name).mem_iff, List.mem_append] at hrow
    rw [((w.setDb (.eventFile name) d).allRows_perm name).mem_iff, List.mem_append,
      World.rowsOf_setDb, World.rowsOutside_setDb]
    refine hrow.imp_left fun hrow => ?_
    unfold World.rowsOf at hrow
    cases hd : w.files.lookup name with
    | none => rw [hd] at hrow; cases hrow
    | some d₀ =>
      rw [hd] at hrow
      exact h d₀ hd hrow

/-- The append transaction keeps the rows. -/
theorem AppendStep.keepsRows [DecidableEq H] {name : Text} {expected : ExpectedVersion}
    {events : List NewEvent} {baseTime : OffsetDateTime} {e : StoreEnv} {w w' : World H}
    {r : Except EsError AppendResult} (h : AppendStep name expected events baseTime e w r w') :
    KeepsRows w w' := by
  cases h with
  | @committed d d' head result hd hc =>
    obtain ⟨id, hdb⟩ := hc.db_eq
    have hkeep : KeepsRows w (w.setDb (.eventFile name) d') := by
      refine .setDb fun d₀ hd₀ => ?_
      obtain rfl : d = d₀ := Option.some.inj (hd.symm.trans hd₀)
      rw [hdb]
      exact List.subset_append_left ..
    exact hkeep
  | refused hw => exact (hw 0).allRows.symm.subset

/-- **No operation removes a row.** -/
theorem step_rows [DecidableEq H] {h : H} {o : StoreOp} {e : StoreEnv} {w : World H} :
    KeepsRows w (World.step h o e w).2 := by
  cases o with
  | buildDatabase ref =>
    simp only [World.step]
    repeat' split
    · exact .refl w
    · exact .refl w
    · rename_i hdb
      exact .setDb fun d₀ hd₀ => by simp [hd₀] at hdb
  | sql ref s =>
    simp only [World.step, World.stepSql]
    split
    · exact .refl w
    · exact .refl w
    · rename_i d _ hdb
      split
      · rename_i a d' hex
        split
        · exact .refl w
        · refine .setDb fun d₀ hd₀ => ?_
          obtain rfl : d = d₀ := Option.some.inj (hdb.symm.trans hd₀)
          exact exec_rows hex
      · exact .refl w
  | appendTransaction name expected events baseTime =>
    exact (step_appendTransaction expected events baseTime name).keepsRows
  | replaceTransaction ranges =>
    have hfiles := (step_onCatalog (h := h) (o := .replaceTransaction ranges) (e := e) (w := w) rfl).files
    unfold KeepsRows World.allRows
    rw [hfiles]
    exact List.Subset.refl _
  | setActive active => exact .refl w
  | openHandle rotation active => exact .refl w
  | _ => rw [step_passive rfl]; exact .refl w

end Rows

/-! ## What an append stores -/

/-- The row of an envelope decodes to it, and makes no read fail. -/
def ReadsBack [SerdeJson] (e : EventEnvelope) : Prop :=
  eventFromRow e.toRow = .ok e ∧
    ∀ before after events events', collectEventsFromRows before = .ok events →
      collectEventsFromRows after = .ok events' →
        collectEventsFromRows (before ++ e.toRow :: after) = .ok (events ++ e :: events')

theorem collectEventsFromRows_append [SerdeJson] {before after : List EventRow}
    {events events' : List EventEnvelope}
    (hbefore : collectEventsFromRows before = .ok events)
    (hafter : collectEventsFromRows after = .ok events') :
    collectEventsFromRows (before ++ after) = .ok (events ++ events') := by
  induction before generalizing events with
  | nil =>
    obtain rfl : [] = events := by simpa [collectEventsFromRows] using hbefore
    exact hafter
  | cons row rows ih =>
    simp only [collectEventsFromRows, List.cons_append] at hbefore ⊢
    cases hrow : eventFromRow row with
    | error err => simp [hrow, Bind.bind, Except.bind] at hbefore
    | ok e =>
      cases hrows : collectEventsFromRows rows with
      | error err => simp [hrow, hrows, Bind.bind, Except.bind] at hbefore
      | ok es =>
        obtain rfl : e :: es = events := by
          simpa [hrow, hrows, Bind.bind, Except.bind, pure, Except.pure] using hbefore
        rw [ih hrows]
        rfl

/-- A stored envelope is read back iff its payload is. -/
theorem readsBack_iff [SerdeJson] {e : EventEnvelope}
    (h : e.Storable) : ReadsBack e ↔ e.payload.IsReadBack := by
  rw [← EventEnvelope.decoded_eq_self_iff, ← eventFromRow_toRow h]
  constructor
  · exact fun hback => hback.1
  · intro hrow
    refine ⟨hrow, fun before after events events' hbefore hafter => ?_⟩
    refine collectEventsFromRows_append hbefore ?_
    simp [collectEventsFromRows, hrow, hafter, Bind.bind, Except.bind, pure, Except.pure]

/-- The envelopes of a batch store its events, in a form that can be stored. -/
theorem storable_envelopesFrom {ids : Nat → Uuid} {span : SpanContext} {baseTime : OffsetDateTime}
    {baseSequence head : Int} (hhead : 0 ≤ head)
    (hbase : OffsetDateTime.fromUnixTimestampNanos (baseTime.unixTimestampMs * 1000000) =
      some baseTime) (i : Nat) (events : List NewEvent) :
    ∀ e ∈ envelopesFrom ids span baseTime baseSequence head i events, e.Storable := by
  induction events generalizing i with
  | nil => exact fun e he => by cases he
  | cons event events ih =>
    intro e he
    rcases List.mem_cons.1 he with rfl | he
    · refine ⟨?_, hbase⟩
      show 0 < head + 1 + (i : Int)
      omega
    · exact ih (i + 1) e he

/-- The workflow run that an event belongs to, `id` being its own id. -/
def WorkflowRef.startedBy (id : Uuid) : WorkflowRef → Option Uuid
  | .none => Option.none
  | .startsThisWorkflow => some id
  | .continues startedByEventId => some startedByEventId

/-- The envelope stores the event, in the run that it names. -/
def Written (e : EventEnvelope) (event : NewEvent) : Prop :=
  Stores e event ∧ e.workflowStartedByEventId = event.workflow.startedBy e.id

theorem written_envelopesFrom {ids : Nat → Uuid} {span : SpanContext} {baseTime : OffsetDateTime}
    {baseSequence head : Int} (i : Nat) (events : List NewEvent) :
    List.Forall₂ Written (envelopesFrom ids span baseTime baseSequence head i events) events := by
  induction events generalizing i with
  | nil => exact .nil
  | cons event events ih =>
    refine .cons ⟨⟨rfl, rfl, rfl, rfl, rfl, rfl⟩, ?_⟩ (ih (i + 1))
    show (envelopeOf ids span baseTime baseSequence _ i event).workflowStartedByEventId = _
    unfold envelopeOf
    cases event.workflow <;> rfl

/-- A batch and its envelopes have the same payloads. -/
theorem payload_stored {envelopes : List EventEnvelope} {events : List NewEvent}
    (h : List.Forall₂ Written envelopes events) {P : Json → Prop} :
    (∀ e ∈ envelopes, P e.payload) ↔ ∀ event ∈ events, P event.payload := by
  induction h with
  | nil => simp
  | cons hwritten _ ih => rw [List.forall_mem_cons, List.forall_mem_cons, hwritten.1.2.1, ih]

/-- What the answer of an append says about the store: the rows of its envelopes are there, and the
envelopes store the events of the batch. -/
def AppendStored {H : Type} (_ : H) : StreamCall → Except Abort StreamAns → World H → Prop
  | .append _ _ _ events, .ok (.appended result), w =>
    (∀ e ∈ result.events, e.toRow ∈ w.allRows ∧ e.Storable) ∧ List.Forall₂ Written result.events events
  | _, _, _ => True

/-- The append transaction has stored the events that it answers. -/
theorem AppendStep.stored {H : Type} [DecidableEq H] {name : Text} {expected : ExpectedVersion}
    {events : List NewEvent} {baseTime : OffsetDateTime} {e : StoreEnv} {w w' : World H}
    {result : AppendResult}
    (hbase : OffsetDateTime.fromUnixTimestampNanos (baseTime.unixTimestampMs * 1000000) =
      some baseTime)
    (h : AppendStep name expected events baseTime e w (.ok result) w') :
    (∀ e ∈ result.events, e.toRow ∈ w'.allRows ∧ e.Storable) ∧
      List.Forall₂ Written result.events events := by
  cases h with
  | @committed d d' head result hd hc =>
    obtain ⟨id, hdb⟩ := hc.db_eq
    obtain ⟨baseSequence, hevents⟩ := hc.events_eq
    refine ⟨fun e he => ⟨?_, ?_⟩, ?_⟩
    · have hrows : (w.setDb (.eventFile name) d').rowsOf name =
          d.rows ++ result.events.map EventEnvelope.toRow := by
        rw [World.rowsOf_setDb, hdb]
        rfl
      have hsubset : (w.setDb (.eventFile name) d').rowsOf name ⊆ (w.setDb (.eventFile name) d').allRows :=
        World.rowsOf_subset
      refine hsubset ?_
      rw [hrows]
      exact List.mem_append_right _ (List.mem_map_of_mem he)
    · rw [hevents] at he
      exact storable_envelopesFrom hc.positive hbase 0 events e he
    · rw [hevents]
      exact written_envelopesFrom 0 events

/-! ## What a call observes -/

section Observe

variable {H : Type} [DecidableEq H] {h : H}

/-- Whatever the others do, they remove no row. -/
def rowsKept [SerdeJson] (H : Type) [DecidableEq H] : Rely (eventStreams H) where
  rel := KeepsRows
  allow _ _ _ _ := True
  trans := KeepsRows.trans

theorem observes_any [SerdeJson] {α : Type} (p : Program (locked LockNote StoreI) Abort α) (w : World H)
    {Q : Except Abort α → World H → Prop} (hQ : ∀ r w, Q r w) :
    (rowsKept H).observes h p Q w := by
  induction p generalizing w with
  | done r => exact fun w' _ => hQ r w'
  | call o k ih =>
    cases o with
    | op o => exact fun w' _ e _ => ih _ _
    | _ => exact ih _ _

/-- Nothing has to be known of a first program if errors say nothing. -/
theorem observes_after [SerdeJson] {α β : Type} {p : Program (locked LockNote StoreI) Abort α}
    {f : α → Program (locked LockNote StoreI) Abort β} {Q : Except Abort β → World H → Prop}
    {w : World H} (hok : ∀ a w, (rowsKept H).observes h (f a) Q w)
    (herr : ∀ e w, Q (.error e) w) : (rowsKept H).observes h (p.bind f) Q w :=
  Rely.observes_bind (observes_any p w (Q := fun _ _ => True) fun _ _ => trivial) KeepsRows.refl
    (fun a w _ => hok a w) fun e w _ => herr e w

/-- An append under the write lock has stored what it answers. -/
theorem observes_appendLocked [SerdeJson] {expected : ExpectedVersion} {events : List NewEvent}
    {baseTime : OffsetDateTime} {Q : Except Abort AppendResult → World H → Prop} (w : World H)
    (hQ : ∀ result w, (∀ e ∈ result.events, e.toRow ∈ w.allRows ∧ e.Storable) →
      List.Forall₂ Written result.events events → Q (.ok result) w)
    (herr : ∀ e w, Q (.error e) w)
    (hbase : OffsetDateTime.fromUnixTimestampNanos (baseTime.unixTimestampMs * 1000000) =
      some baseTime) :
    (rowsKept H).observes h (appendLocked expected events baseTime).lift Q w := by
  intro w₁ _ e _
  cases (World.step h .readActive e w₁).1 with
  | none => exact fun w' _ => herr _ w'
  | some a =>
    intro w₂ _ e _
    cases (World.step h (.getConnection (.eventFile a.name)) e w₂).1 with
    | error err => exact fun w' _ => herr _ w'
    | ok u =>
      intro w₃ _ e _
      have hstep := step_appendTransaction expected events baseTime a.name (h := h) (e := e) (w := w₃)
      generalize (World.step h (.appendTransaction a.name expected events baseTime) e w₃).1 = r at hstep
      cases r with
      | error err => exact fun w' _ => herr _ w'
      | ok result =>
        intro w' hkeep
        obtain ⟨hstored, hevents⟩ := hstep.stored hbase
        exact hQ result w' (fun e he => ⟨hkeep (hstored e he).1, (hstored e he).2⟩) hevents

/-- **What an append stores is there when it answers.** -/
theorem observes_append [SerdeJson] {rotation : RotationPolicy} {fuel : Nat} {expected : ExpectedVersion}
    {events : List NewEvent} (w : World H) :
    (rowsKept H).observes h (StreamCall.append rotation fuel expected events).code
      (AppendStored h (.append rotation fuel expected events)) w := by
  have hstored : ∀ (p : Program (locked LockNote StoreI) Abort AppendResult) (w : World H),
      (rowsKept H).observes h p (fun r w => AppendStored h (.append rotation fuel expected events)
        (r.map StreamAns.appended) w) w →
      (rowsKept H).observes h (p.bind fun r => pure (.appended r))
        (AppendStored h (.append rotation fuel expected events)) w := fun p w hp =>
    Rely.observes_bind (Rely.observes_closed hp) KeepsRows.refl (fun result w hr => hr)
      fun e w hr => hr w (.refl w)
  refine hstored _ w (observes_after (fun _ w => ?_) fun _ _ => trivial)
  split
  · rename_i hempty
    obtain rfl := List.isEmpty_iff.1 hempty
    exact fun w' _ => ⟨fun e he => (by cases he), .nil⟩
  · refine observes_after (fun _ w => ?_) fun _ _ => trivial
    intro w₁ _ e _
    show (rowsKept H).observes h (appendAt rotation fuel expected events _ _) _ _
    cases hbase : OffsetDateTime.fromUnixTimestampNanos
        ((World.step h .now e w₁).1.unixTimestampMs * 1000000) with
    | none => exact fun w' _ => trivial
    | some baseTime =>
      refine observes_after (fun _ w => ?_) fun _ _ => trivial
      exact Rely.observes_withWrite KeepsRows.refl (observes_appendLocked w
        (fun result w hrows hevents => ⟨hrows, hevents⟩) (fun _ _ => trivial)
        (OffsetDateTime.fromUnixTimestampNanos_ms hbase))

theorem observes_call [SerdeJson] (call : StreamCall) (w : World H) :
    (rowsKept H).observes h call.code (AppendStored h call) w := by
  cases call with
  | append rotation fuel expected events => exact observes_append w
  | _ => exact observes_any _ w fun r w => trivial

end Observe

/-! ## Runs -/

section Runs

variable {H T : Type} [DecidableEq H] [DecidableEq T]

/-- Any step may be taken: the process may be restarted at any moment, and anything may fail. -/
def Anything [SerdeJson] (_ : Config (eventStreams H) T) (_ : Label (eventStreams H) T) : Prop := True

/-- A step of the system keeps the rows. -/
theorem Step.keepsRows [SerdeJson] {c c' : Config (eventStreams H) T} {l : Label (eventStreams H) T}
    (h : Step c l c') : KeepsRows c.st c'.st := by
  cases h with
  | op t h call o k e ht => exact step_rows
  | restart => exact .refl c.st
  | _ => exact .refl c.st

/-- Every call observes what it has stored. -/
theorem observed_run [SerdeJson] {w : World H}
    {tr : List (Label (eventStreams H) T × Config (eventStreams H) T)}
    (hrun : IsRun Anything (Config.idle T w) tr) :
    (rowsKept H).Observed AppendStored (fun _ => True) (lastOf (Config.idle T w) tr) := by
  refine hrun.invariant_last ?_ fun c l c' hc hstep _ => ?_
  · intro t task _ htask
    cases htask
  · exact Rely.observed_step KeepsRows.refl hc hstep (Step.keepsRows hstep)
      (fun t h call _ _ => observes_call call c.st) fun _ _ _ _ _ => trivial

theorem keepsRows_run [SerdeJson] {c : Config (eventStreams H) T}
    {tr : List (Label (eventStreams H) T × Config (eventStreams H) T)} (hrun : IsRun Anything c tr) :
    KeepsRows c.st (lastOf c tr).st :=
  hrun.invariant_last (P := fun c' => KeepsRows c.st c'.st) (.refl c.st)
    fun _ _ _ hc hstep _ => hc.trans (Step.keepsRows hstep)

/-- **Reading an event back**, where parsing inverts writing below the recursion limit: from the answer
of an append on, the rows of its envelopes are stored, and each of them decodes to its envelope and makes
no read fail iff the payload of every event of the batch is nested below the limit. -/
theorem appended_read_back [SerdeJson] (hserde : SerdeJson.Inverts) {w : World H} {t : T} {h : H}
    {rotation : RotationPolicy} {fuel : Nat}
    {expected : ExpectedVersion} {events : List NewEvent} {result : AppendResult}
    {c : Config (eventStreams H) T}
    {tr tr' : List (Label (eventStreams H) T × Config (eventStreams H) T)}
    (hrun : IsRun Anything (Config.idle T w)
      (tr ++ (.respond t h (.append rotation fuel expected events) (.ok (.appended result)), c) ::
        tr')) :
    ((∀ e ∈ result.events, e.toRow ∈ (lastOf c tr').st.allRows) ∧
        ∀ e ∈ result.events, ReadsBack e) ↔
      ∀ event ∈ events, event.payload.depth < Json.recursionLimit := by
  obtain ⟨hbefore, hstep, -, hafter⟩ := hrun.of_append
  obtain ⟨hrows, hstores⟩ := (observed_run hbefore).respond KeepsRows.refl trivial hstep
  have hkeep : KeepsRows (lastOf (Config.idle T w) tr).st (lastOf c tr').st :=
    (Step.keepsRows hstep).trans (keepsRows_run hafter)
  rw [← payload_stored hstores (P := fun payload => payload.depth < Json.recursionLimit)]
  constructor
  · exact fun hback e he => hserde.isReadBack_iff.1 ((readsBack_iff (hrows e he).2).1 (hback.2 e he))
  · exact fun hd => ⟨fun e he => hkeep (hrows e he).1, fun e he =>
      (readsBack_iff (hrows e he).2).2 (hserde.isReadBack_iff.2 (hd e he))⟩

end Runs

/-! ## A payload that is nested too deep -/

/-- `n` arrays around `null`. -/
def nested : Nat → Json
  | 0 => .null
  | n + 1 => .array [nested n]

/-- An event with 128 arrays in each other. -/
def deepEvent : NewEvent := { noteEvent with payload := nested 128 }

attribute [local instance] SerdeJson.limited

/-- An event that starts a workflow run, and one that continues the run of the event `7`, with documents
inside each other. -/
def requestedEvents : List NewEvent :=
  [⟨['p', 'a', 'i', 'd'], .object [(['s', 'u', 'm'], .array [.number ['1', '2'], .bool true])],
      some ['r', 'u', 'n'], .startsThisWorkflow, some ['q', '1'], ['u', '1'], .user⟩,
    ⟨['s', 'e', 'n', 't'], .array [.array [.string ['é', '"']], .object []], some ['r', 'u', 'n'],
      .continues ⟨7⟩, some ['q', '2'], ['k', '1'], .apiKey⟩]

/-- A client appends events and reads the stream. -/
def appendThenLoad (events : List NewEvent) : List (Move (eventStreams Unit) Unit) :=
  .invoke () () (.append hourly 1 .any events) :: List.replicate 15 (.turn () {}) ++
    .invoke () () (.loadAfterVersion hourly .start 10) :: List.replicate 5 (.turn () {})

/-- A step of one client. -/
abbrev LabelOf := Label (eventStreams Unit) Unit × Config (eventStreams Unit) Unit

/-- The append answers with an envelope that does not decode. -/
def answersUndecodable : LabelOf → Bool
  | (.respond _ _ (.append _ _ _ _) (.ok (.appended result)), _) =>
    result.events.any fun e => !(eventFromRow e.toRow).isOk
  | _ => false

def answersSerdeError : LabelOf → Bool
  | (.respond _ _ (.loadAfterVersion _ _ _) (.error (.es (.serde _))), _) => true
  | _ => false

/-- Its document is nested, and it belongs to a workflow run and a request. -/
def isRequested (event : NewEvent) : Bool :=
  2 ≤ event.payload.depth && (event.payload.depth < Json.recursionLimit &&
    (event.workflowKind.isSome && event.requestId.isSome))

/-- The append of two such events is answered. -/
def answersRequested : LabelOf → Bool
  | (.respond _ _ (.append _ _ _ events) (.ok (.appended _)), _) =>
    events.length == 2 && events.all isRequested
  | _ => false

theorem appended_read_back_requested : ∃ (tr tr' : List LabelOf) (c : Config (eventStreams Unit) Unit)
      (t h : Unit) (rotation : RotationPolicy) (fuel : Nat) (expected : ExpectedVersion)
      (events : List NewEvent) (result : AppendResult),
    IsRun Anything (Config.idle Unit opened)
      (tr ++ (.respond t h (.append rotation fuel expected events) (.ok (.appended result)), c) ::
        tr') ∧ events.length = 2 ∧
    (∀ event ∈ events, 2 ≤ event.payload.depth ∧ event.workflowKind.isSome ∧ event.requestId.isSome) ∧
    (∀ e ∈ result.events, e.toRow ∈ (lastOf c tr').st.allRows) ∧
      ∀ e ∈ result.events, ReadsBack e := by
  have hplay : ((play (appendThenLoad requestedEvents) (Config.idle Unit opened)).map fun tr =>
      tr.any answersRequested) = some true := by decide +kernel
  obtain ⟨tr, htr, hany⟩ := Option.map_eq_some_iff.1 hplay
  have hrun : IsRun Anything (Config.idle Unit opened) tr := play_sound htr fun _ _ _ => trivial
  obtain ⟨x, hx, hp⟩ := List.any_eq_true.1 hany
  obtain ⟨tr₁, tr₂, rfl⟩ := List.append_of_mem hx
  unfold answersRequested at hp
  split at hp
  · simp only [Bool.and_eq_true, beq_iff_eq, List.all_eq_true, isRequested, decide_eq_true_eq] at hp
    obtain ⟨hlength, hall⟩ := hp
    exact ⟨_, _, _, _, _, _, _, _, _, _, hrun, hlength,
      fun event hevent => ⟨(hall event hevent).1, (hall event hevent).2.2⟩,
      (appended_read_back SerdeJson.inverts_limited hrun).2 fun event hevent => (hall event hevent).2.1⟩
  · cases hp

theorem not_readsBack_of_isOk {e : EventEnvelope} (h : (eventFromRow e.toRow).isOk = false) :
    ¬ReadsBack e := by
  rintro ⟨hok, -⟩
  rw [hok] at h
  cases h

/-- The deep event is accepted, its row does not decode, and the next read fails. -/
theorem not_read_back_deep : ∃ tr, IsRun Anything (Config.idle Unit opened) tr ∧
    (∃ rotation fuel expected events result c,
      (.respond () () (.append rotation fuel expected events) (.ok (.appended result)), c) ∈ tr ∧
        ∃ e ∈ result.events, ¬ReadsBack e) ∧
    ∃ rotation cursor limit message c,
      (.respond () () (.loadAfterVersion rotation cursor limit) (.error (.es (.serde message))), c) ∈
        tr := by
  have hplay : ((play (appendThenLoad [deepEvent]) (Config.idle Unit opened)).map fun tr =>
      tr.any answersUndecodable && tr.any answersSerdeError) = some true := by decide +kernel
  obtain ⟨tr, htr, hany⟩ := Option.map_eq_some_iff.1 hplay
  obtain ⟨hdeep, hload⟩ := Bool.and_eq_true_iff.1 hany
  refine ⟨tr, play_sound htr fun _ _ _ => trivial, ?_, ?_⟩
  · obtain ⟨x, hx, hp⟩ := List.any_eq_true.1 hdeep
    unfold answersUndecodable at hp
    split at hp
    · obtain ⟨e, he, hdecode⟩ := List.any_eq_true.1 hp
      exact ⟨_, _, _, _, _, _, hx, e, he, not_readsBack_of_isOk (by simpa using hdecode)⟩
    · cases hp
  · obtain ⟨x, hx, hp⟩ := List.any_eq_true.1 hload
    unfold answersSerdeError at hp
    split at hp
    · exact ⟨_, _, _, _, _, hx⟩
    · cases hp

end Events
