import Events.Opening
import Events.StreamRules

/-!
# The version space of a partition

Over all event files of a partition the stored versions are 1 to n, each once, and the append head
of the active file is n, at every moment: under any interleaving of the
calls on one stream, for any policy and any clock, whatever storage steps fail.

* **`Ledger`** — the events of all files are the committed ones, and their versions are 1 to n.
* **`VersionInv`** — moreover the head of the active file is n. Every single step keeps it: a
  rotation carries the head over to the file that it makes active, and a transaction that is not
  committed leaves nothing behind.
* **`appendDiscipline`** — the discipline of the calls; the ghost value of a call is what it appends
  and what its transaction answered (`AppendPost`).
* **`versions_contiguous`** — the result on runs.
-/

namespace Events

open Proc Program Discipline

/-- The events of all files are those of the log, whose versions are 1 to n. -/
structure Ledger {H : Type} (w : World H) : Prop where
  rows : w.allRows.Perm (w.log.map EventEnvelope.toRow)
  versions : w.log.map (fun e => e.version.get) = versionsFrom 0 w.log.length

/-- The append head of the active file is the number of events. -/
structure VersionInv (w : World Unit) : Prop extends Ledger w where
  active : ∃ p a, w.handles () = some (p, a) ∧ w.headOf a.name = some (w.log.length : Int)

/-! ## Versions -/

theorem mem_versionsFrom {p v : Int} {n : Nat} : v ∈ versionsFrom p n ↔ p < v ∧ v ≤ p + n := by
  induction n generalizing p with
  | zero => simp [versionsFrom]
  | succ n ih =>
    simp only [versionsFrom, List.mem_cons, ih]
    push_cast
    omega

theorem length_versionsFrom (p : Int) (n : Nat) : (versionsFrom p n).length = n := by
  induction n generalizing p with
  | zero => rfl
  | succ n ih => rw [versionsFrom, List.length_cons, ih]

theorem nodup_versionsFrom (p : Int) (n : Nat) : (versionsFrom p n).Nodup := by
  induction n generalizing p with
  | zero => exact List.nodup_nil
  | succ n ih =>
    refine List.nodup_cons.2 ⟨fun h => ?_, ih (p + 1)⟩
    have := mem_versionsFrom.1 h
    omega

theorem versionsFrom_add (p : Int) (m n : Nat) :
    versionsFrom p (m + n) = versionsFrom p m ++ versionsFrom (p + m) n := by
  induction m generalizing p with
  | zero => simp [versionsFrom]
  | succ m ih =>
    have hp : p + 1 + (m : Int) = p + (m + 1 : Nat) := by push_cast; omega
    rw [Nat.succ_add, versionsFrom, versionsFrom, ih, hp, List.cons_append]

section Ledger

variable {H : Type} {w w' : World H}

theorem Ledger.version_le (hl : Ledger w) {row : EventRow} (hrow : row ∈ w.allRows) :
    row.version ≤ w.log.length := by
  obtain ⟨e, he, rfl⟩ := List.mem_map.1 (hl.rows.mem_iff.1 hrow)
  have : e.version.get ∈ versionsFrom 0 w.log.length := by
    rw [← hl.versions]
    exact List.mem_map_of_mem he
  have := mem_versionsFrom.1 this
  show e.version.get ≤ _
  omega

/-- The stored versions. -/
theorem Ledger.perm (hl : Ledger w) :
    (w.allRows.map EventRow.version).Perm (versionsFrom 0 w.log.length) := by
  have := hl.rows.map EventRow.version
  rw [List.map_map] at this
  exact this.trans (List.Perm.of_eq hl.versions)

theorem Ledger.of_rows (hl : Ledger w) (hrows : w'.allRows.Perm w.allRows) (hlog : w'.log = w.log) :
    Ledger w' where
  rows := by rw [hlog]; exact hrows.trans hl.rows
  versions := by rw [hlog]; exact hl.versions

theorem Ledger.sameFiles (hl : Ledger w) (hw : SameFiles w w') : Ledger w' :=
  hl.of_rows (by rw [World.allRows, hw.files]; exact List.Perm.refl _) hw.log

theorem Ledger.building {name : Text} {v : Int} (hl : Ledger w) (hw : Building name v w w') :
    Ledger w' :=
  hl.of_rows hw.allRows hw.log

/-- A committed batch is stored beside what is there. -/
theorem allRows_committed {name : Text} {d d' : Db} {head : Int} {ids : Nat → Uuid}
    {span : SpanContext} {expected : ExpectedVersion} {events : List NewEvent}
    {baseTime : OffsetDateTime} {result : AppendResult} (hd : w.files.lookup name = some d)
    (hc : AppendCommitted ids span expected events baseTime d d' head result) :
    (w.setDb (.eventFile name) d').allRows.Perm
      (w.allRows ++ result.events.map EventEnvelope.toRow) := by
  obtain ⟨id, hdb⟩ := hc.db_eq
  have hold : w.allRows.Perm (d.rows ++ w.rowsOutside name) := by
    have := w.allRows_perm name
    rwa [World.rowsOf, hd] at this
  have hnew : (w.setDb (.eventFile name) d').allRows.Perm
      (d.rows ++ result.events.map EventEnvelope.toRow ++ w.rowsOutside name) := by
    have := (w.setDb (.eventFile name) d').allRows_perm name
    rw [World.rowsOf_setDb, World.rowsOutside_setDb] at this
    rwa [hdb] at this ⊢
  refine hnew.trans ?_
  rw [List.append_assoc]
  refine (List.perm_append_comm.append_left _).trans ?_
  rw [← List.append_assoc]
  exact hold.symm.append_right _

/-- The versions of a committed batch. -/
theorem versions_committed {d d' : Db} {head : Int} {ids : Nat → Uuid} {span : SpanContext}
    {expected : ExpectedVersion} {events : List NewEvent} {baseTime : OffsetDateTime}
    {result : AppendResult}
    (hc : AppendCommitted ids span expected events baseTime d d' head result) :
    result.events.map (fun e => e.version.get) = versionsFrom head events.length := by
  obtain ⟨baseSequence, hevents⟩ := hc.events_eq
  rw [hevents, version_envelopesFrom]
  simp

/-- A committed batch extends the ledger. -/
theorem Ledger.committed {name : Text} {d d' : Db} {ids : Nat → Uuid} {span : SpanContext}
    {expected : ExpectedVersion} {events : List NewEvent} {baseTime : OffsetDateTime}
    {result : AppendResult} (hl : Ledger w) (hd : w.files.lookup name = some d)
    (hc : AppendCommitted ids span expected events baseTime d d' w.log.length result) :
    Ledger { w.setDb (.eventFile name) d' with log := w.log ++ result.events } := by
  have hversions := versions_committed hc
  have hlen : result.events.length = events.length := by
    rw [← length_versionsFrom w.log.length events.length, ← hversions, List.length_map]
  refine { rows := ?_, versions := ?_ }
  · rw [List.map_append]
    exact (allRows_committed hd hc).trans (hl.rows.append_right _)
  · rw [List.map_append, hl.versions, hversions, List.length_append, hlen, versionsFrom_add,
      Int.zero_add]

end Ledger

namespace VersionInv

variable {w w' : World Unit}

theorem sameFiles (hi : VersionInv w) (hw : SameFiles w w') : VersionInv w' where
  toLedger := hi.toLedger.sameFiles hw
  active := by
    obtain ⟨p, a, ha, hhead⟩ := hi.active
    exact ⟨p, a, by rw [hw.handles, ha], by rw [World.headOf, hw.files, hw.log]; exact hhead⟩

/-- A file prepared with the number of events as its head may even be the active one. -/
theorem building {name : Text} (hi : VersionInv w) (hw : Building name w.log.length w w') :
    VersionInv w' where
  toLedger := hi.toLedger.building hw
  active := by
    obtain ⟨p, a, ha, hhead⟩ := hi.active
    refine ⟨p, a, by rw [hw.handles, ha], ?_⟩
    rw [hw.log]
    by_cases hname : a.name = name
    · subst hname
      rcases hw.head with h | h
      · rw [h, hhead]
      · exact h
    · rw [hw.headOf_ne hname, hhead]

theorem activate (hi : VersionInv w) {new : ActivePartition}
    (hhead : w.headOf new.name = some (w.log.length : Int)) : VersionInv (w.activate () new) where
  toLedger := hi.toLedger.of_rows (List.Perm.refl _) rfl
  active := by
    obtain ⟨p, a, ha, -⟩ := hi.active
    exact ⟨p, new, by simp [World.activate, ha], hhead⟩

/-- The head of the file that the active partition names. -/
theorem head_eq (hi : VersionInv w) {p : RotationPolicy} {a : ActivePartition} {head : Int}
    (ha : w.handles () = some (p, a)) (hhead : w.headOf a.name = some head) :
    head = w.log.length := by
  obtain ⟨p', a', ha', hhead'⟩ := hi.active
  obtain ⟨rfl, rfl⟩ : p = p' ∧ a = a' := by simpa [ha] using ha'
  exact Option.some.inj (hhead.symm.trans hhead')

theorem rotating {old new : Text} (hi : VersionInv w)
    (hw : Rotating old w.log.length new w w') : VersionInv w' ∧ w'.log = w.log := by
  obtain ⟨w₁, hseal, hb⟩ := hw
  rw [← hseal.log] at hb
  exact ⟨(hi.sameFiles hseal.toSameFiles).building hb, hb.log.trans hseal.log⟩

/-- The append transaction keeps the invariant, whatever becomes of it. -/
theorem appendStep {p : RotationPolicy} {a : ActivePartition} {expected : ExpectedVersion}
    {events : List NewEvent} {baseTime : OffsetDateTime} {e : StoreEnv}
    {r : Except EsError AppendResult} (hi : VersionInv w) (ha : w.handles () = some (p, a))
    (hstep : AppendStep a.name expected events baseTime e w r w') : VersionInv w' := by
  cases hstep with
  | @committed d d' head result hd hc =>
    obtain ⟨id, hdb⟩ := hc.db_eq
    obtain ⟨baseSequence, hevents⟩ := hc.events_eq
    obtain rfl := hi.head_eq ha (by rw [World.headOf, hd]; exact hc.head_eq)
    refine { toLedger := hi.toLedger.committed hd hc, active := ⟨p, a, ha, ?_⟩ }
    show ((w.setDb (.eventFile a.name) d').files.lookup a.name).bind Db.headVersion = _
    rw [World.lookup_setDb, hdb]
    simp [Db.headVersion, hevents]
  | refused hw => exact hi.building (hw _)

end VersionInv

/-! ## The discipline -/

/-- What a call appends and, once its transaction has been run, what that answered. -/
inductive CallStatus where
  | other
  | pending (expected : ExpectedVersion) (events : List NewEvent)
  | decided (expected : ExpectedVersion) (events : List NewEvent)
      (answer : Except EsError AppendResult)

namespace CallStatus

def ofCall : StreamCall → CallStatus
  | .append _ _ expected events => .pending expected events
  | _ => .other

def decide (answer : Except EsError AppendResult) : CallStatus → CallStatus
  | .pending expected events => .decided expected events answer
  | status => status

/-- The status after an operation. -/
def after : (o : StoreOp) → o.Resp → CallStatus → CallStatus
  | .appendTransaction _ _ _ _, answer, status => status.decide answer
  | _, _, status => status

theorem after_of_not_append {o : StoreOp} (ho : o.isAppend = false) (x : o.Resp)
    (status : CallStatus) : status.after o x = status := by
  cases o <;> first | rfl | cases ho

end CallStatus

/-- A batch that the validation lets through, with a time of whole milliseconds. -/
structure Admissible (events : List NewEvent) (baseTime : OffsetDateTime) : Prop where
  valid : validateEvents events = .ok ()
  wholeMs : OffsetDateTime.fromUnixTimestampNanos (baseTime.unixTimestampMs * 1000000) =
    some baseTime

/-- An append transaction is that of the call, on the active file and of an admissible batch;
nothing else changes the log. -/
def AppendGuarantee (status : CallStatus) : StoreOp → World Unit → World Unit → Prop
  | .appendTransaction name expected events baseTime, w, _ =>
    status = .pending expected events ∧ (∃ p a, w.handles () = some (p, a) ∧ a.name = name) ∧
      Admissible events baseTime
  | _, w, w' => w'.log = w.log

theorem appendGuarantee_of_log {status : CallStatus} {o : StoreOp} {w w' : World Unit}
    (ho : o.isAppend = false) (hlog : w'.log = w.log) : AppendGuarantee status o w w' := by
  cases o <;> first | exact hlog | cases ho

/-- The calls on one stream, for any policy and any clock, whatever fails. -/
def appendDiscipline [SerdeJson] : Discipline (eventStreams Unit) CallStatus where
  allow _ _ _ := True
  allowWrite _ _ := True
  restarts := .never
  inv := VersionInv
  always := VersionInv
  guarantee := AppendGuarantee
  ghost₀ := CallStatus.ofCall
  ghost o x status := status.after o x

/-- How the answer of an append follows from what its transaction answered. Without a transaction it
is an error that is not one of a wrong version, or the empty batch was appended. -/
def AppendPost : StreamCall → Except Abort StreamAns → CallStatus → Prop
  | .append _ _ expected events, r, status =>
    (∃ result, status = .decided expected events (.ok result) ∧ r = .ok (.appended result)) ∨
    (∃ err, status = .decided expected events (.error err) ∧ r = .error (.es err)) ∨
    (status = .pending expected events ∧
      ((∃ e, r = .error e ∧ PlainError e) ∨ (events = [] ∧ r = .ok (.appended emptyAppend))))
  | _, _, status => status = .other

/-- **The calls of a discipline that follows the appends**, given what a rotation, an append and the
opening do to its invariant. -/
theorem Reads.lawful_append [SerdeJson] {D : Discipline (eventStreams Unit) CallStatus}
    {Clock : OffsetDateTime → Prop} (hD : Reads D Clock) (hghost₀ : D.ghost₀ = CallStatus.ofCall)
    (hghost : D.ghost = fun o x status => status.after o x) (halways : ∀ w, D.inv w → D.always w)
    (hidle : D.restarts = .idle → ∀ w, D.inv w → D.inv w.restart)
    (hanytime : D.restarts = .anytime → ∀ w, D.always w → D.inv w.restart)
    (hopen : ∀ rotation w, D.always w → w.handles () = none →
      D.safe (withWrite (.opening rotation) (openPartitioned rotation))
        (fun _ m status _ => m = .free ∧ status = .other) .free .other w)
    (hrot : ∀ rotation nowMs status w, Timely Clock nowMs → D.inv w →
      D.allowWrite (.rotating rotation nowMs) w →
      wp (D.contract status) (rotatePartitionLocked rotation nowMs) (fun _ w => D.inv w) w)
    (happend : ∀ expected events baseTime p a e r w w', D.inv w → D.allowWrite .appending w →
      w.handles () = some (p, a) → events ≠ [] → Admissible events baseTime →
      AppendStep a.name expected events baseTime e w r w' →
      D.allow (.appendTransaction a.name expected events baseTime) e w →
      D.guarantee (.pending expected events) (.appendTransaction a.name expected events baseTime) w w' ∧
        D.inv w') : D.Lawful AppendPost where
  always_of_inv := halways
  restart_idle := hidle
  restart_anytime := hanytime
  code call w hw hready := by
    -- every call but the opening reaches its rotation on this way
    have hrotate : ∀ {rotation nowMs status} w, Timely Clock nowMs →
        D.safe (rotatePartition rotation nowMs) (SoftEnd status) .free status w :=
      fun {rotation nowMs status} w ht => hD.safe_rotatePartition w fun w hi hn =>
        hrot rotation nowMs status w ht hi hn
    cases call with
    | openPartitioned rotation =>
      have hnone : w.handles () = none := by
        cases hh : w.handles () with
        | none => rfl
        | some pa => simp [StreamCall.ready, hh] at hready
      show D.safe ((withWrite (.opening rotation) (openPartitioned rotation)).bind _) _ _ _ _
      rw [safe_bind, hghost₀]
      refine safe_mono (hopen rotation w hw hnone) fun r m γ w hr => ?_
      cases r with
      | ok u => exact hr
      | error e => exact hr
    | append rotation fuel expected events =>
      show D.safe ((append rotation fuel expected events).bind _) _ _ _ _
      rw [safe_bind, hghost₀]
      -- without the lock the call ends with an empty batch or an error, the log as it was
      refine hD.safe_append w (fun nowMs w ht => hrotate w ht)
        (fun w he => ⟨rfl, .inr (.inr ⟨rfl, .inr ⟨he, rfl⟩⟩)⟩)
        (fun e w he => ⟨rfl, .inr (.inr ⟨rfl, .inl ⟨e, rfl, he⟩⟩)⟩)
        fun nowMs baseTime w hne hval _ hbase => ?_
      have hadm : Admissible events baseTime :=
        ⟨hval, OffsetDateTime.fromUnixTimestampNanos_ms hbase⟩
      -- under the lock its only step on the log is the transaction
      refine safe_withWrite fun w hi hn => ?_
      refine hD.safe_appendLocked (halways w hi)
        (fun e he => ⟨rfl, hi, rfl, .inr (.inr ⟨rfl, .inl ⟨e, rfl, he⟩⟩)⟩)
        fun p a e r w' ha hstep hallow => ?_
      obtain ⟨hG, hi'⟩ := happend expected events baseTime p a e r w w' hi hn ha hne hadm hstep hallow
      refine ⟨hG, halways w' hi', ?_⟩
      rw [hghost]
      cases r with
      | ok result => exact ⟨rfl, hi', rfl, .inl ⟨result, rfl, rfl⟩⟩
      | error err => exact ⟨rfl, hi', rfl, .inr (.inl ⟨err, rfl, rfl⟩)⟩
    | maybeRotate rotation =>
      show D.safe ((maybeRotate rotation).bind _) _ _ _ _
      rw [safe_bind, hghost₀]
      refine safe_mono (hD.safe_maybeRotate w fun _ w ht => hrotate w ht) fun r m γ w hr => ?_
      cases r with
      | ok u => exact ⟨hr.1, hr.2.1⟩
      | error e => exact ⟨hr.1, hr.2.1⟩
    | loadAfterVersion rotation cursor limit =>
      show D.safe ((lift (loadAfterVersion cursor limit)).bind _) _ _ _ _
      rw [safe_bind, hghost₀]
      refine safe_mono (hD.safe_load w) fun r m γ w hr => ?_
      cases r with
      | ok u => exact hr
      | error e => exact hr
    | currentVersion rotation =>
      show D.safe (currentVersion.bind _) _ _ _ _
      rw [safe_bind, hghost₀]
      refine safe_mono (hD.safe_currentVersion w) fun r m γ w hr => ?_
      cases r with
      | ok u => exact hr
      | error e => exact hr

theorem reads_appendDiscipline [SerdeJson] : Reads appendDiscipline fun _ => True where
  quiet _ ho x status := CallStatus.after_of_not_append ho x status
  refl _ _ _ ho _ := appendGuarantee_of_log (isAppend_of_isPassive ho) rfl
  clock _ _ _ := trivial

/-- A rotation keeps the invariant at each of its steps. -/
theorem wp_rotate_versionInv [SerdeJson] {rotation : RotationPolicy} {nowMs : Int} {status : CallStatus}
    {w : World Unit} (hi : VersionInv w) :
    wp (appendDiscipline.contract status) (rotatePartitionLocked rotation nowMs)
      (fun _ w => VersionInv w) w := by
  have hkeep : ∀ (o : StoreOp) (w w' : World Unit), o.isAppend = false → VersionInv w' →
      w'.log = w.log → (appendDiscipline.contract status).guarantee o w w' :=
    fun o w w' ho hi' hlog => ⟨appendGuarantee_of_log ho hlog, hi'⟩
  refine wp_rotatePartitionLocked (fun o ho => hkeep o w w (isAppend_of_isPassive ho) hi rfl)
    (fun e => hi) fun p a new head ha _ hhead => ?_
  obtain rfl := hi.head_eq ha hhead
  have hrot := fun {w'} (hw' : Rotating a.name w.log.length new.name w w') => hi.rotating hw'
  have hlisted : ∀ w' w'', Rotating a.name w.log.length new.name w w' →
      RangesUpdated (Stmt.upsert (rangeOf new.name w.log.length)) w' w'' → VersionInv w'' :=
    fun w' w'' hw' hu => (hrot hw').1.sameFiles hu.toSameFiles
  refine wp_rotateTo (fun o ho => hkeep o w w (isAppend_of_onCatalog ho) hi rfl)
    (fun w' hw' => hkeep _ _ _ rfl (hi.sameFiles hw'.toSameFiles) hw'.log)
    (fun o w' w'' ho hw' hw'' => hkeep o _ _ ?_ (hrot hw'').1 ?_)
    (fun w' w'' hw' hu => hkeep _ _ _ rfl (hlisted w' w'' hw'.1 hu) hu.log)
    (fun w'' hw'' => ?_) (fun _ _ => hi) fun _ _ hw' _ => (hrot hw').1
  · rcases ho with ho | ⟨ho, -⟩
    · exact isAppend_of_prepares ho
    · exact isAppend_of_onCatalog ho
  · rw [(hrot hw'').2, (hrot hw').2]
  · obtain ⟨w', ⟨hw', hhead', -⟩, hu⟩ := hw''
    have hnew : VersionInv (w''.activate () new) := by
      refine (hlisted w' w'' hw' hu).activate ?_
      rw [World.headOf, hu.files, hu.log, (hrot hw').2]
      exact hhead'
    exact ⟨hkeep _ _ _ rfl hnew rfl, hnew⟩

/-- **The calls follow the discipline.** -/
theorem lawful_appendDiscipline [SerdeJson] : appendDiscipline.Lawful AppendPost := by
  have hclosed : ∀ w : World Unit, VersionInv w → w.handles () ≠ none := fun w hi => by
    obtain ⟨p, a, ha, -⟩ := hi.active
    rw [ha]
    nofun
  refine reads_appendDiscipline.lawful_append rfl rfl (fun _ hi => hi) nofun nofun
    (fun rotation w hi hnone => absurd hnone (hclosed w hi))
    (fun rotation nowMs status w _ hi _ => wp_rotate_versionInv hi) ?_
  intro expected events baseTime p a e r w w' hi _ ha _ hadm hstep _
  exact ⟨⟨rfl, ⟨p, a, ha, rfl⟩, hadm⟩, hi.appendStep ha hstep⟩

/-! ## Runs -/

/-- The first open establishes the invariant. -/
theorem FirstOpen.versionInv {rotation : RotationPolicy} {t : OffsetDateTime} {a : ActivePartition}
    {w : World Unit} (h : FirstOpen rotation t a w) : VersionInv w where
  rows := by rw [h.rows, h.log]; exact List.Perm.refl _
  versions := by rw [h.log]; rfl
  active := ⟨rotation, a, h.handle, by rw [World.headOf, h.file, h.log]; rfl⟩

section Runs

variable [SerdeJson] {T : Type} [DecidableEq T] {rotation : RotationPolicy} {w₀ : World Unit}
  {tr : List (Label (eventStreams Unit) T × Config (eventStreams Unit) T)}

/-- The process is not restarted. -/
def NoRestart (_ : Config (eventStreams Unit) T) (l : Label (eventStreams Unit) T) : Prop :=
  l ≠ .restart

omit [DecidableEq T] in
theorem permits_of_noRestart {c : Config (eventStreams Unit) T} {l : Label (eventStreams Unit) T}
    (h : NoRestart c l) : appendDiscipline.Permits c l := by
  cases l with
  | restart => exact h rfl
  | _ => trivial

/-- Runs on a partition opened empty follow the discipline. -/
theorem sound_of_opens (hopen : Opens rotation World.empty w₀)
    (hrun : IsRun NoRestart (Config.idle T w₀) tr) :
    ∃ g, appendDiscipline.Sound AppendPost (lastOf (Config.idle T w₀) tr) g := by
  obtain ⟨t, a, hfirst⟩ := firstOpen_of_opens hopen
  exact ⟨_, sound_run lawful_appendDiscipline (fun _ _ => permits_of_noRestart)
    (sound_idle lawful_appendDiscipline hfirst.versionInv fun _ => .other) hrun⟩

/-- **The version space**: at every moment of every run, and so whenever nobody holds the lock for
writing, the versions stored over all event files are 1 to n, each once, and n is what
`current_version` answers. -/
theorem versions_contiguous (hopen : Opens rotation World.empty w₀)
    (hrun : IsRun NoRestart (Config.idle T w₀) tr) :
    ∃ n : Nat, ((lastOf (Config.idle T w₀) tr).st.allRows.map EventRow.version).Perm
        (versionsFrom 0 n) ∧
      (lastOf (Config.idle T w₀) tr).st.currentVersion = .ok ⟨n⟩ := by
  obtain ⟨g, hsound⟩ := sound_of_opens hopen hrun
  obtain ⟨p, a, ha, hhead⟩ := hsound.always.active
  exact ⟨_, hsound.always.perm, World.currentVersion_eq ha hhead (by omega)⟩

end Runs

/-- An event without a workflow. -/
def noteEvent : NewEvent := ⟨['n', 'o', 't', 'e'], .null, none, .none, none, ['u', '1'], .user⟩

attribute [local instance] SerdeJson.limited

/-- Two clients append an event each, side by side up to the write lock. -/
def twoAppends : List (Move (eventStreams Unit) Bool) :=
  [.invoke true () (.append hourly 1 .any [noteEvent]),
    .invoke false () (.append hourly 1 .any [noteEvent])] ++
  (List.replicate 9 [.turn true {}, .turn false {}]).flatten ++
  List.replicate 6 (.turn true {}) ++
  List.replicate 6 (.turn false { ids := fun i => ⟨BitVec.ofNat 128 (i + 1)⟩ })

theorem noRestart_of_play {ms : List (Move (eventStreams Unit) Bool)}
    {c : Config (eventStreams Unit) Bool}
    {tr : List (Label (eventStreams Unit) Bool × Config (eventStreams Unit) Bool)}
    (h : play ms c = some tr) (hms : (ms.all fun m => !m.isRestart) = true) :
    IsRun NoRestart c tr :=
  play_sound h fun x hx _ => play_ne_restart h hms x hx

theorem versions_contiguous_twoAppends :
    ∃ tr, play twoAppends (Config.idle Bool opened) = some tr ∧
      (lastOf (Config.idle Bool opened) tr).st.log.length = 2 ∧
      ∃ n : Nat, ((lastOf (Config.idle Bool opened) tr).st.allRows.map EventRow.version).Perm
          (versionsFrom 0 n) ∧
        (lastOf (Config.idle Bool opened) tr).st.currentVersion = .ok ⟨n⟩ := by
  obtain ⟨tr, htr, hlen⟩ := exists_play twoAppends (c := Config.idle Bool opened)
    (P := fun c => c.st.log.length == 2) (by decide +kernel)
  exact ⟨tr, htr, beq_iff_eq.1 hlen,
    versions_contiguous opens_opened (noRestart_of_play htr rfl)⟩

end Events
