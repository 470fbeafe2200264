import Events.VersionSpace
import Events.Lib.Linearizable

/-!
# Appends refine an atomic log

The sequential object is a log of events: an append puts its batch behind what is there, with the
versions that follow, or is refused and leaves the log as it was (`LogStep`). The calls on one
stream refine its atomic version. The append transaction is the moment at which a call takes
effect; a call that fails before it takes effect when it answers.

* **`eventLog`** — the sequential object.
* **`abstraction`** — the atomic log that a configuration stands for.
* **`refines_step`** — the simulation: each step of the system is matched by the atomic log.
* **`append_linearizable`** — the result on runs.
-/

namespace Events

open Proc Program Discipline

/-! ## The sequential object -/

/-- The envelope stores the event. -/
def Stores (e : EventEnvelope) (event : NewEvent) : Prop :=
  e.type = event.type ∧ e.payload = event.payload ∧ e.workflowKind = event.workflowKind ∧
    e.requestId = event.requestId ∧ e.actorId = event.actorId ∧ e.actorType = event.actorType

/-- The version that an append expects, if it expects one. -/
def expectedNumber : ExpectedVersion → Option Int
  | .noStream => some 0
  | .any => none
  | .exact version => some version.get

/-- What an append may do to the log, and what it answers. -/
inductive LogStep : List EventEnvelope → ExpectedVersion × List NewEvent → List EventEnvelope →
    Except Abort StreamAns → Prop where
  /-- The batch gets the next versions in its order. -/
  | appended {log expected events} (result : AppendResult) (hne : events ≠ [])
      (hexpected : ∀ v, expectedNumber expected = some v → v = log.length)
      (hfirst : result.firstVersion = ⟨log.length + 1⟩)
      (hlast : result.lastVersion = ⟨log.length + events.length⟩)
      (hversions : result.events.map (fun e => e.version.get) =
        versionsFrom log.length events.length)
      (hstores : List.Forall₂ Stores result.events events) :
      LogStep log (expected, events) (log ++ result.events) (.ok (.appended result))
  /-- Appending nothing. -/
  | nothing {log expected} : LogStep log (expected, []) log (.ok (.appended emptyAppend))
  /-- The log does not have the expected length. -/
  | wrongVersion {log expected events v} (hexpected : expectedNumber expected = some v)
      (hne : v ≠ log.length) :
      LogStep log (expected, events) log (.error (.es (.incorrectEventVersion v log.length)))
  /-- Any other error. -/
  | failed {log expected events} (e : Abort) (he : PlainError e) :
      LogStep log (expected, events) log (.error e)

/-- The log of events, one append at a time. -/
abbrev eventLog : Linear.Object (ExpectedVersion × List NewEvent) (Except Abort StreamAns) :=
  ⟨List EventEnvelope, LogStep⟩

/-! ## What a transaction does to the log -/

theorem stores_envelopesFrom {ids : Nat → Uuid} {span : SpanContext} {baseTime : OffsetDateTime}
    {baseSequence head : Int} (i : Nat) (events : List NewEvent) :
    List.Forall₂ Stores (envelopesFrom ids span baseTime baseSequence head i events) events := by
  induction events generalizing i with
  | nil => exact .nil
  | cons event events ih => exact .cons ⟨rfl, rfl, rfl, rfl, rfl, rfl⟩ (ih (i + 1))

/-- An expected version that is admitted is the head. -/
theorem admitted_expectedNumber {expected : ExpectedVersion} {head v : Int}
    (h : validateExpectedVersionAgainst expected head = .ok head)
    (hv : expectedNumber expected = some v) : v = head := by
  unfold validateExpectedVersionAgainst at h
  cases expected with
  | noStream =>
    obtain rfl : 0 = v := by simpa [expectedNumber] using hv
    by_contra hne
    simp [Ne.symm hne] at h
  | any => cases hv
  | exact version =>
    obtain rfl : version.get = v := by simpa [expectedNumber] using hv
    by_contra hne
    simp only [if_pos hne] at h
    split at h <;> cases h

/-- A wrong version is reported against the head, from which it differs. -/
theorem refused_expectedNumber {expected : ExpectedVersion} {head ex ac : Int}
    (h : validateExpectedVersionAgainst expected head = .error (.incorrectEventVersion ex ac)) :
    expectedNumber expected = some ex ∧ ac = head ∧ ex ≠ head := by
  unfold validateExpectedVersionAgainst at h
  cases expected with
  | noStream =>
    simp only at h
    split at h
    · rename_i hne
      cases h
      exact ⟨rfl, rfl, Ne.symm hne⟩
    · cases h
  | any => cases h
  | exact version =>
    simp only at h
    split at h
    · cases h
    · split at h
      · rename_i hne
        cases h
        exact ⟨rfl, rfl, hne⟩
      · cases h

/-- How an append answers what its transaction answered. -/
def answerOf : Except EsError AppendResult → Except Abort StreamAns
  | .ok result => .ok (.appended result)
  | .error err => .error (.es err)

/-- **The append transaction is a step of the log.** -/
theorem logStep_of_appendStep {w w' : World Unit} {p : RotationPolicy} {a : ActivePartition}
    {expected : ExpectedVersion} {events : List NewEvent} {baseTime : OffsetDateTime}
    {e : StoreEnv} {r : Except EsError AppendResult} (hi : VersionInv w)
    (ha : w.handles () = some (p, a))
    (hstep : AppendStep a.name expected events baseTime e w r w') :
    LogStep w.log (expected, events) w'.log (answerOf r) := by
  cases hstep with
  | @committed d d' head result hd hc =>
    obtain rfl := hi.head_eq ha (by rw [World.headOf, hd]; exact hc.head_eq)
    obtain ⟨baseSequence, hevents⟩ := hc.events_eq
    refine .appended result hc.nonempty (fun v hv => admitted_expectedNumber hc.admitted hv)
      hc.first hc.last ?_ ?_
    · rw [hevents, version_envelopesFrom]
      simp
    · rw [hevents]
      exact stores_envelopesFrom 0 events
  | @refused err w' hw _ hver =>
    rw [(hw 0).log]
    by_cases hplain : PlainError (.es err)
    · exact .failed _ hplain
    · obtain ⟨ex, ac, rfl⟩ : ∃ ex ac, err = .incorrectEventVersion ex ac := by
        simpa [PlainError] using hplain
      obtain ⟨head, hhead, hwhy⟩ := hver ex ac rfl
      obtain rfl := hi.head_eq ha hhead
      rcases hwhy with hval | ⟨row, hrow, hlt⟩
      · obtain ⟨hex, rfl, hne⟩ := refused_expectedNumber hval
        exact .wrongVersion hex hne
      · -- no file stores a version above the number of events
        have := hi.version_le (World.rowsOf_subset hrow)
        omega

/-! ## The simulation -/

section Simulation

variable {T : Type} [DecidableEq T]

/-- What a caller of `append` sees of a step. -/
def appendEvent [SerdeJson] : Label (eventStreams Unit) T →
    Option (Linear.Event T (ExpectedVersion × List NewEvent) (Except Abort StreamAns))
  | .invoke t _ (.append _ _ expected events) => some (.invoke t (expected, events))
  | .respond t _ (.append _ _ _ _) r => some (.respond t r)
  | _ => none

/-- The invocations and responses of the appends of a run. -/
def appendHistory [SerdeJson] (tr : List (Label (eventStreams Unit) T × Config (eventStreams Unit) T)) :
    List (Linear.Event T (ExpectedVersion × List NewEvent) (Except Abort StreamAns)) :=
  tr.filterMap fun x => appendEvent x.1

/-- Where an append stands. -/
def CallStatus.toStatus :
    CallStatus → Linear.Status (ExpectedVersion × List NewEvent) (Except Abort StreamAns)
  | .other => .idle
  | .pending expected events => .pending (expected, events)
  | .decided _ _ answer => .decided (answerOf answer)

/-- The atomic log that a configuration stands for. -/
def abstraction [SerdeJson] (c : Config (eventStreams Unit) T) (g : T → CallStatus) :
    Linear.Config eventLog T where
  state := c.st.log
  calls t := if (c.tasks t).isSome then (g t).toStatus else .idle

variable [SerdeJson] {c c' : Config (eventStreams Unit) T} {g : T → CallStatus}
  {l : Label (eventStreams Unit) T}

omit [DecidableEq T] in
theorem abstraction_calls {t : T} {task : Task (eventStreams Unit)} (ht : c.tasks t = some task) :
    (abstraction c g).calls t = (g t).toStatus := by
  simp [abstraction, ht]

/-- A call comes to stand elsewhere. -/
theorem abstraction_set {t : T} {status : Linear.Status (ExpectedVersion × List NewEvent)
      (Except Abort StreamAns)} {log : List EventEnvelope} {g' : T → CallStatus}
    (hlog : c'.st.log = log) (ht : (abstraction c' g').calls t = status)
    (htasks : ∀ u, u ≠ t → c'.tasks u = c.tasks u) (hg : ∀ u, u ≠ t → g' u = g u) :
    Linear.Config.set (O := eventLog) ⟨log, (abstraction c g).calls⟩ t status = abstraction c' g' := by
  subst hlog
  refine congrArg (Linear.Config.mk (O := eventLog) c'.st.log) (funext fun u => ?_)
  by_cases hu : u = t
  · subst hu
    rw [Function.update_self, ← ht]
    rfl
  · rw [Function.update_of_ne hu]
    simp only [abstraction, htasks u hu, hg u hu]

/-- A step that changes neither the log nor where the calls stand. -/
theorem abstraction_silent {t : T} {task task' : Task (eventStreams Unit)}
    (hlog : c'.st.log = c.st.log) (ht : c.tasks t = some task) (ht' : c'.tasks t = some task')
    (htasks : ∀ u, u ≠ t → c'.tasks u = c.tasks u) : abstraction c' g = abstraction c g := by
  have hsome : ∀ u, (c'.tasks u).isSome = (c.tasks u).isSome := by
    intro u
    by_cases hu : u = t
    · rw [hu, ht, ht']; rfl
    · rw [htasks u hu]
  simp only [abstraction, hlog, hsome]

/-- An append transaction takes effect when it is run. -/
theorem refines_append (hs : appendDiscipline.Sound AppendPost c g) {t : T} {h : Unit}
    {name : Text} {expected : ExpectedVersion} {events : List NewEvent} {baseTime : OffsetDateTime}
    {e : StoreEnv}
    (hstep : Step c (.op t h (.appendTransaction name expected events baseTime) e) c') :
    ∃ order, Linear.Run eventLog (abstraction c g) [] order (abstraction c'
      (appendDiscipline.track c g (.op t h (.appendTransaction name expected events baseTime) e))) := by
  obtain ⟨⟨hstatus, ⟨p, a, ha, rfl⟩, -⟩, -⟩ := hs.guarantee hstep trivial
  cases hstep with
  | op t h call o k e ht =>
    have hlog := logStep_of_appendStep hs.always ha
      (step_appendTransaction expected events baseTime a.name (h := ()) (e := e))
    refine ⟨[_], .decide t (expected, events) _ _ ?_ hlog ?_⟩
    · rw [abstraction_calls ht, hstatus]
      rfl
    · refine .of_eq (abstraction_set rfl ?_ (fun u hu => Function.update_of_ne hu ..)
        fun u hu => Function.update_of_ne hu ..)
      simp [abstraction, Config.advance, track, appendDiscipline, CallStatus.after,
        CallStatus.decide, CallStatus.toStatus, hstatus]

/-- **The simulation**: each step of the system is matched by a run of the atomic log. -/
theorem refines_step (hs : appendDiscipline.Sound AppendPost c g) (hstep : Step c l c')
    (hp : appendDiscipline.Permits c l) :
    ∃ order, Linear.Run eventLog (abstraction c g) (appendEvent l).toList order
      (abstraction c' (appendDiscipline.track c g l)) := by
  have hsilent : ∀ {t : T} {task task' : Task (eventStreams Unit)}, c'.st.log = c.st.log →
      c.tasks t = some task → c'.tasks t = some task' →
      (∀ u, u ≠ t → c'.tasks u = c.tasks u) →
      ∃ order, Linear.Run eventLog (abstraction c g) [] order (abstraction c' g) :=
    fun hlog ht ht' htasks => ⟨[], .of_eq (abstraction_silent hlog ht ht' htasks).symm⟩
  cases hstep with
  | restart => exact hp.elim
  | acquireRead t h call k ht =>
    exact hsilent rfl ht (Function.update_self ..) fun u hu => Function.update_of_ne hu ..
  | releaseRead t h call k ht =>
    exact hsilent rfl ht (Function.update_self ..) fun u hu => Function.update_of_ne hu ..
  | acquireWrite t h call n k ht =>
    exact hsilent rfl ht (Function.update_self ..) fun u hu => Function.update_of_ne hu ..
  | releaseWrite t h call k ht =>
    exact hsilent rfl ht (Function.update_self ..) fun u hu => Function.update_of_ne hu ..
  | op t h call o k e ht =>
    by_cases ho : o.isAppend = true
    · cases o <;> first | exact refines_append hs (.op t h call _ k e ht) | cases ho
    · -- what a call answers to any other operation says nothing about the log
      rw [Bool.not_eq_true] at ho
      have hG := (hs.guarantee (.op t h call o k e ht) trivial).1
      have hlog : ((eventStreams Unit).step h o e c.st).2.log = c.st.log := by
        cases o <;> first | exact hG | cases ho
      have htrack : appendDiscipline.track c g (.op t h o e) = g := by
        show Function.update g t ((g t).after o _) = g
        rw [CallStatus.after_of_not_append ho, Function.update_eq_self]
      rw [htrack]
      exact hsilent hlog ht (Function.update_self ..) fun u hu => Function.update_of_ne hu ..
  | invoke t h call hfree hready =>
    -- only appends are events of the log; any other call stays idle in it
    have hidle : (abstraction c g).calls t = .idle := by simp [abstraction, hfree]
    have hset : Linear.Config.set (O := eventLog) ⟨c.st.log, (abstraction c g).calls⟩ t
        (CallStatus.ofCall call).toStatus = abstraction
          { c with tasks := c.advance t h call ((eventStreams Unit).code call) }
          (appendDiscipline.track c g (.invoke t h call)) := by
      refine abstraction_set rfl ?_ (fun u hu => Function.update_of_ne hu ..)
        fun u hu => Function.update_of_ne hu ..
      simp [abstraction, Config.advance, track, appendDiscipline]
    by_cases hcall : ∃ rotation fuel expected events, call = .append rotation fuel expected events
    · obtain ⟨rotation, fuel, expected, events, rfl⟩ := hcall
      exact ⟨[], .invoke t (expected, events) hidle (.of_eq hset)⟩
    · have hother : CallStatus.ofCall call = .other := by
        cases call <;> first | rfl | exact absurd ⟨_, _, _, _, rfl⟩ hcall
      have hevent : appendEvent (T := T) (.invoke t h call) = none := by
        cases call <;> first | rfl | exact absurd ⟨_, _, _, _, rfl⟩ hcall
      rw [hevent]
      refine ⟨[], .of_eq (Eq.trans ?_ hset)⟩
      rw [hother]
      exact (congrArg (Linear.Config.mk (O := eventLog) c.st.log)
        ((congrArg (Function.update _ t) hidle.symm).trans (Function.update_eq_self ..))).symm
  | respond t h call r ht hr =>
    have hpost := hs.respond (.respond t h call r ht hr)
    have hset : Linear.Config.set (O := eventLog) ⟨c.st.log, (abstraction c g).calls⟩ t .idle =
        abstraction { c with tasks := Function.update c.tasks t none } g := by
      refine abstraction_set rfl ?_ (fun u hu => Function.update_of_ne hu ..) fun u hu => rfl
      simp [abstraction]
    have hcalls := abstraction_calls (g := g) ht
    by_cases hcall : ∃ rotation fuel expected events, call = .append rotation fuel expected events
    · obtain ⟨rotation, fuel, expected, events, rfl⟩ := hcall
      have hdecided : (abstraction c g).calls t = .decided r →
          Linear.Run eventLog (abstraction c g) [.respond t r] [] (abstraction
            { c with tasks := Function.update c.tasks t none } g) :=
        fun hd => .respond t r hd (.of_eq hset)
      rcases hpost with ⟨result, hstatus, rfl⟩ | ⟨err, hstatus, rfl⟩ | ⟨hstatus, hwhy⟩
      · exact ⟨[], hdecided (by rw [hcalls, hstatus]; rfl)⟩
      · exact ⟨[], hdecided (by rw [hcalls, hstatus]; rfl)⟩
      · -- the call has not reached the log: it takes effect when it answers
        have hpending : (abstraction c g).calls t = .pending (expected, events) := by
          rw [hcalls, hstatus]; rfl
        have hlog : LogStep c.st.log (expected, events) c.st.log r := by
          rcases hwhy with ⟨e, rfl, he⟩ | ⟨rfl, rfl⟩
          · exact .failed e he
          · exact .nothing
        refine ⟨[(t, (expected, events), r)], .decide t _ r c.st.log hpending hlog
          (.respond t r (Function.update_self ..) (.of_eq (Eq.trans ?_ hset)))⟩
        exact congrArg (Linear.Config.mk (O := eventLog) c.st.log) (Function.update_idem ..)
    · have hother : g t = .other := by
        cases call <;> first | exact hpost | exact absurd ⟨_, _, _, _, rfl⟩ hcall
      have hevent : appendEvent (T := T) (.respond t h call r) = none := by
        cases call <;> first | rfl | exact absurd ⟨_, _, _, _, rfl⟩ hcall
      rw [hevent]
      refine ⟨[], .of_eq (Eq.trans ?_ hset)⟩
      have hidle : (abstraction c g).calls t = .idle := by rw [hcalls, hother]; rfl
      exact (congrArg (Linear.Config.mk (O := eventLog) c.st.log)
        ((congrArg (Function.update _ t) hidle.symm).trans (Function.update_eq_self ..))).symm

/-- A run is matched by a run of the atomic log. -/
theorem refines_run {tr : List (Label (eventStreams Unit) T × Config (eventStreams Unit) T)}
    (hs : appendDiscipline.Sound AppendPost c g) (hrun : IsRun NoRestart c tr) :
    ∃ order, Linear.Run eventLog (abstraction c g) (appendHistory tr) order
      (abstraction (lastOf c tr) (appendDiscipline.trackAll c g tr)) := by
  induction tr generalizing c g with
  | nil => exact ⟨[], .nil _⟩
  | cons x tr ih =>
    obtain ⟨l, c'⟩ := x
    obtain ⟨hstep, hno, hrest⟩ := hrun
    have hp := permits_of_noRestart hno
    obtain ⟨order, hfirst⟩ := refines_step hs hstep hp
    obtain ⟨order', hmore⟩ := ih (sound_step lawful_appendDiscipline hs hstep hp) hrest
    have hhistory : appendHistory ((l, c') :: tr) = (appendEvent l).toList ++ appendHistory tr := by
      unfold appendHistory
      rw [List.filterMap_cons]
      cases appendEvent l <;> rfl
    rw [hhistory]
    exact ⟨order ++ order', hfirst.append hmore⟩

/-- **Appends refine an atomic log**: the appends of any interleaving behave like calls of the atomic
log, which holds the events that the files store; `current_version` answers its length. -/
theorem append_linearizable {rotation : RotationPolicy} {w₀ : World Unit}
    {tr : List (Label (eventStreams Unit) T × Config (eventStreams Unit) T)}
    (hopen : Opens rotation World.empty w₀) (hrun : IsRun NoRestart (Config.idle T w₀) tr) :
    ∃ (order : List (T × (ExpectedVersion × List NewEvent) × Except Abort StreamAns))
      (final : Linear.Config eventLog T),
      Linear.Run eventLog (Linear.Config.idle T ([] : List EventEnvelope)) (appendHistory tr) order
        final ∧
      Linear.Sequential eventLog ([] : List EventEnvelope) order final.state ∧
      (lastOf (Config.idle T w₀) tr).st.allRows.Perm
        ((final.state : List EventEnvelope).map EventEnvelope.toRow) ∧
      (lastOf (Config.idle T w₀) tr).st.currentVersion =
        .ok ⟨(final.state : List EventEnvelope).length⟩ := by
  obtain ⟨t, a, hfirst⟩ := firstOpen_of_opens hopen
  have hs : appendDiscipline.Sound AppendPost (Config.idle T w₀) fun _ => .other :=
    sound_idle lawful_appendDiscipline hfirst.versionInv _
  have hstart : abstraction (Config.idle T w₀) (fun _ => .other) =
      Linear.Config.idle T ([] : List EventEnvelope) :=
    congrArg (fun log => Linear.Config.mk (O := eventLog) log fun _ : T => .idle) hfirst.log
  obtain ⟨order, h⟩ := refines_run hs hrun
  rw [hstart] at h
  have hlast := (sound_run lawful_appendDiscipline (fun _ _ => permits_of_noRestart) hs hrun).always
  obtain ⟨p, a, ha, hhead⟩ := hlast.active
  exact ⟨order, _, h, h.sequential, hlast.rows, World.currentVersion_eq ha hhead (by omega)⟩

end Simulation

attribute [local instance] SerdeJson.limited

theorem append_linearizable_twoAppends :
    ∃ tr, play twoAppends (Config.idle Bool opened) = some tr ∧
      (appendHistory tr).length = 4 ∧
      ∃ (order : List (Bool × (ExpectedVersion × List NewEvent) × Except Abort StreamAns))
        (final : Linear.Config eventLog Bool),
        Linear.Run eventLog (Linear.Config.idle Bool ([] : List EventEnvelope)) (appendHistory tr)
          order final ∧
        Linear.Sequential eventLog ([] : List EventEnvelope) order final.state ∧
        (lastOf (Config.idle Bool opened) tr).st.allRows.Perm
          ((final.state : List EventEnvelope).map EventEnvelope.toRow) ∧
        (lastOf (Config.idle Bool opened) tr).st.currentVersion =
          .ok ⟨(final.state : List EventEnvelope).length⟩ := by
  have hlen : ((play twoAppends (Config.idle Bool opened)).map fun tr => (appendHistory tr).length) =
      some 4 := by decide +kernel
  obtain ⟨tr, htr, hlen⟩ := Option.map_eq_some_iff.1 hlen
  exact ⟨tr, htr, hlen, append_linearizable opens_opened (noRestart_of_play htr rfl)⟩

end Events
