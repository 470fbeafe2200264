import Events.PartitionName
import Events.WorkflowRuns
import Events.Lib.Knowledge

/-!
# Rotations that are due

A call decides to rotate under the read lock and rotates under the write lock, which it takes after it
has given the read lock back. What it has seen of the active partition may be old by then: a call
that has decided on the same partition may have rotated into the same window already.

* **`History`** — what a run has shown so far: the clock, the sizes that were read, and the windows
  that were opened since each call looked at the active partition.
* **`Due`** — the active file belongs to another window, or has reached the limit of its size.
* **`account`** — what a call knows when it rotates.
* **`rotations_due`** — the result on runs.
-/

namespace Events

open Proc Program Discipline

/-! ## Windows -/

/-- The start of the window that a time falls into. -/
def windowStart (window : Duration) (nowMs : Int) : Int :=
  Int.tdiv nowMs (windowMs window) * windowMs window

theorem floorToWindowMs_some {window : Duration} {nowMs startMs : Int}
    (h : floorToWindowMs nowMs window = some startMs) : startMs = windowStart window nowMs := by
  unfold floorToWindowMs at h
  dsimp only at h
  split at h
  · cases h
  · split at h
    · cases h
    · exact (Option.some.inj h).symm

theorem windowStart_mono {window : Duration} {a b : Int} (h : a ≤ b) :
    windowStart window a ≤ windowStart window b := by
  unfold windowStart
  generalize windowMs window = w
  rcases Int.lt_trichotomy 0 w with hw | rfl | hw
  · exact Int.mul_le_mul_of_nonneg_right (Int.tdiv_le_tdiv hw h) hw.le
  · simp
  · have hle := Int.mul_le_mul_of_nonneg_right (Int.tdiv_le_tdiv (Int.neg_pos_of_neg hw) h)
      (Int.neg_pos_of_neg hw).le
    rwa [Int.tdiv_neg, Int.tdiv_neg, Int.neg_mul_neg, Int.neg_mul_neg] at hle

theorem windowStart_windowStart (window : Duration) (nowMs : Int) :
    windowStart window (windowStart window nowMs) = windowStart window nowMs := by
  unfold windowStart
  by_cases hw : windowMs window = 0
  · rw [hw, Int.mul_zero, Int.mul_zero]
  · rw [Int.mul_tdiv_cancel _ hw]

theorem unixTimestampMs_mono {t t' : OffsetDateTime}
    (h : t.unixTimestampNanos ≤ t'.unixTimestampNanos) : t.unixTimestampMs ≤ t'.unixTimestampMs :=
  Int.tdiv_le_tdiv (by decide) h

/-- A time falls into the same window by its whole seconds as by its milliseconds. -/
def SameWindow (window : Duration) (t : OffsetDateTime) : Prop :=
  floorToWindowMs (t.unixTimestamp * 1000) window = floorToWindowMs t.unixTimestampMs window

instance (window : Duration) (t : OffsetDateTime) : Decidable (SameWindow window t) :=
  inferInstanceAs (Decidable (_ = _))

/-- So it does from the epoch on, for windows of whole minutes. -/
theorem sameWindow_of_wholeMinutes {window : Duration} {t : OffsetDateTime} {k : Int}
    (hw : windowMs window = 60000 * k) (hpos : 0 < k) (ht : 0 ≤ t.unixTimestampNanos) :
    SameWindow window t := by
  unfold SameWindow floorToWindowMs
  rw [hw]
  have hms : t.unixTimestampMs = t.unixTimestampNanos / 1000000 := Int.tdiv_eq_ediv_of_nonneg ht
  have hbound : 0 ≤ t.unixTimestampNanos / 1000000 := Int.ediv_nonneg ht (by decide)
  have hsecs : 0 ≤ t.unixTimestampNanos / 1000000000 := Int.ediv_nonneg ht (by decide)
  have hsecs' : t.unixTimestamp = t.unixTimestampNanos / 1000000000 := rfl
  rw [hms, hsecs']
  dsimp only
  have hoverflow : ∀ n : Int, 0 ≤ n → ¬(n = -2 ^ 63 ∧ 60000 * k = -1) := fun n hn => by omega
  rw [if_neg (by omega), if_neg (hoverflow _ (by omega)), if_neg (by omega),
    if_neg (hoverflow _ hbound), Int.tdiv_eq_ediv_of_nonneg hbound,
    Int.tdiv_eq_ediv_of_nonneg (by omega)]
  -- both quotients are those of the nanoseconds by the length of the window
  have hleft : t.unixTimestampNanos / 1000000000 * 1000 / (60000 * k) =
      t.unixTimestampNanos / (1000000000 * (60 * k)) := by
    rw [show (60000 : Int) * k = 1000 * (60 * k) by omega, Int.mul_comm _ 1000,
      Int.mul_ediv_mul_of_pos _ _ (by decide), Int.ediv_ediv_of_nonneg (by decide)]
  have hright : t.unixTimestampNanos / 1000000 / (60000 * k) =
      t.unixTimestampNanos / (1000000000 * (60 * k)) := by
    rw [Int.ediv_ediv_of_nonneg (by decide)]
    congr 1
    omega
  rw [hleft, hright]

/-- The window of a partition does not begin after the time, or not after the window of the time. -/
def NotAhead (window : Duration) (a : ActivePartition) (t : OffsetDateTime) : Prop :=
  a.startMs ≤ t.unixTimestampMs ∨ a.startMs ≤ windowStart window t.unixTimestampMs

theorem NotAhead.mono {window : Duration} {a : ActivePartition} {t t' : OffsetDateTime}
    (h : NotAhead window a t) (ht : t.unixTimestampNanos ≤ t'.unixTimestampNanos) :
    NotAhead window a t' := by
  have hms := unixTimestampMs_mono ht
  exact h.imp (fun h => h.trans hms) fun h => h.trans (windowStart_mono hms)

/-- A partition of another window than the time belongs to none of the windows that follow. -/
theorem window_passed {window : Duration} {a : ActivePartition} {t t' : OffsetDateTime} {startMs : Int}
    (ha : NotAhead window a t) (ht : t.unixTimestampNanos ≤ t'.unixTimestampNanos)
    (hfloor : floorToWindowMs t.unixTimestampMs window = some startMs) (hne : startMs ≠ a.startMs) :
    floorToWindowMs t'.unixTimestampMs window ≠ some a.startMs := by
  intro hlater
  have hstart := floorToWindowMs_some hfloor
  have hactive := floorToWindowMs_some hlater
  have hle : a.startMs ≤ windowStart window t.unixTimestampMs := by
    rcases ha with ha | ha
    · have hmono := @windowStart_mono window _ _ ha
      rwa [hactive, windowStart_windowStart, ← hactive] at hmono
    · exact ha
  have hge : windowStart window t.unixTimestampMs ≤ a.startMs := by
    rw [hactive]
    exact windowStart_mono (unixTimestampMs_mono ht)
  exact hne (by rw [hstart]; exact le_antisymm hge hle)

/-! ## Histories -/

/-- What a run has shown so far. -/
structure History (T : Type) where
  /-- The last reading of the clock. -/
  clock : OffsetDateTime
  /-- The sizes of files that were read. -/
  sizes : List (Text × Nat)
  /-- The windows of the files made active since the call has last looked at the active partition. -/
  since : T → List Int

def History.start {T : Type} (t : OffsetDateTime) : History T := ⟨t, [], fun _ => []⟩

section Record

variable {T : Type} [DecidableEq T]

def History.record [SerdeJson] : Label (eventStreams Unit) T → History T → History T
  | .op t _ .readActive _, γ => { γ with since := Function.update γ.since t [] }
  | .op _ _ (.setActive a) _, γ => { γ with since := fun u => a.startMs :: γ.since u }
  | .op _ _ .now e, γ => { γ with clock := e.now }
  | .op _ _ (.fileSize name) e, γ => { γ with sizes := (name, e.size) :: γ.sizes }
  | _, γ => γ

/-- The clock does not go back, and the process goes on. -/
def ClockOrdered [SerdeJson] (γ : History T) (_ : Config (eventStreams Unit) T) :
    Label (eventStreams Unit) T → Prop
  | .op _ _ .now e => γ.clock.unixTimestampNanos ≤ e.now.unixTimestampNanos
  | .restart => False
  | _ => True

/-- A call that takes the write lock for rotating has looked at the active partition since a file of
the window of its time was made active, and the clock reads times that fall into the same window by
seconds and milliseconds. -/
def DecidesAfresh [SerdeJson] (window : Duration) (γ : History T) (_ : Config (eventStreams Unit) T) :
    Label (eventStreams Unit) T → Prop
  | .op _ _ .now e => SameWindow window e.now
  | .acquireWrite t _ (.rotating rotation nowMs) =>
    ∀ startMs ∈ γ.since t, floorToWindowMs nowMs rotation.window ≠ some startMs
  | _ => True

end Record

/-- The active file belongs to another window than `nowMs`, or has been seen to reach the limit of its
size. -/
def Due {T : Type} (γ : History T) (w : World Unit) (rotation : RotationPolicy) (nowMs : Int) : Prop :=
  ∃ a, w.handles () = some (rotation, a) ∧
    (floorToWindowMs nowMs rotation.window ≠ some a.startMs ∨
      ∃ maxBytes size, rotation.maxBytes = some maxBytes ∧ (a.name, size) ∈ γ.sizes ∧ maxBytes ≤ size)

/-! ## What a call knows -/

/-- What a call has seen: the active partition, the clock, and sizes of files. -/
structure Seen where
  active : Option ActivePartition := none
  clock : Option OffsetDateTime := none
  sizes : List (Text × Nat) := []

def Seen.learn : (o : StoreOp) → o.Resp → Seen → Seen
  | .readActive, active, σ => { σ with active := active }
  | .now, t, σ => { σ with clock := some t }
  | .fileSize name, size, σ => { σ with sizes := (name, size) :: σ.sizes }
  | _, _, σ => σ

/-- The clock does not go back, and no partition is ahead of it. -/
def Seen.expect (window : Duration) (σ : Seen) : (o : StoreOp) → o.Resp → Prop
  | .now, t => SameWindow window t ∧
    (∀ t', σ.clock = some t' → t'.unixTimestampNanos ≤ t.unixTimestampNanos) ∧
    ∀ a, σ.active = some a → NotAhead window a t
  | _, _ => True

/-- By what the call has seen, rotating is due. -/
def Seen.Decides (rotation : RotationPolicy) (nowMs : Int) (σ : Seen) : Prop :=
  ∃ a, σ.active = some a ∧ (floorToWindowMs nowMs rotation.window ≠ some a.startMs ∨
    ∃ maxBytes size, rotation.maxBytes = some maxBytes ∧ (a.name, size) ∈ σ.sizes ∧ maxBytes ≤ size)

/-- A call rotates when it has decided to, and to a file of the window of its time. -/
def Seen.ask (policy : RotationPolicy) (σ : Seen) : Cmd LockNote StoreI → Prop
  | .acquireWrite (.rotating rotation nowMs) => rotation = policy ∧ σ.Decides rotation nowMs
  | .op (.setActive a) => ∃ t, σ.clock = some t ∧
    floorToWindowMs t.unixTimestampMs policy.window = some a.startMs
  | .op (.openHandle _ _) => False
  | _ => True

/-- The account of the calls on a handle with this policy. -/
def account [SerdeJson] (policy : RotationPolicy) : Account (eventStreams Unit) Seen where
  learn := Seen.learn
  expect := Seen.expect policy.window
  ask := Seen.ask policy

/-! ## The code follows the account -/

section Code

variable {policy : RotationPolicy} {σ : Seen} {nowMs : Int} {t : OffsetDateTime}

theorem ask_passive [SerdeJson] {o : StoreOp} (ho : o.isPassive = true) : (account policy).ask σ (.op o) := by
  cases o <;> trivial

/-- A body that only looks. -/
theorem follows_passive [SerdeJson] {α : Type} {p : StoreProgram α}
    (hp : p.All fun o : StoreOp => o.isPassive = true) :
    (account policy).follows p.lift (fun _ _ => True) σ :=
  Account.follows_of_all hp trivial fun _ ho _ _ => ⟨ask_passive ho, fun _ _ => trivial⟩

theorem learn_clock {o : StoreOp} (ho : o ≠ .now) (x : o.Resp) : (σ.learn o x).clock = σ.clock := by
  cases o <;> first | rfl | exact absurd rfl ho

/-- A rotation that the call has decided on. -/
theorem follows_rotatePartition [SerdeJson] (hdue : σ.Decides policy nowMs) (hclock : σ.clock = some t)
    (hms : t.unixTimestampMs = nowMs) :
    (account policy).follows (rotatePartition policy nowMs) (fun _ σ' => σ'.clock = some t) σ := by
  refine Account.follows_withWrite ⟨rfl, hdue⟩ (fun _ => trivial) ?_
  refine Account.follows_of_all (all_rotates policy nowMs) hclock fun o ho σ' hσ' => ⟨?_, fun x _ => ?_⟩
  · cases o with
    | setActive a => exact ⟨t, hσ', by rw [hms]; exact ho⟩
    | openHandle rotation a => exact ho.elim
    | _ => trivial
  · have hnow : o ≠ .now := fun h => by subst h; exact ho
    exact (learn_clock hnow x).trans hσ'

/-- `should_rotate` and the second look at the clock. -/
theorem follows_rotationTime [SerdeJson] {a : ActivePartition} {size : Nat} (hactive : σ.active = some a)
    (hsize : (a.name, size) ∈ σ.sizes) (hclock : σ.clock = some t) (hsame : SameWindow policy.window t)
    (hahead : NotAhead policy.window a t) :
    (account policy).follows (rotationTime (shouldRotate policy size a.startMs t)).lift
      (fun r σ' => ∀ nowMs, r = .ok (some nowMs) →
        σ'.Decides policy nowMs ∧ ∃ t', σ'.clock = some t' ∧ t'.unixTimestampMs = nowMs) σ := by
  cases hdue : shouldRotate policy size a.startMs t with
  | none => exact fun _ h => by cases h
  | some due =>
    cases due with
    | false => exact fun _ h => by cases h
    | true =>
      refine ⟨trivial, fun t' ht' nowMs h => ?_⟩
      obtain rfl : t'.unixTimestampMs = nowMs := by simpa using h
      refine ⟨⟨a, hactive, ?_⟩, t', rfl, rfl⟩
      -- the decision was taken on the first look
      unfold shouldRotate at hdue
      obtain ⟨startMs, hfloor, hwindow⟩ := Option.map_eq_some_iff.1 hdue
      split at hwindow
      · rename_i hne
        refine .inl (window_passed hahead (ht'.2.1 t hclock) ?_ hne)
        rw [← hsame]
        exact hfloor
      · unfold shouldRotateBySize at hwindow
        cases hmax : policy.maxBytes with
        | none => simp [hmax] at hwindow
        | some maxBytes =>
          refine .inr ⟨maxBytes, size, rfl, hsize, ?_⟩
          simpa [hmax] using hwindow

theorem follows_rotationDue [SerdeJson] :
    (account policy).follows (rotationDue policy).lift
      (fun r σ' => ∀ nowMs, r = .ok (some nowMs) →
        σ'.Decides policy nowMs ∧ ∃ t, σ'.clock = some t ∧ t.unixTimestampMs = nowMs) σ := by
  rw [rotationDue_eq]
  refine ⟨trivial, fun active _ => ?_⟩
  cases active with
  | none => exact fun _ h => by cases h
  | some a =>
    refine ⟨trivial, fun size _ => ⟨trivial, fun t ht => ?_⟩⟩
    exact follows_rotationTime rfl (List.mem_cons_self ..) rfl ht.1 (ht.2.2 a rfl)

theorem follows_maybeRotate [SerdeJson] :
    (account policy).follows (maybeRotate policy) (fun _ _ => True) σ := by
  unfold maybeRotate
  rw [bind_eq, Account.follows_bind]
  refine Account.follows_withRead (fun _ => ⟨trivial, trivial⟩)
    (Account.follows_mono follows_rotationDue fun r σ' hr => ?_)
  cases r with
  | error e => trivial
  | ok due =>
    cases due with
    | none => trivial
    | some nowMs =>
      obtain ⟨hdue, t, hclock, hms⟩ := hr nowMs rfl
      exact Account.follows_mono (follows_rotatePartition hdue hclock hms) fun _ _ _ => trivial

theorem follows_inCurrentWindow [SerdeJson] :
    (account policy).follows (inCurrentWindow policy nowMs).lift
      (fun r σ' => σ'.clock = σ.clock ∧ (r = .ok false → σ'.Decides policy nowMs)) σ := by
  rw [inCurrentWindow_eq]
  refine ⟨trivial, fun active _ => ?_⟩
  cases active with
  | none => exact ⟨rfl, fun h => by cases h⟩
  | some a =>
    cases hfloor : floorToWindowMs nowMs policy.window with
    | none => exact ⟨rfl, fun h => by cases h⟩
    | some startMs =>
      refine ⟨rfl, fun h => ⟨a, rfl, .inl ?_⟩⟩
      rw [hfloor]
      simpa using h

/-- By induction on the passes of the loop, each of which looks again. -/
theorem follows_rotateUntilCurrentWindow [SerdeJson] (fuel : Nat) (hclock : σ.clock = some t)
    (hms : t.unixTimestampMs = nowMs) :
    (account policy).follows (rotateUntilCurrentWindow policy nowMs fuel) (fun _ _ => True) σ := by
  induction fuel generalizing σ with
  | zero => trivial
  | succ fuel ih =>
    unfold rotateUntilCurrentWindow
    rw [bind_eq, Account.follows_bind]
    refine Account.follows_withRead (fun _ => ⟨trivial, trivial⟩)
      (Account.follows_mono follows_inCurrentWindow fun r σ' hr => ?_)
    cases r with
    | error e => trivial
    | ok current =>
      cases current with
      | true => trivial
      | false =>
        show (account policy).follows ((rotatePartition policy nowMs).bind _) _ _
        rw [Account.follows_bind]
        refine Account.follows_mono
          (follows_rotatePartition (hr.2 rfl) (hr.1.trans hclock) hms) fun r σ'' hr => ?_
        cases r with
        | error e => trivial
        | ok _ => exact ih hr

theorem follows_appendLocked [SerdeJson] {expected : ExpectedVersion} {events : List NewEvent}
    {baseTime : OffsetDateTime} :
    (account policy).follows (appendLocked expected events baseTime).lift (fun _ _ => True) σ := by
  have hall : (appendLocked expected events baseTime).All fun o : StoreOp =>
      o.isPassive = true ∨ o.isAppend = true := by
    unfold appendLocked
    refine All.bind ⟨.inl rfl, fun active => by cases active <;> trivial⟩ fun active => ?_
    refine All.bind ?_ fun _ => ⟨.inr rfl, fun r => ?_⟩
    · exact all_getConnection (.inl rfl)
    · exact all_orEs r
  refine Account.follows_of_all hall trivial fun o ho σ' _ => ⟨?_, fun _ _ => trivial⟩
  cases o <;> first | trivial | rcases ho with ho | ho <;> cases ho

theorem follows_append [SerdeJson] {fuel : Nat} {expected : ExpectedVersion} {events : List NewEvent} :
    (account policy).follows (append policy fuel expected events) (fun _ _ => True) σ := by
  unfold append
  rw [bind_eq, Account.follows_bind]
  -- the calls before the lock one by one: each ends the append, or it goes on with what was read
  refine Account.follows_mono follows_maybeRotate fun r σ' _ => ?_
  cases r with
  | error e => trivial
  | ok _ =>
    show (account policy).follows (if events.isEmpty then _ else _) _ σ'
    split
    · trivial
    · cases hvalid : validateEvents events with
      | error err => trivial
      | ok _ =>
        refine ⟨trivial, fun t _ => ?_⟩
        show (account policy).follows (appendAt policy fuel expected events t.unixTimestampMs
          (OffsetDateTime.fromUnixTimestampNanos (t.unixTimestampMs * 1000000))) _ _
        generalize hms : t.unixTimestampMs = nowMs
        cases OffsetDateTime.fromUnixTimestampNanos (nowMs * 1000000) with
        | none => trivial
        | some baseTime =>
          show (account policy).follows ((rotateUntilCurrentWindow policy nowMs fuel).bind _) _ _
          rw [Account.follows_bind]
          refine Account.follows_mono (follows_rotateUntilCurrentWindow fuel rfl hms) fun r σ'' _ => ?_
          cases r with
          | error e => trivial
          | ok _ =>
            exact Account.follows_withWrite trivial (fun _ => trivial) follows_appendLocked

/-- Every call on an open handle with this policy follows the account. -/
theorem follows_code [SerdeJson] {w : World Unit} {a : ActivePartition} {call : StreamCall}
    (ha : w.handles () = some (policy, a)) (hready : call.ready () w = true) :
    (account policy).follows call.code (fun _ _ => True) σ := by
  have hthen : ∀ {α : Type} {p : StreamProgram α} {f : α → StreamAns},
      (account policy).follows p (fun _ _ => True) σ →
      (account policy).follows (p.bind fun x => pure (f x)) (fun _ _ => True) σ := by
    intro α p f hp
    rw [Account.follows_bind]
    refine Account.follows_mono hp fun r σ' _ => ?_
    cases r <;> trivial
  cases call with
  | openPartitioned rotation => simp [StreamCall.ready, ha] at hready
  | append rotation fuel expected events =>
    obtain rfl : rotation = policy := by simpa [StreamCall.ready, ha] using hready
    exact hthen follows_append
  | maybeRotate rotation =>
    obtain rfl : rotation = policy := by simpa [StreamCall.ready, ha] using hready
    exact hthen follows_maybeRotate
  | loadAfterVersion rotation cursor limit =>
    exact hthen (follows_passive (all_loadAfterVersion (fun _ => rfl) (fun _ _ h => h) _ _))
  | currentVersion rotation =>
    exact hthen (Account.follows_withRead (fun _ => ⟨trivial, trivial⟩)
      (follows_passive all_currentVersionLocked))

end Code

/-! ## What the calls know is still true -/

/-- Only two operations change what the handle keeps. -/
theorem step_handles {o : StoreOp} {e : StoreEnv} {w : World Unit} (hset : ∀ a, o ≠ .setActive a)
    (hopen : ∀ rotation a, o ≠ .openHandle rotation a) :
    (World.step () o e w).2.handles = w.handles := by
  cases o with
  | setActive a => exact absurd rfl (hset a)
  | openHandle rotation a => exact absurd rfl (hopen rotation a)
  | buildDatabase ref =>
    simp only [World.step]
    repeat' split
    · rfl
    · rfl
    · cases ref <;> rfl
  | sql ref s =>
    simp only [World.step, World.stepSql]
    repeat' split
    · rfl
    · rfl
    · rfl
    · cases ref <;> rfl
    · rfl
  | appendTransaction name expected events baseTime =>
    simp only [World.step, World.stepAppend]
    repeat' split
    all_goals rfl
  | replaceTransaction ranges =>
    exact (step_onCatalog (h := ()) (o := .replaceTransaction ranges) (e := e) (w := w) rfl).handles
  | _ => rw [step_passive rfl]

section Linked

variable [SerdeJson] {T : Type} {policy : RotationPolicy} {γ : History T}
  {c c' : Config (eventStreams Unit) T} {l : Label (eventStreams Unit) T} {know : T → Seen}

/-- What the calls know, against the state and what the run has shown. A partition that a call has
seen is still active, unless another was made active since. -/
structure Linked (policy : RotationPolicy) (γ : History T) (w : World Unit) (know : T → Seen) :
    Prop where
  handle : ∃ a, w.handles () = some (policy, a) ∧ NotAhead policy.window a γ.clock
  notAhead : ∀ t a, (know t).active = some a → NotAhead policy.window a γ.clock
  active : ∀ t a, (know t).active = some a →
    ∀ a', w.handles () = some (policy, a') → a' = a ∨ a'.startMs ∈ γ.since t
  clock : ∀ t t', (know t).clock = some t' → t'.unixTimestampNanos ≤ γ.clock.unixTimestampNanos
  sizes : ∀ t, ∀ x ∈ (know t).sizes, x ∈ γ.sizes

omit [SerdeJson] in
/-- Before the first call. -/
theorem Linked.start {w : World Unit} {a : ActivePartition} {t₀ : OffsetDateTime}
    (ha : w.handles () = some (policy, a)) (hahead : NotAhead policy.window a t₀) :
    Linked policy (History.start t₀ : History T) w fun _ => {} where
  handle := ⟨a, ha, hahead⟩
  notAhead _ _ h := by cases h
  active _ _ h := by cases h
  clock _ _ h := by cases h
  sizes _ _ h := by cases h

theorem Linked.expect {w : World Unit} (hl : Linked policy γ w know) {t : T} {o : StoreOp}
    {e : StoreEnv} (hclock : ClockOrdered γ c (.op t () o e))
    (hafresh : DecidesAfresh policy.window γ c (.op t () o e)) :
    (account policy).expect (know t) o (World.step () o e w).1 := by
  cases o with
  | now =>
    exact ⟨hafresh, fun t' ht' => (hl.clock t t' ht').trans hclock,
      fun a ha => (hl.notAhead t a ha).mono hclock⟩
  | _ => trivial

omit [SerdeJson] in
/-- A call that takes the write lock for rotating finds that rotating is due. -/
theorem Linked.due {w : World Unit} (hl : Linked policy γ w know) {t : T} {nowMs : Int}
    (hdecides : (know t).Decides policy nowMs)
    (hafresh : ∀ startMs ∈ γ.since t, floorToWindowMs nowMs policy.window ≠ some startMs) :
    Due γ w policy nowMs := by
  obtain ⟨a, ha, -⟩ := hl.handle
  obtain ⟨seen, hseen, hwhy⟩ := hdecides
  refine ⟨a, ha, ?_⟩
  rcases hl.active t seen hseen a ha with rfl | hsince
  · refine hwhy.imp_right ?_
    rintro ⟨maxBytes, size, hmax, hsize, hle⟩
    exact ⟨maxBytes, size, hmax, hl.sizes t _ hsize, hle⟩
  · exact .inl (hafresh _ hsince)

omit [SerdeJson] in
theorem Linked.of_handles {w w' : World Unit} (hl : Linked policy γ w know)
    (hw : w'.handles = w.handles) : Linked policy γ w' know where
  handle := by rw [hw]; exact hl.handle
  notAhead := hl.notAhead
  active := by rw [hw]; exact hl.active
  clock := hl.clock
  sizes := hl.sizes

omit [SerdeJson] in
/-- A rotation makes another partition active. -/
theorem Linked.setActive {w : World Unit} (hl : Linked policy γ w know) {a : ActivePartition}
    (hahead : NotAhead policy.window a γ.clock) :
    Linked policy { γ with since := fun u => a.startMs :: γ.since u } (w.activate () a) know := by
  obtain ⟨a₀, ha₀, -⟩ := hl.handle
  have hhandle : (w.activate () a).handles () = some (policy, a) := by simp [World.activate, ha₀]
  refine ⟨⟨a, hhandle, hahead⟩, hl.notAhead, fun u seen _ a' ha' => ?_, hl.clock, hl.sizes⟩
  obtain rfl : a = a' := by simpa [hhandle] using ha'
  exact .inr (List.mem_cons_self ..)

variable [DecidableEq T]

omit [SerdeJson] in
/-- The call looks at the active partition. -/
theorem Linked.readActive {w : World Unit} (hl : Linked policy γ w know) (t : T) :
    Linked policy { γ with since := Function.update γ.since t [] } w
      (Function.update know t { know t with active := (w.handles ()).map Prod.snd }) := by
  obtain ⟨a₀, ha₀, hahead₀⟩ := hl.handle
  have hself : ∀ {a}, (w.handles ()).map Prod.snd = some a → a = a₀ := fun h => by
    simpa [ha₀, eq_comm] using h
  refine ⟨⟨a₀, ha₀, hahead₀⟩, fun u a ha => ?_, fun u a ha a' ha' => ?_, fun u => ?_, fun u => ?_⟩
  all_goals by_cases hu : u = t
  all_goals first
    | subst hu; simp only [Function.update_self] at *
    | simp only [Function.update_of_ne hu] at *
  · rw [hself ha]
    exact hahead₀
  · exact hl.notAhead u a ha
  · refine .inl ?_
    rw [hself ha, hself (a := a') (by rw [ha']; rfl)]
  · exact hl.active u a ha a' ha'
  · exact hl.clock u
  · exact hl.clock u
  · exact hl.sizes u
  · exact hl.sizes u

omit [SerdeJson] in
/-- The call reads the clock. -/
theorem Linked.now {w : World Unit} (hl : Linked policy γ w know) (t : T) {t' : OffsetDateTime}
    (hclock : γ.clock.unixTimestampNanos ≤ t'.unixTimestampNanos) :
    Linked policy { γ with clock := t' } w
      (Function.update know t { know t with clock := some t' }) := by
  obtain ⟨a₀, ha₀, hahead₀⟩ := hl.handle
  refine ⟨⟨a₀, ha₀, hahead₀.mono hclock⟩, fun u a ha => ?_, fun u a ha a' ha' => ?_,
    fun u t'' ht => ?_, fun u => ?_⟩
  all_goals by_cases hu : u = t
  all_goals first
    | subst hu; simp only [Function.update_self] at *
    | simp only [Function.update_of_ne hu] at *
  · exact (hl.notAhead u a ha).mono hclock
  · exact (hl.notAhead u a ha).mono hclock
  · exact hl.active u a ha a' ha'
  · exact hl.active u a ha a' ha'
  · rw [Option.some.inj ht]
  · exact (hl.clock u t'' ht).trans hclock
  · exact hl.sizes u
  · exact hl.sizes u

omit [SerdeJson] in
/-- The call reads the size of a file. -/
theorem Linked.fileSize {w : World Unit} (hl : Linked policy γ w know) (t : T) (x : Text × Nat) :
    Linked policy { γ with sizes := x :: γ.sizes } w
      (Function.update know t { know t with sizes := x :: (know t).sizes }) := by
  refine ⟨hl.handle, fun u a ha => ?_, fun u a ha => ?_, fun u => ?_, fun u y hy => ?_⟩
  all_goals by_cases hu : u = t
  all_goals first
    | subst hu; simp only [Function.update_self] at *
    | simp only [Function.update_of_ne hu] at *
  · exact hl.notAhead u a ha
  · exact hl.notAhead u a ha
  · exact hl.active u a ha
  · exact hl.active u a ha
  · exact hl.clock u
  · exact hl.clock u
  · rcases List.mem_cons.1 hy with rfl | hy
    · exact List.mem_cons_self ..
    · exact List.mem_cons_of_mem _ (hl.sizes u y hy)
  · exact List.mem_cons_of_mem _ (hl.sizes u y hy)

omit [SerdeJson] in
/-- A new call knows nothing. -/
theorem Linked.invoke {w : World Unit} (hl : Linked policy γ w know) (t : T) :
    Linked policy γ w (Function.update know t {}) := by
  refine ⟨hl.handle, fun u a ha => ?_, fun u a ha => ?_, fun u t' ht => ?_, fun u x hx => ?_⟩
  all_goals by_cases hu : u = t
  all_goals first
    | subst hu; simp only [Function.update_self] at *
    | simp only [Function.update_of_ne hu] at *
  · cases ha
  · exact hl.notAhead u a ha
  · cases ha
  · exact hl.active u a ha
  · cases ht
  · exact hl.clock u t' ht
  · cases hx
  · exact hl.sizes u x hx

/-- An operation keeps what the calls know true. -/
theorem Linked.op {w : World Unit} (hl : Linked policy γ w know) {t : T} {o : StoreOp} {e : StoreEnv}
    (hask : (account policy).ask (know t) (.op o)) (hclock : ClockOrdered γ c (.op t () o e)) :
    Linked policy (History.record (.op t () o e) γ) (World.step () o e w).2
      (Function.update know t (Seen.learn o (World.step () o e w).1 (know t))) := by
  have hother : (∀ a, o ≠ .setActive a) → (∀ rotation a, o ≠ .openHandle rotation a) →
      Linked policy γ (World.step () o e w).2 know :=
    fun hset hopen => hl.of_handles (step_handles hset hopen)
  cases o with
  | readActive => exact hl.readActive t
  | now => exact hl.now t hclock
  | fileSize name => exact hl.fileSize t (name, e.size)
  | setActive a =>
    -- a rotation goes to the window of a time that its call has read, and that is over by now
    obtain ⟨t', ht', hfloor⟩ := hask
    have hstart := floorToWindowMs_some hfloor
    have hahead : NotAhead policy.window a γ.clock := by
      refine .inr ?_
      rw [hstart]
      exact windowStart_mono (unixTimestampMs_mono (hl.clock t t' ht'))
    have hset := hl.setActive hahead
    rwa [← Function.update_eq_self t know] at hset
  | openHandle rotation a => exact hask.elim
  | _ =>
    have hsame := hother (by nofun) (by nofun)
    rwa [← Function.update_eq_self t know] at hsame

/-- What holds at every moment of a run. -/
def Kept (policy : RotationPolicy) (γ : History T) (c : Config (eventStreams Unit) T) : Prop :=
  ∃ know, Linked policy γ c.st know ∧ (account policy).Followed c know

/-- A rotation that takes the write lock is due. -/
def RotatesWhenDue (γ : History T) (c : Config (eventStreams Unit) T) :
    Label (eventStreams Unit) T → Prop
  | .acquireWrite _ _ (.rotating rotation nowMs) => Due γ c.st rotation nowMs
  | _ => True

/-- A step keeps what the calls know true, and rotates when it is due. -/
theorem Kept.step (hk : Kept policy γ c) (hstep : Step c l c') (hclock : ClockOrdered γ c l)
    (hafresh : DecidesAfresh policy.window γ c l) :
    RotatesWhenDue γ c l ∧ Kept policy (History.record l γ) c' := by
  obtain ⟨know, hl, hF⟩ := hk
  have hnext := Account.followed_step {} hF hstep
    (fun t h o e hlabel => by subst hlabel; exact hl.expect hclock hafresh)
    (fun t h call hlabel => by
      subst hlabel
      obtain ⟨a, ha, -⟩ := hl.handle
      cases hstep with
      | invoke t h call hfree hready => exact follows_code ha hready)
  refine ⟨?_, _, ?_, hnext⟩
  -- what the step may do, and then what is known behind it
  · cases l with
    | acquireWrite t h note =>
      cases note with
      | rotating rotation nowMs =>
        obtain ⟨rfl, hdecides⟩ := hF.acquireWrite hstep
        exact hl.due hdecides hafresh
      | _ => trivial
    | _ => trivial
  · cases hstep with
    | op t h call o k e ht => exact hl.op (hF t _ ht).1 hclock
    | invoke t h call hfree hready => exact hl.invoke t
    | restart => exact hclock.elim
    | _ => exact hl

end Linked

/-! ## The files of a window -/

/-- The name is one for files of the window that begins at `startMs`. -/
def OfWindow (window : Duration) (startMs : Int) (name : Text) : Prop :=
  ∃ ordinal, generatePartitionName startMs window ordinal = .ok name

/-- The file was made since `w₀`. -/
def Created (w₀ w : World Unit) (name : Text) : Prop :=
  w₀.files.lookup name = none ∧ w.files.lookup name ≠ none

/-- Of the files made since `w₀`, at most one belongs to each window. -/
def OncePerWindow (window : Duration) (w₀ w : World Unit) : Prop :=
  ∀ startMs name name', Created w₀ w name → Created w₀ w name' → OfWindow window startMs name →
    OfWindow window startMs name' → name = name'

/-- What follows the label in a name. -/
def nameEnd : Option Nat → Text
  | none => nameSuffix
  | some ordinal => '_' :: (Decimal.pad 6 ordinal ++ nameSuffix)

theorem generatePartitionName_label {startMs : Int} {window : Duration} {ordinal : Option Nat}
    {name : Text} (h : generatePartitionName startMs window ordinal = .ok name) :
    ∃ label, labelFor startMs window = .ok label ∧ name = namePrefix ++ (label ++ nameEnd ordinal) := by
  unfold generatePartitionName at h
  cases hlabel : labelFor startMs window with
  | error err =>
    rw [hlabel] at h
    cases h
  | ok label =>
    rw [hlabel] at h
    refine ⟨label, rfl, ?_⟩
    cases ordinal with
    | none =>
      cases h
      rw [List.append_assoc]
      rfl
    | some n =>
      simp only [Bind.bind, Except.bind] at h
      split at h
      · cases h
        rw [List.append_assoc]
        rfl
      · cases h

theorem underscore_not_digit {width n : Nat} : '_' ∉ Decimal.pad width n := fun h => by
  have := Decimal.digitValue_isSome_of_mem_pad h
  exact absurd this (by decide)

theorem underscore_not_label {startMs : Int} {window : Duration} {label : Text}
    (h : labelFor startMs window = .ok label) : '_' ∉ label := by
  have hyear : ∀ year, '_' ∉ yearText year := fun year => by
    unfold yearText
    repeat' split
    all_goals simp [underscore_not_digit]
  have hpad : ∀ n, '_' ∉ pad2 n := fun n => underscore_not_digit
  unfold labelFor at h
  repeat' split at h
  all_goals first
    | cases h; simp [hyear, hpad]
    | cases h

/-- A name without an ordinal is the only one of its kind in its window. -/
theorem OfWindow.unique {window : Duration} {startMs s s' : Int} {name name' : Text}
    (h : OfWindow window startMs name) (h' : OfWindow window startMs name')
    (hname : generatePartitionName s window none = .ok name)
    (hname' : generatePartitionName s' window none = .ok name') : name = name' := by
  -- neither has an ordinal
  have hplain : ∀ {s name}, OfWindow window startMs name →
      generatePartitionName s window none = .ok name →
      generatePartitionName startMs window none = .ok name := by
    rintro s name ⟨ordinal, hgen⟩ hnone
    cases ordinal with
    | none => exact hgen
    | some n =>
      obtain ⟨label, hlabel, rfl⟩ := generatePartitionName_label hnone
      obtain ⟨label', -, heq⟩ := generatePartitionName_label hgen
      have hmem : '_' ∈ label ++ nameEnd none := by
        rw [List.append_cancel_left heq]
        simp [nameEnd]
      rcases List.mem_append.1 hmem with hmem | hmem
      · exact absurd hmem (underscore_not_label hlabel)
      · exact absurd hmem (by decide)
  have heq := (hplain h hname).symm.trans (hplain h' hname')
  exact Except.ok.inj heq

/-- Every file made since `w₀` has a name without an ordinal. -/
structure NamedOnce (window : Duration) (w₀ w : World Unit) : Prop where
  isOpen : w.handles () ≠ none
  names : ∀ name, Created w₀ w name →
    ∃ startMs, generatePartitionName startMs window none = .ok name

section Files

variable {policy : RotationPolicy} {window : Duration} {w₀ w w' : World Unit}

theorem NamedOnce.oncePerWindow (hn : NamedOnce window w₀ w) : OncePerWindow window w₀ w := by
  intro startMs name name' hc hc' hw hw'
  obtain ⟨s, hs⟩ := hn.names name hc
  obtain ⟨s', hs'⟩ := hn.names name' hc'
  exact hw.unique hw' hs hs'

/-- A step that makes at most the file `new`. -/
theorem NamedOnce.of_others (hn : NamedOnce window w₀ w) (new : Text)
    (hhandles : w'.handles () ≠ none)
    (hothers : ∀ name, name ≠ new → w'.files.lookup name = w.files.lookup name)
    (hnew : w.files.lookup new = none → ∃ startMs, generatePartitionName startMs window none = .ok new) :
    NamedOnce window w₀ w' where
  isOpen := hhandles
  names name hc := by
    by_cases hw : w.files.lookup name = none
    · by_cases hname : name = new
      · subst hname
        exact hnew hw
      · exact absurd ((hothers name hname).trans hw) hc.2
    · exact hn.names name ⟨hc.1, hw⟩

theorem NamedOnce.of_files (hn : NamedOnce window w₀ w) (hhandles : w'.handles () ≠ none)
    (hfiles : w'.files = w.files) : NamedOnce window w₀ w' where
  isOpen := hhandles
  names name hc := hn.names name ⟨hc.1, by rw [← hfiles]; exact hc.2⟩

/-- A rotation into another window goes to a name without an ordinal. -/
theorem determineNewPartitionInfo_plain {rotation : RotationPolicy} {startMs nowMs : Int}
    {ordinal : Option Nat} {new : Text × Int × Option Nat}
    (h : determineNewPartitionInfo rotation startMs ordinal nowMs = .ok new)
    (hne : floorToWindowMs nowMs rotation.window ≠ some startMs) :
    generatePartitionName new.2.1 rotation.window none = .ok new.1 := by
  unfold determineNewPartitionInfo at h
  split at h
  · cases h
  · rename_i newStartMs hfloor
    rw [if_neg (fun heq => hne (by rw [hfloor, heq]))] at h
    split at h
    · rename_i newName hname
      cases h
      exact hname
    · cases h

/-- A rotation that takes the write lock leaves the window of the active file. -/
def LeavesWindow (policy : RotationPolicy) : LockNote → World Unit → Prop
  | .rotating rotation nowMs, w => rotation = policy ∧ ∀ p a, w.handles () = some (p, a) →
    floorToWindowMs nowMs rotation.window ≠ some a.startMs
  | _, _ => True

/-- The calls on one stream, rotating into other windows only. -/
def windowDiscipline [SerdeJson] (policy : RotationPolicy) (w₀ : World Unit) :
    Discipline (eventStreams Unit) CallStatus where
  allow _ _ _ := True
  allowWrite := LeavesWindow policy
  restarts := .never
  inv := NamedOnce policy.window w₀
  always := NamedOnce policy.window w₀
  guarantee _ _ _ _ := True
  ghost₀ := CallStatus.ofCall
  ghost o x status := status.after o x

theorem reads_windowDiscipline [SerdeJson] : Reads (windowDiscipline policy w₀) fun _ => True where
  quiet _ ho x status := CallStatus.after_of_not_append ho x status
  refl _ _ _ _ _ := trivial
  clock _ _ _ := trivial

theorem wp_rotate_namedOnce [SerdeJson] {nowMs : Int} {status : CallStatus}
    (hn : NamedOnce policy.window w₀ w)
    (hleaves : ∀ p a, w.handles () = some (p, a) →
      floorToWindowMs nowMs policy.window ≠ some a.startMs) :
    wp ((windowDiscipline policy w₀).contract status) (rotatePartitionLocked policy nowMs)
      (fun _ w => NamedOnce policy.window w₀ w) w := by
  refine wp_rotatePartitionLocked (fun o ho => ⟨trivial, hn⟩) (fun e => hn)
    fun p a new head ha hnew _ => ?_
  -- a rotation out of the window takes the name without an ordinal, which no other one of the window has
  have hplain := determineNewPartitionInfo_plain hnew (hleaves p a ha)
  have hrot : ∀ w', Rotating a.name head new.name w w' → NamedOnce policy.window w₀ w' := by
    rintro w' ⟨w₁, hseal, hb⟩
    refine hn.of_others new.name ?_ (fun name hname => ?_) fun _ => ⟨_, hplain⟩
    · rw [hb.handles, hseal.handles]
      exact hn.isOpen
    · rw [hb.others name hname, hseal.files]
  have hlisted : ∀ w' w'', Rotating a.name head new.name w w' →
      RangesUpdated (Stmt.upsert (rangeOf new.name head)) w' w'' → NamedOnce policy.window w₀ w'' := by
    intro w' w'' hw' hu
    refine (hrot w' hw').of_files ?_ hu.files
    rw [hu.handles]
    exact (hrot w' hw').isOpen
  refine wp_rotateTo (fun o _ => ⟨trivial, hn⟩)
    (fun w' hw' => ⟨trivial, hn.of_files (by rw [hw'.handles]; exact hn.isOpen) hw'.files⟩)
    (fun o w' w'' _ _ hw'' => ⟨trivial, hrot w'' hw''⟩)
    (fun w' w'' hw' hu => ⟨trivial, hlisted w' w'' hw'.1 hu⟩)
    (fun w'' hw'' => ?_) (fun _ _ => hn) fun _ w' hw' _ => hrot w' hw'
  obtain ⟨w', ⟨hw', -⟩, hu⟩ := hw''
  have hlist := hlisted w' w'' hw' hu
  -- going over to the file changes no file
  have hswitch : NamedOnce policy.window w₀ (w''.activate () new) := by
    refine hlist.of_files ?_ rfl
    obtain ⟨pa, hpa⟩ := Option.ne_none_iff_exists'.1 hlist.isOpen
    simp [World.activate, hpa]
  exact ⟨⟨trivial, hswitch⟩, hswitch⟩

/-- **The calls make at most one file for each window**, rotating into other windows only. -/
theorem lawful_windowDiscipline [SerdeJson] : (windowDiscipline policy w₀).Lawful AppendPost := by
  refine reads_windowDiscipline.lawful_append rfl rfl (fun w hn => hn) nofun nofun
    (fun rotation w hn hnone => absurd hnone hn.isOpen) (fun rotation nowMs status w _ hn hw => ?_) ?_
  · obtain ⟨rfl, hleaves⟩ := hw
    exact wp_rotate_namedOnce hn hleaves
  · intro expected events baseTime p a e r w w' hn _ ha _ hadm hstep _
    refine ⟨trivial, ?_⟩
    cases hstep with
    | committed hd hc =>
      refine hn.of_others a.name hn.isOpen (fun name hname => World.lookup_setDb_ne hname)
        fun hnone => ?_
      rw [hd] at hnone
      cases hnone
    | refused hw hfiles =>
      refine ⟨by rw [(hw 0).handles]; exact hn.isOpen, fun name hc => hn.names name ⟨hc.1, ?_⟩⟩
      rw [← hfiles name]
      exact hc.2

end Files

/-! ## Runs -/

section Runs

variable [SerdeJson] {T : Type} [DecidableEq T] {policy : RotationPolicy} {a : ActivePartition}
  {t₀ : OffsetDateTime} {w₀ : World Unit}
  {tr : List (Label (eventStreams Unit) T × Config (eventStreams Unit) T)}

omit [SerdeJson] [DecidableEq T] in
/-- A due rotation of a policy without a limit of the size leaves the window. -/
theorem Due.leavesWindow {γ : History T} {w : World Unit} {nowMs : Int} (hd : Due γ w policy nowMs)
    (hmax : policy.maxBytes = none) : LeavesWindow policy (.rotating policy nowMs) w := by
  obtain ⟨a, ha, hwhy⟩ := hd
  refine ⟨rfl, fun p a' ha' => ?_⟩
  obtain ⟨-, rfl⟩ : policy = p ∧ a = a' := by simpa [ha] using ha'
  rcases hwhy with hwhy | ⟨maxBytes, size, hsome, -⟩
  · exact hwhy
  · rw [hmax] at hsome
    cases hsome

/-- **Rotations are due.** In a run on an open handle whose clock does not go back, and in which no
file of the window of a rotation's time is made active between the last look of its call and the
write lock, every rotation that takes the lock finds the active file in another window or full; and
without a limit of the size at most one file is made for each window. -/
theorem rotations_due (ha : w₀.handles () = some (policy, a)) (hahead : NotAhead policy.window a t₀)
    (hrun : IsRunWith History.record
      (fun γ c l => ClockOrdered γ c l ∧ DecidesAfresh policy.window γ c l)
      (History.start t₀) (Config.idle T w₀) tr) :
    IsRunWith History.record RotatesWhenDue (History.start t₀) (Config.idle T w₀) tr ∧
      (policy.maxBytes = none → OncePerWindow policy.window w₀ (lastOf (Config.idle T w₀) tr).st) := by
  -- both parts by one induction on the run, each with its invariant
  have hkept := hrun.strengthen RotatesWhenDue
    (P := fun γ c => Kept policy γ c ∧ (policy.maxBytes = none →
      ∃ g, (windowDiscipline policy w₀).Sound AppendPost c g)) ?_ fun γ c l c' hP hstep hB => ?_
  · refine ⟨hkept.1, fun hmax => ?_⟩
    obtain ⟨g, hs⟩ := hkept.2.2 hmax
    exact hs.always.oncePerWindow
  · refine ⟨⟨fun _ => {}, ?_, fun t task ht => by cases ht⟩, fun _ => ⟨fun _ => .other, ?_⟩⟩
    · exact Linked.start ha hahead
    · refine sound_idle lawful_windowDiscipline ⟨by rw [ha]; nofun, fun name hc => ?_⟩ _
      exact absurd hc.1 hc.2
  · obtain ⟨hdue, hnext⟩ := hP.1.step hstep hB.1 hB.2
    refine ⟨hdue, hnext, fun hmax => ?_⟩
    obtain ⟨g, hs⟩ := hP.2 hmax
    refine ⟨_, sound_step lawful_windowDiscipline hs hstep ?_⟩
    cases l with
    | op t h o e => trivial
    | restart => exact hB.1.elim
    | acquireWrite t h note =>
      cases note with
      | rotating rotation nowMs =>
        -- the rotation that takes the lock is due: its window is not the one of the active file
        obtain ⟨know, -, hF⟩ := hP.1
        obtain ⟨rfl, -⟩ := hF.acquireWrite hstep
        exact hdue.leavesWindow hmax
      | _ => trivial
    | _ => trivial

/-! ## Computed runs -/

/-- The test of `ClockOrdered`. -/
def isClockOrdered (γ : History T) (_ : Config (eventStreams Unit) T) :
    Label (eventStreams Unit) T → Bool
  | .op _ _ .now e => decide (γ.clock.unixTimestampNanos ≤ e.now.unixTimestampNanos)
  | .restart => false
  | _ => true

/-- The test of `DecidesAfresh`. -/
def isAfresh (window : Duration) (γ : History T) (_ : Config (eventStreams Unit) T) :
    Label (eventStreams Unit) T → Bool
  | .op _ _ .now e => decide (SameWindow window e.now)
  | .acquireWrite t _ (.rotating rotation nowMs) =>
    (γ.since t).all fun startMs => floorToWindowMs nowMs rotation.window != some startMs
  | _ => true

/-- A test that every due rotation without a limit of the size passes. -/
def leaves (_ : History T) (c : Config (eventStreams Unit) T) : Label (eventStreams Unit) T → Bool
  | .acquireWrite _ _ (.rotating rotation nowMs) => rotation.maxBytes.isSome ||
    (match c.st.handles () with
      | some (_, a) => floorToWindowMs nowMs rotation.window != some a.startMs
      | none => false)
  | _ => true

omit [DecidableEq T] in
theorem clockOrdered_of_isClockOrdered {γ : History T} {c : Config (eventStreams Unit) T}
    {l : Label (eventStreams Unit) T} (h : isClockOrdered γ c l = true) : ClockOrdered γ c l := by
  cases l with
  | op t hd o e =>
    cases o with
    | now =>
      have hle := of_decide_eq_true (p := γ.clock.unixTimestampNanos ≤ e.now.unixTimestampNanos) h
      exact hle
    | _ => trivial
  | restart => cases h
  | _ => trivial

theorem rotatesAfresh_of_play {ms : List (Move (eventStreams Unit) T)} {window : Duration}
    {γ : History T} {c : Config (eventStreams Unit) T} (h : play ms c = some tr)
    (hcheck : checksWith History.record
      (fun γ c l => isClockOrdered γ c l && isAfresh window γ c l) γ c tr = true) :
    IsRunWith History.record (fun γ c l => ClockOrdered γ c l ∧ DecidesAfresh window γ c l) γ c tr := by
  refine (play_checksWith h hcheck).mono fun γ c l hl => ?_
  obtain ⟨hclock, hafresh⟩ := Bool.and_eq_true_iff.1 hl
  refine ⟨clockOrdered_of_isClockOrdered hclock, ?_⟩
  cases l with
  | op t hd o e =>
    cases o with
    | now =>
      have hsame := of_decide_eq_true (p := SameWindow window e.now) hafresh
      exact hsame
    | _ => trivial
  | acquireWrite t hd note =>
    cases note with
    | rotating rotation nowMs =>
      intro startMs hs
      simpa using List.all_eq_true.1 hafresh startMs hs
    | _ => trivial
  | _ => trivial

omit [DecidableEq T] in
theorem RotatesWhenDue.leaves {γ : History T} {c : Config (eventStreams Unit) T}
    {l : Label (eventStreams Unit) T} (h : RotatesWhenDue γ c l) : leaves γ c l = true := by
  cases l with
  | acquireWrite t hd note =>
    cases note with
    | rotating rotation nowMs =>
      obtain ⟨a, ha, hwhy⟩ := h
      simp only [Events.leaves, ha]
      rcases hwhy with hwhy | ⟨maxBytes, -, hmax, -⟩
      · simp [hwhy]
      · simp [hmax]
    | _ => rfl
  | _ => rfl

end Runs

/-- The active partition of `opened`. -/
def firstHour : ActivePartition where
  name := namePrefix ++ ['1', '9', '7', '0', '0', '1', '0', '1', 'T', '0', '0'] ++ nameSuffix
  startMs := 0
  ordinal := none

theorem opened_handle : opened.handles () = some (hourly, firstHour) := by decide +kernel

attribute [local instance] SerdeJson.limited

/-- An append reads the clock at one o'clock, another call rotates, and then the append goes on. -/
def overlapping : List (Move (eventStreams Unit) Bool) :=
  .invoke false () (.append hourly 2 .any [noteEvent]) :: List.replicate 5 (.turn false {}) ++
    .turn false atOne :: .invoke true () (.maybeRotate hourly) :: List.replicate 31 (.turn true atOne) ++
      List.replicate 9 (.turn false atOne)

/-- Both calls cross into the second hour, and only one of them rotates. -/
theorem rotations_due_overlapping : ∃ tr, play overlapping (Config.idle Bool opened) = some tr ∧
    (lastOf (Config.idle Bool opened) tr).st.files.keys.length = 2 ∧
    IsRunWith History.record RotatesWhenDue (History.start .unixEpoch) (Config.idle Bool opened)
      tr ∧
    OncePerWindow hourly.window opened (lastOf (Config.idle Bool opened) tr).st := by
  have hplay : ((play overlapping (Config.idle Bool opened)).map fun tr =>
      checksWith History.record (fun γ c l => isClockOrdered γ c l && isAfresh hourly.window γ c l)
        (History.start .unixEpoch) (Config.idle Bool opened) tr &&
      (lastOf (Config.idle Bool opened) tr).st.files.keys.length == 2) = some true := by
    decide +kernel
  obtain ⟨tr, htr, hchecks⟩ := Option.map_eq_some_iff.1 hplay
  obtain ⟨hafresh, hfiles⟩ := Bool.and_eq_true_iff.1 hchecks
  have hdue := rotations_due opened_handle (.inl (by decide)) (rotatesAfresh_of_play htr hafresh)
  exact ⟨tr, htr, by simpa using hfiles, hdue.1, hdue.2 rfl⟩

/-- The names of the two files of the second hour. -/
def secondHour : Text :=
  namePrefix ++ ['1', '9', '7', '0', '0', '1', '0', '1', 'T', '0', '1'] ++ nameSuffix

def secondHourAgain : Text :=
  namePrefix ++ ['1', '9', '7', '0', '0', '1', '0', '1', 'T', '0', '1', '_', '0', '0', '0', '0', '0', '1']
    ++ nameSuffix

/-- Two calls that both decide to rotate before either of them takes the write lock. -/
def together : List (Move (eventStreams Unit) Bool) :=
  .invoke false () (.maybeRotate hourly) :: .invoke true () (.maybeRotate hourly) ::
    List.replicate 6 (.turn false atOne) ++ List.replicate 6 (.turn true atOne) ++
      List.replicate 25 (.turn false atOne) ++ List.replicate 25 (.turn true atOne)

/-- The second rotation is not due, and makes a second file of the same hour. -/
theorem not_rotations_due_together : ∃ tr, play together (Config.idle Bool opened) = some tr ∧
    IsRunWith History.record ClockOrdered (History.start .unixEpoch) (Config.idle Bool opened)
      tr ∧
    (∀ t e, Move.turn t e ∈ together → SameWindow hourly.window e.now) ∧
    ¬IsRunWith History.record RotatesWhenDue (History.start .unixEpoch)
      (Config.idle Bool opened) tr ∧
    ¬OncePerWindow hourly.window opened (lastOf (Config.idle Bool opened) tr).st := by
  have hplay : ((play together (Config.idle Bool opened)).map fun tr =>
      checksWith History.record (fun γ c l => isClockOrdered γ c l)
        (History.start .unixEpoch) (Config.idle Bool opened) tr &&
      !checksWith History.record leaves (History.start .unixEpoch) (Config.idle Bool opened) tr &&
      ((lastOf (Config.idle Bool opened) tr).st.files.lookup secondHour).isSome &&
      ((lastOf (Config.idle Bool opened) tr).st.files.lookup secondHourAgain).isSome) = some true := by
    decide +kernel
  obtain ⟨tr, htr, hchecks⟩ := Option.map_eq_some_iff.1 hplay
  simp only [Bool.and_eq_true, Bool.not_eq_true'] at hchecks
  obtain ⟨⟨⟨hclock, hleaves⟩, hfirst⟩, hsecond⟩ := hchecks
  refine ⟨tr, htr, ?_, fun t e he => ?_, fun hdue => ?_, fun honce => ?_⟩
  · exact (play_checksWith htr hclock).mono fun γ c l hl => clockOrdered_of_isClockOrdered hl
  · obtain rfl : e = atOne := by
      have hcases : t = false ∧ e = atOne ∨ t = true ∧ e = atOne ∨ t = false ∧ e = atOne ∨
          t = true ∧ e = atOne := by simpa [together] using he
      rcases hcases with h | h | h | h <;> exact h.2
    decide
  · rw [hdue.checksWith fun γ c l hl => hl.leaves] at hleaves
    cases hleaves
  · have hname : secondHour ≠ secondHourAgain := by decide
    refine hname (honce 3600000 _ _ ⟨by decide +kernel, ?_⟩ ⟨by decide +kernel, ?_⟩
      ⟨none, by decide +kernel⟩ ⟨some 1, by decide +kernel⟩)
    · exact Option.isSome_iff_ne_none.1 hfirst
    · exact Option.isSome_iff_ne_none.1 hsecond

end Events
